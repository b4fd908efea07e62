import ExactDaemon.Auth.Calls
import ExactDaemon.Lib.Lease

/-! # Histories of the text backend

A history is a sequence of adds and cleans, each with the clock at which it runs.
After `auth_init` every history of hostnames that fit their array completes; the
tables then hold the leases of the history, and the relay file lists them.
-/

namespace ExactDaemon

open Prog

inductive AuthEvent where
  | add (username hostname : CStr)
  | clean
  deriving DecidableEq, Repr

namespace AuthEvent

def call (libc : Libc) : AuthEvent → Prog World Unit
  | add username hostname => authTextAdd libc username hostname
  | clean => authTextClean

/-- The hostname leaves room for its NUL. -/
def Fits : AuthEvent → Prop
  | add _ hostname => hostname.length < matchLoginHostnameMax
  | clean => True

instance : DecidablePred Fits
  | add _ hostname => Nat.decLt hostname.length matchLoginHostnameMax
  | clean => instDecidableTrue

def lease : AuthEvent → Lease.Event CStr
  | add _ hostname => .add hostname
  | clean => .clean

end AuthEvent

/-- The grants and cleanings of a history. -/
def leases (es : List (ℤ × AuthEvent)) : List (ℤ × Lease.Event CStr) :=
  es.map fun e => (e.1, e.2.lease)

def World.atClock (w : World) (t : ℤ) : World := { w with clock := t }

def history (libc : Libc) : List (ℤ × AuthEvent) → Prog World Unit
  | [] => pure ()
  | (t, e) :: es => do
    modify (·.atClock t)
    e.call libc
    history libc es

/-- The tables are set up and then worked on. -/
def server (libc : Libc) (es : List (ℤ × AuthEvent)) : Prog World Unit := do
  authInit
  history libc es

/-- The state in which the daemon calls `auth_init`. -/
structure World.Booted (w : World) (tmp file : CStr) (timeout : ℤ) : Prop where
  publishes : w.Publishes tmp file
  timeout : w.conffileParamInt (cstr "timeout") = .ok timeout
  flush : ∃ flush, w.conffileParamInt (cstr "flush") = .ok flush
  blocks : w.tables.auth ≠ w.tables.shadowAuth
  authCur : w.tables.authCur = 0

structure World.Ready (w : World) (tmp file : CStr) (timeout : ℤ) : Prop where
  publishes : w.Publishes tmp file
  timeout : w.conffileParamInt (cstr "timeout") = .ok timeout
  wellFormed : w.tables.WellFormed

/-- The relay file lists the table. -/
def World.Synced (w : World) (file : CStr) : Prop :=
  w.fs.contents file = some (listing w.tables.table)

/-- The host is in the table. -/
def Tables.Holds (tb : Tables) (host : CStr) : Prop := ∃ e ∈ tb.table, e.hostname = host

variable {libc : Libc} {w s w₀ : World} {tmp file : CStr} {timeout : ℤ} {es : List (ℤ × AuthEvent)}

/-! ### One call -/

theorem World.OnlyFiles.conffileParamInt (h : w.OnlyFiles s) (name : CStr) :
    s.conffileParamInt name = w.conffileParamInt name := by
  simp only [World.conffileParamInt, h.conffileParam]

theorem World.OnlyFiles.ready (h : w.OnlyFiles s) (hw : s.fs.writable = w.fs.writable)
    (hr : w.Ready tmp file timeout) : s.Ready tmp file timeout where
  publishes :=
    ⟨(h.conffileParam _).trans hr.publishes.authtemp,
      (h.conffileParam _).trans hr.publishes.authfile, by rw [hw, hr.publishes.writable]⟩
  timeout := (h.conffileParamInt _).trans hr.timeout
  wellFormed := h.tables ▸ hr.wellFormed

theorem Published.synced (h : Published w tmp file s) : s.Synced file := by
  rw [World.Synced, h.frame.tables, h.contents]

/-- A call that publishes well-formed tables leaves the daemon ready. -/
theorem Published.ready (h : Published w tmp file s) (hr : w.Ready tmp file timeout) :
    s.Ready tmp file timeout :=
  h.frame.ready h.writable hr

theorem World.Ready.withTables (h : w.Ready tmp file timeout) {tb : Tables}
    (hw : tb.WellFormed) : (w.withTables tb).Ready tmp file timeout :=
  ⟨h.publishes.withTables tb, h.timeout, hw⟩

theorem listing_eq_of_hostnames {l l' : List AuthEntry}
    (h : l.map AuthEntry.hostname = l'.map AuthEntry.hostname) : listing l = listing l' := by
  have hl : ∀ l : List AuthEntry,
      listing l = (l.map AuthEntry.hostname).flatMap fun h => h ++ [10] := fun l => by
    rw [listing, List.flatMap_map]
  rw [hl, hl, h]

/-- The effect of one completed call. -/
structure Called (w : World) (tmp file : CStr) (timeout : ℤ) (e : AuthEvent) (s : World) :
    Prop where
  ready : s.Ready tmp file timeout
  clock : s.clock = w.clock
  map : s.tables.map = Lease.step timeout w.tables.map (w.clock, e.lease)
  synced : w.Synced file → s.Synced file

theorem run_add (libc : Libc) (hr : w.Ready tmp file timeout) (username : CStr) {host : CStr}
    (hh : host.length < matchLoginHostnameMax) :
    ∃ s, (authTextAdd libc username host).run w = .done () s ∧
      Called w tmp file timeout (.add username host) s := by
  have hcut := strncpy_of_length_le hh.le
  cases hp : w.tables.authPresent libc host with
  | some p =>
    obtain ⟨h₁, hlt, e, he, hk⟩ := Tables.authPresent_some hr.wellFormed hp
    have hi : w.tables.table[p.2]? = some e := by rw [Tables.getElem?_table hlt, ← h₁, he]
    have hname : ({ e with t := w.clock } : AuthEntry).hostname = e.hostname := rfl
    refine ⟨_, run_authTextAdd_present hp he, hr.withTables
      (hr.wellFormed.refresh h₁ hi hname), rfl, ?_, fun hs => ?_⟩
    · change (w.tables.put p { e with t := w.clock }).map = _
      rw [Tables.map_refresh hr.wellFormed h₁ hi hname, hk, hcut]
      rfl
    · refine Eq.trans hs (congrArg some (listing_eq_of_hostnames ?_))
      obtain ⟨b, i⟩ := p
      obtain rfl : b = w.tables.auth := h₁
      change _ = List.map _ (w.tables.put (w.tables.auth, i) { e with t := w.clock }).table
      rw [Tables.table_put, Tables.map_hostname_set hi hname]
  | none =>
    have hn := Tables.authPresent_none hr.wellFormed hp
    rw [hcut] at hn
    have he : AuthEntry.Terminated ⟨host, w.clock⟩ := hh
    have hw := hr.withTables (hr.wellFormed.inserted libc he hn)
    obtain ⟨s, hs, hpub⟩ := run_authWriteText hw.publishes
      (hw.wellFormed.authSize ▸ hw.wellFormed.curLe) hw.wellFormed.terminated
    refine ⟨s, ?_, hpub.ready hw, hpub.frame.clock, ?_, fun _ => hpub.synced⟩
    · rw [run_authTextAdd_absent hr.wellFormed.fitted hp, World.inserted, hcut, hs]
    · rw [hpub.frame.tables]
      exact Tables.map_inserted libc hr.wellFormed he hn

theorem run_clean (hr : w.Ready tmp file timeout) :
    ∃ s, authTextClean.run w = .done () s ∧ Called w tmp file timeout .clean s := by
  obtain ⟨s, hs, hpub⟩ := run_authTextClean hr.wellFormed.toSound hr.publishes hr.timeout
  have hready := hpub.ready (hr.withTables (hr.wellFormed.cleaned w.clock timeout))
  refine ⟨s, hs, hready, hpub.frame.clock, ?_, fun _ => hpub.synced⟩
  rw [hpub.frame.tables]
  exact funext (Tables.map_cleaned hr.wellFormed w.clock timeout)

theorem run_call (libc : Libc) (hr : w.Ready tmp file timeout) {e : AuthEvent} (hf : e.Fits) :
    ∃ s, (e.call libc).run w = .done () s ∧ Called w tmp file timeout e s := by
  cases e with
  | add username host => exact run_add libc hr username hf
  | clean => exact run_clean hr

/-! ### Whole histories -/

/-- The state in which `auth_init` calls `auth_write_text`. -/
def World.initialised (w : World) (flush : ℤ) : World :=
  (w.withTables (w.tables.initialised flush)).setAlarm flush

theorem World.Booted.initialised (hb : w.Booted tmp file timeout) (flush : ℤ) :
    (w.initialised flush).Ready tmp file timeout :=
  ⟨⟨hb.publishes.authtemp, hb.publishes.authfile, hb.publishes.writable⟩, hb.timeout,
    Tables.wellFormed_initialised hb.blocks hb.authCur flush⟩

theorem run_authInit_eq {flush : ℤ}
    (hf : w.conffileParamInt (cstr "flush") = .ok flush) :
    authInit.run w = authWriteText.run (w.initialised flush) := by
  have hflush : (attempt fun w => (w.conffileParamInt (cstr "flush")).map (·, w)).run
      (w.onTables Tables.authInitMem) = .done flush (w.onTables Tables.authInitMem) :=
    run_attempt_ok (by rw [show World.conffileParamInt (w.onTables _) _ = _ from hf]; rfl)
  unfold authInit
  rw [run_bind, run_modify, Outcome.bind_done, run_bind, hflush, Outcome.bind_done]
  rfl

theorem run_authInit (hb : w.Booted tmp file timeout) :
    ∃ s flush, authInit.run w = .done () s ∧ Published (w.initialised flush) tmp file s := by
  obtain ⟨flush, hflush⟩ := hb.flush
  have hr := hb.initialised flush
  obtain ⟨s, hs, hpub⟩ := run_authWriteText hr.publishes
    (hr.wellFormed.authSize ▸ hr.wellFormed.curLe) hr.wellFormed.terminated
  exact ⟨s, flush, (run_authInit_eq hflush).trans hs, hpub⟩

theorem leases_append (es es' : List (ℤ × AuthEvent)) :
    leases (es ++ es') = leases es ++ leases es' := List.map_append

theorem history_append (libc : Libc) (es es' : List (ℤ × AuthEvent)) :
    history libc (es ++ es') = history libc es >>= fun _ => history libc es' := by
  induction es with
  | nil => rfl
  | cons e es ih => simp [history, ih]

theorem server_append (libc : Libc) (es es' : List (ℤ × AuthEvent)) :
    server libc (es ++ es') = server libc es >>= fun _ => history libc es' := by
  simp [server, history_append]

theorem World.Ready.atClock (h : w.Ready tmp file timeout) (t : ℤ) :
    (w.atClock t).Ready tmp file timeout :=
  ⟨⟨h.publishes.authtemp, h.publishes.authfile, h.publishes.writable⟩, h.timeout, h.wellFormed⟩

/-- The state after a history. -/
structure Reached (tmp file : CStr) (timeout : ℤ) (es : List (ℤ × AuthEvent)) (w : World) :
    Prop where
  ready : w.Ready tmp file timeout
  map : w.tables.map = Lease.after timeout (leases es)
  synced : w.Synced file

theorem Reached.step (libc : Libc) (h : Reached tmp file timeout es w) (t : ℤ) {e : AuthEvent}
    (hf : e.Fits) :
    ∃ s, (history libc [(t, e)]).run w = .done () s ∧
      Reached tmp file timeout (es ++ [(t, e)]) s := by
  obtain ⟨s, hs, hc⟩ := run_call libc (h.ready.atClock t) hf
  refine ⟨s, by simp [history, hs], hc.ready, ?_, hc.synced h.synced⟩
  rw [hc.map, leases_append]
  exact (congrArg (fun m => Lease.step timeout m (t, e.lease)) h.map).trans
    Lease.after_concat.symm

/-- Every history of hostnames that fit completes. -/
theorem run_server (libc : Libc) (hb : w₀.Booted tmp file timeout) (hf : ∀ e ∈ es, e.2.Fits) :
    ∃ w, (server libc es).run w₀ = .done () w ∧ Reached tmp file timeout es w := by
  induction es using List.reverseRecOn with
  | nil =>
    obtain ⟨s, flush, hs, hpub⟩ := run_authInit hb
    have htb : s.tables = w₀.tables.initialised flush := hpub.frame.tables
    refine ⟨s, by simp [server, history, hs], hpub.ready (hb.initialised flush), ?_, hpub.synced⟩
    rw [Tables.map, htb, Tables.table_initialised hb.authCur]
    rfl
  | append_singleton es e ih =>
    obtain ⟨w, hw, hreached⟩ := ih fun e he => hf e (List.mem_append_left _ he)
    obtain ⟨s, hs, hs'⟩ := hreached.step libc e.1 (hf e (by simp))
    refine ⟨s, ?_, hs'⟩
    rw [server_append, run_bind, hw]
    exact hs

/-- The parameters that the text backend reads, with short names. -/
def textParam (timeout : CStr) : List Param :=
  [⟨cstr "authtemp", cstr "tmp", false⟩, ⟨cstr "authfile", cstr "relay", false⟩,
    ⟨cstr "timeout", timeout, false⟩, ⟨cstr "flush", cstr "60", false⟩]

theorem booted_textParam (timeout : CStr) :
    (World.boot (textParam timeout)).Booted (cstr "tmp") (cstr "relay") (atoi timeout) where
  publishes := ⟨rfl, rfl, rfl⟩
  timeout := rfl
  flush := ⟨atoi (cstr "60"), rfl⟩
  blocks := Nat.zero_ne_one
  authCur := rfl

end ExactDaemon
