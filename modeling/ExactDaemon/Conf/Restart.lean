import ExactDaemon.Conf.Work

/-! # Reloading against restarting

A daemon that has reloaded looks up its parameters in the new configuration, but the
expression that `match_init` compiled, the period that `auth_init` read and the database
that it opened stay those of the start. It behaves as a restarted one exactly if that makes
no difference.
-/

namespace ExactDaemon

open Prog

namespace DbWorld

/-- The name under which a daemon that was just started has opened its database. -/
def opened (withDb : Bool) (u : DbWorld) : Option CStr :=
  if DbMode withDb u.world.conffileParam then u.world.conffileParam (cstr "authfile") else none

end DbWorld

variable {withDb : Bool} {lib : RegexLib} {libc : Libc} {onLiteral : Except Halt Unit}
  {w u : World} {s t d : DbWorld} {m m₁ m₂ order buff fn : CStr} {flush flush₁ flush₂ : ℤ}
  {c : Config} {cf : Conf} {h : Handle} {f g : Option CStr} {inDb : Prop}
  {db : Prog DbWorld Unit} {text : Prog World Unit}

/-! ### Where the two daemons agree -/

/-- Two daemons that differ by what the second keeps from its start as `u`; in database mode
both have opened a database. -/
structure Paired (inDb : Prop) (u : World) (s t : DbWorld) : Prop where
  world : t.world = s.world.cached u
  calls : t.calls = s.calls
  faults : t.faults = s.faults
  opened : inDb → s.handle = .opened ∧ t.handle = .opened

namespace Paired

theorem set (h : Paired inDb u s t) {a b : World} (hab : b = a.cached u) :
    Paired inDb u (DbWorld.toWorld.set s a) (DbWorld.toWorld.set t b) :=
  ⟨hab, h.calls, h.faults, h.opened⟩

theorem callResult (h : Paired True u s t) (code : ℕ) : t.callResult code = s.callResult code := by
  unfold DbWorld.callResult
  rw [if_pos (h.opened trivial).1, if_pos (h.opened trivial).2, h.faults]

theorem afterCall (h : Paired True u s t) {k : DbCall} {code : ℕ} {g : World → World}
    (hg : ∀ w, g (w.cached u) = (g w).cached u) :
    Paired True u (DbWorld.afterCall k code g s) (DbWorld.afterCall k code g t) where
  world := by
    unfold DbWorld.afterCall
    dsimp only
    rw [h.callResult, h.world]
    cases s.callResult code with
    | error e => rfl
    | ok x => exact hg s.world
  calls := by
    unfold DbWorld.afterCall
    dsimp only
    rw [h.calls, (h.opened trivial).1, (h.opened trivial).2]
  faults := congrArg List.tail h.faults
  opened := h.opened

end Paired

theorem tracks_paired_zoom {α : Type} {p : Prog World α}
    (hp : Tracks (fun s t => t = s.cached u) p) :
    Tracks (Paired inDb u) (zoom DbWorld.toWorld p) :=
  hp.zoom (fun _ _ h => h.world) fun _ _ _ _ h hab => h.set hab

theorem tracks_paired_call {k : DbCall} {code : ℕ} {g : World → World}
    (hg : ∀ w, g (w.cached u) = (g w).cached u) :
    Tracks (Paired True u) (DbWorld.call k code g) := by
  intro s t h
  unfold DbWorld.call
  rw [run_step, run_step, h.callResult]
  cases s.callResult code with
  | error e => rfl
  | ok x => exact ⟨rfl, h.afterCall hg⟩

theorem tracks_paired_delete (r : DbRecord) :
    Tracks (Paired True u) (DbWorld.tryCall 22 fun d =>
      { d with world := d.world.withDb (d.world.db.del r) }) := by
  refine tracks_attempt fun s t h => ?_
  rw [h.faults]
  split
  · exact .inl ⟨_, rfl, rfl⟩
  · refine .inr ⟨_, _, _, rfl, rfl, ?_, h.calls, rfl, h.opened⟩
    dsimp only
    rw [h.world]
    rfl

theorem tracks_paired_authDbAdd (username hostname : CStr) :
    Tracks (Paired True u) (DbWorld.authDbAdd username hostname) := by
  refine (tracks_paired_zoom (tracks_cached_read fun s => rfl)).bind fun now => ?_
  exact (tracks_paired_call fun w => rfl).bind fun _ => tracks_paired_call fun w => rfl

theorem tracks_paired_authDbSweep (data : DbRecord → ℤ) (now max : ℤ) (l : List DbRecord) :
    Tracks (Paired True u) (DbWorld.authDbSweep data now max l) := by
  induction l with
  | nil => exact tracks_pure ()
  | cons r l ih =>
    unfold DbWorld.authDbSweep
    exact tracks_ite ((tracks_paired_delete r).bind fun _ => ih) ih

theorem tracks_paired_authDbClean (data : DbRecord → ℤ) :
    Tracks (Paired True u) (DbWorld.authDbClean data) := by
  refine (tracks_paired_zoom (tracks_cached_read fun s => rfl)).bind fun now => ?_
  refine (tracks_paired_zoom (tracks_cached_attempt fun s => ?_)).bind fun max => ?_
  · rw [conffileParamInt_cached]
    cases s.conffileParamInt (cstr "timeout") <;> rfl
  refine (tracks_paired_call fun w => rfl).bind fun _ => ?_
  refine (tracks_paired_zoom (tracks_cached_read fun s => rfl)).bind fun records => ?_
  exact tracks_paired_authDbSweep data now max records

/-- The first daemon runs with this expression and this period, in database mode or not. -/
structure Mixed (withDb : Bool) (lib : RegexLib) (fn m : CStr) (flush : ℤ) (inDb : Prop)
    (u : World) (s t : DbWorld) : Prop where
  running : s.world.Running lib fn m flush
  mode : DbMode withDb s.world.conffileParam ↔ inDb
  paired : Paired inDb u s t

/-- Setting the alarm is the only use of the period. -/
theorem setAlarm_cached (hw : w.Running lib fn m flush₁) (ha : u.tables.authAlarm = flush₂)
    (hflush : flush₁ % uintRange = flush₂ % uintRange) :
    (w.cached u).setAlarm (w.cached u).tables.authAlarm =
      (w.setAlarm w.tables.authAlarm).cached u := by
  simp only [World.setAlarm, World.cached, hw.authAlarm, ha, hflush]

theorem Kept.mixed {a b : DbWorld} (hk : Kept withDb lib fn m flush s a)
    (hs : Mixed withDb lib fn m flush inDb u s t) (hp : Paired inDb u a b) :
    Mixed withDb lib fn m flush inDb u a b := by
  refine ⟨hk.holding.1, ?_, hp⟩
  have hlook : a.world.conffileParam = s.world.conffileParam :=
    World.conffileParam_congr hk.holding.2.1
  rw [hlook]
  exact hs.mode

namespace Mixed

theorem set (hs : Mixed withDb lib fn m flush inDb u s t) {a b : World}
    (ha : a.Running lib fn m flush) (hc : a.conf = s.world.conf) (hab : b = a.cached u) :
    Mixed withDb lib fn m flush inDb u (DbWorld.toWorld.set s a) (DbWorld.toWorld.set t b) :=
  (Kept.set ha hc).mixed hs (hs.paired.set hab)

theorem atClock (hs : Mixed withDb lib fn m flush inDb u s t) (now : ℤ) :
    Mixed withDb lib fn m flush inDb u (DbWorld.toWorld.set s (s.world.atClock now))
      (DbWorld.toWorld.set t (t.world.atClock now)) := by
  refine hs.set (hs.running.of_same rfl rfl rfl hs.running.wellFormed) rfl ?_
  rw [hs.paired.world]
  rfl

theorem byBackend (hs : Mixed withDb lib fn m flush inDb u s t)
    (hdb : Tracks (Paired True u) db) (htext : Tracks (fun s t => t = s.cached u) text) :
    ((byBackend withDb db text).run s).Agree (Paired inDb u)
      ((ExactDaemon.byBackend withDb db text).run t) := by
  have hlook : t.world.conffileParam = s.world.conffileParam := by
    rw [hs.paired.world]
    rfl
  by_cases hmode : DbMode withDb s.world.conffileParam
  · have hin := hs.mode.mp hmode
    rw [run_byBackend_of_dbMode hmode, run_byBackend_of_dbMode (hlook ▸ hmode)]
    have hpaired : Paired True u s t :=
      ⟨hs.paired.world, hs.paired.calls, hs.paired.faults, fun _ => hs.paired.opened hin⟩
    exact (hdb s t hpaired).mono fun _ _ h =>
      ⟨h.world, h.calls, h.faults, fun _ => h.opened trivial⟩
  · obtain ⟨v, hv, -⟩ := hs.running.accepted.authtype
    rw [run_byBackend_of_not_dbMode ⟨v, hv⟩ hmode,
      run_byBackend_of_not_dbMode ⟨v, hlook ▸ hv⟩ (hlook ▸ hmode)]
    exact tracks_paired_zoom htext s t hs.paired

theorem logLine (hs : Mixed withDb lib fn m₁ flush inDb u s t)
    (hp : u.patbuf = lib.regcomp m₂ true)
    (ha : groupTexts lib m₁ buff = groupTexts lib m₂ buff) :
    ((logLine withDb lib libc buff).run s).Agree (Mixed withDb lib fn m₁ flush inDb u)
      ((ExactDaemon.logLine withDb lib libc buff).run t) := by
  refine (Outcome.Agree.and ?_ fun l a hr => Kept.logLine hs.running hr).mono fun a b h =>
    h.1.mixed hs h.2
  obtain ⟨order, ho, -⟩ := hs.running.accepted.order
  have hps : t.world.patbuf = lib.regcomp m₂ true := by
    rw [hs.paired.world]
    exact hp
  have hot : t.world.conffileParam (cstr "order") = some order := by
    rw [hs.paired.world]
    exact ho
  unfold ExactDaemon.logLine
  rw [run_bind, run_bind, run_zoom, run_zoom,
    show DbWorld.toWorld.get s = s.world from rfl, show DbWorld.toWorld.get t = t.world from rfl,
    run_matchLine_texts hs.running.patbuf ho, run_matchLine_texts hps hot, ha]
  cases groupTexts lib m₂ buff with
  | error e => rfl
  | ok x =>
    have hset : Mixed withDb lib fn m₁ flush inDb u (DbWorld.toWorld.set s s.world)
        (DbWorld.toWorld.set t t.world) := hs.set hs.running rfl hs.paired.world
    change Outcome.Agree _ ((authorise withDb libc _ >>= fun _ => _).run _)
      ((authorise withDb libc _ >>= fun _ => _).run _)
    rw [run_bind, run_bind]
    refine Outcome.Agree.bind (R := Paired inDb u) ?_ fun a s' t' h => ⟨rfl, h⟩
    cases x with
    | none => exact ⟨rfl, hset.paired⟩
    | some x =>
      exact hset.byBackend (tracks_paired_authDbAdd _ _) (tracks_cached_authTextAdd _ _)

theorem call {x : Work} (libc : Libc) (hs : Mixed withDb lib fn m₁ flush₁ inDb u s t)
    (hp : u.patbuf = lib.regcomp m₂ true) (ha : u.tables.authAlarm = flush₂)
    (hline : ∀ buff, 0 ∉ buff → groupTexts lib m₁ buff = groupTexts lib m₂ buff)
    (hflush : flush₁ % uintRange = flush₂ % uintRange) (hx : x.Proper) :
    ((x.call withDb lib libc).run s).Agree (Mixed withDb lib fn m₁ flush₁ inDb u)
      ((x.call withDb lib libc).run t) := by
  cases x with
  | line now buff =>
    rw [Work.call, run_atClock, run_atClock]
    exact (hs.atClock now).logLine hp (hline buff hx)
  | clean now data =>
    refine (Outcome.Agree.and ?_ fun l a hr => Kept.call hs.running hr).mono fun a b h =>
      h.1.mixed hs h.2
    rw [Work.call, run_atClock, run_atClock, run_bind, run_bind]
    refine Outcome.Agree.bind (R := Paired inDb u) ?_ fun a s' t' h => ⟨rfl, h⟩
    have hs' := hs.atClock now
    unfold DbWorld.authClean
    rw [run_bind, run_bind]
    have hclean := (hs'.byBackend (tracks_paired_authDbClean data) tracks_cached_authTextClean).and
      fun a s₁ hr => Kept.byBackend hs'.running (fun _ _ => keeps_holding_authDbClean data)
        creating_authTextClean (fun w hw => hs'.running.of_clean hw) hr
    refine hclean.bind fun a s₁ t₁ h => ⟨rfl, h.2.set ?_⟩
    change t₁.world.setAlarm t₁.world.tables.authAlarm = _
    rw [h.2.world]
    exact setAlarm_cached h.1.holding.1 ha hflush
  | permit writable =>
    have hw := hs.running.of_same (t := s.world.permit writable) rfl rfl rfl hs.running.wellFormed
    refine ⟨rfl, hs.set hw rfl ?_⟩
    change World.permit writable t.world = _
    rw [hs.paired.world]
    rfl
  | faults l => exact ⟨rfl, hs.running, hs.mode, hs.paired.world, hs.paired.calls, rfl,
      hs.paired.opened⟩

/-- What is reported is the same if the databases, where there are any, are. -/
theorem report {x : Work} (hs : Mixed withDb lib fn m₁ flush₁ inDb u s t)
    (hp : u.patbuf = lib.regcomp m₂ true) (ha : u.tables.authAlarm = flush₂)
    (hline : ∀ buff, 0 ∉ buff → groupTexts lib m₁ buff = groupTexts lib m₂ buff)
    (hflush : flush₁ % uintRange = flush₂ % uintRange) (hfile : inDb → f = g) (hx : x.Proper) :
    ((x.report withDb lib libc f).run s).Agree (Mixed withDb lib fn m₁ flush₁ inDb u)
      ((x.report withDb lib libc g).run t) := by
  have hcall := (hs.call libc hp ha hline hflush hx).and fun l a hr =>
    Kept.call hs.running hr
  unfold Work.report
  rw [run_bind, run_bind, run_read, run_read, Outcome.bind_done, Outcome.bind_done, run_bind,
    run_bind]
  refine hcall.bind fun l a b hab => ⟨?_, hab.2⟩
  dsimp only
  rw [hab.2.paired.calls, hs.paired.calls]
  by_cases hin : inDb
  · rw [hfile hin]
  · rw [hab.1.calls (fun hmode => hin (hs.mode.mp hmode)), List.drop_length]
    rfl

theorem works {xs : List Work} (hs : Mixed withDb lib fn m₁ flush₁ inDb u s t)
    (hp : u.patbuf = lib.regcomp m₂ true) (ha : u.tables.authAlarm = flush₂)
    (hline : ∀ buff, 0 ∉ buff → groupTexts lib m₁ buff = groupTexts lib m₂ buff)
    (hflush : flush₁ % uintRange = flush₂ % uintRange) (hfile : inDb → f = g)
    (hxs : ∀ x ∈ xs, x.Proper) :
    ((works withDb lib libc f xs).run s).Agree (Mixed withDb lib fn m₁ flush₁ inDb u)
      ((ExactDaemon.works withDb lib libc g xs).run t) := by
  induction xs generalizing s t with
  | nil => exact ⟨rfl, hs⟩
  | cons x xs ih =>
    obtain ⟨hx, hxs⟩ := List.forall_mem_cons.mp hxs
    unfold ExactDaemon.works
    rw [run_bind, run_bind]
    refine (hs.report hp ha hline hflush hfile hx).bind fun r a b hab => ?_
    rw [run_bind, run_bind]
    exact (ih hab hxs).bind fun rs a' b' h => ⟨rfl, h⟩

end Mixed

/-! ### Where they differ -/

/-- Every file can be written from now on, and the library does not fail. -/
def DbWorld.ready (d : DbWorld) : DbWorld :=
  { DbWorld.toWorld.set d (d.world.permit fun _ => true) with faults := [] }

/-- A daemon that has what it needs for its work, every file to write to, and a library that
does not fail. -/
structure Able (withDb : Bool) (lib : RegexLib) (fn m : CStr) (flush : ℤ) (d : DbWorld) : Prop where
  running : d.world.Running lib fn m flush
  opened : DbMode withDb d.world.conffileParam → d.handle = .opened
  authtemp : ¬ DbMode withDb d.world.conffileParam →
    ∃ tmp, d.world.conffileParam (cstr "authtemp") = some tmp
  writable : d.world.fs.writable = fun _ => true
  faults : d.faults = []

namespace Able

theorem atClock (ha : Able withDb lib fn m flush d) (now : ℤ) :
    Able withDb lib fn m flush (DbWorld.toWorld.set d (d.world.atClock now)) :=
  ⟨ha.running.of_same rfl rfl rfl ha.running.wellFormed, ha.opened, ha.authtemp, ha.writable,
    ha.faults⟩

/-- A daemon that keeps a relay file can publish. -/
theorem ready (ha : Able withDb lib fn m flush d)
    (hmode : ¬ DbMode withDb d.world.conffileParam) :
    ∃ tmp file timeout, d.world.Ready tmp file timeout := by
  obtain ⟨tmp, htmp⟩ := ha.authtemp hmode
  obtain ⟨file, hfile⟩ := ha.running.accepted.required (cstr "authfile") (by decide)
  obtain ⟨timeout, htimeout, -⟩ :=
    ha.running.accepted.conffileParamInt (show cstr "timeout" ∈ requiredI by decide)
  exact ⟨tmp, file, timeout, ⟨htmp, hfile, congrFun ha.writable tmp⟩, htimeout,
    ha.running.wellFormed⟩

end Able

section Whole

variable {c₁ c₂ : Config} {u₁ u₂ v : DbWorld} {xs : List Life} {faults₁ faults₂ : List Bool}

end Whole

/-! ### Two configurations -/

/-- A configuration with this backend and this timeout, and one stanza. -/
def typedStanza (authtype timeout order pattern : CStr) : Config where
  conf := cstr "serverdefs d\nserver s\npidfile p\nmaillog m\nauthfile a\nauthtemp t\n" ++
    cstr "dumpfile u\nauthtype " ++ authtype ++
    cstr "\nlogging syslog\nflush 9\nsuspicious 9\ntimeout " ++ timeout ++ [10]
  serverdefs := cstr "d"
  defs := cstr "<server s>\norder " ++ order ++ cstr "\nmatch " ++ pattern ++
    cstr "\n</server>\n"

/-- With the text backend. -/
def oneStanza (timeout order pattern : CStr) : Config :=
  typedStanza (cstr "text") timeout order pattern

end ExactDaemon
