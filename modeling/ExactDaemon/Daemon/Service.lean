import ExactDaemon.Auth.Authorised
import ExactDaemon.Conf.Restart
import ExactDaemon.Daemon.Confined
import ExactDaemon.Lib.Machine
import ExactDaemon.Match.OnePass

/-! # The relay file and the mail log

Between two passes of the main loop, and after every alarm, the relay file lists the hosts
whose leases are still held according to the log: each line that the expression matches grants
one, and each alarm drops those that have expired.
-/

namespace ExactDaemon

open Prog

/-- The parameters that the service depends on. -/
structure Setting where
  maillog : CStr
  authtemp : CStr
  authfile : CStr
  order : CStr
  pattern : CStr
  suspicious : ℤ
  timeout : ℤ
  flush : ℤ

/-! ### What the log says -/

/-- The login that a line reports. -/
def loginOf (lib : RegexLib) (S : Setting) (buff : CStr) : Option MatchLogin :=
  match groupTexts lib S.pattern buff with
  | .ok x => x.map (MatchLogin.ofTexts S.order)
  | .error _ => none

/-- The daemon can deal with the line: what it captures fits, and the matching itself does not
fail. -/
def Legible (lib : RegexLib) (S : Setting) (buff : CStr) : Prop :=
  ∃ x, groupTexts lib S.pattern buff = .ok x

def MatchLogin.event (l : MatchLogin) : AuthEvent := .add l.username l.hostname

/-- The logins that the lines report, as events at this clock. -/
def loginEvents (lib : RegexLib) (S : Setting) (c : ℤ) (ls : List CStr) : List (ℤ × AuthEvent) :=
  (ls.filterMap (loginOf lib S)).map fun l => (c, l.event)

/-- A pass of the main loop after others have appended to the log, or an alarm. -/
inductive Round where
  | pass (ms : List LogMove)
  | alarm

/-- The time that passes while others are at the log. -/
def ticks (ms : List LogMove) : ℤ := (ms.map LogMove.ticks).sum

namespace Round

/-- The clock after the round. -/
def clock (c : ℤ) : Round → ℤ
  | pass ms => c + ticks ms
  | alarm => c

/-- What the round appends to the log. -/
def bytes : Round → Bytes
  | pass ms => appended ms
  | alarm => []

/-- What happens in the round, when it begins at this clock and the last line of the log has been
begun with `b`: a line reports its login when its end is written. -/
def events (lib : RegexLib) (S : Setting) (c : ℤ) (b : Bytes) : Round → List (ℤ × AuthEvent)
  | pass ms => loginEvents lib S (c + ticks ms) (lines isStop (b ++ appended ms))
  | alarm => [(c, .clean)]

/-- What happens in these rounds. -/
def history (lib : RegexLib) (S : Setting) : ℤ → Bytes → List Round → List (ℤ × AuthEvent)
  | _, _, [] => []
  | c, b, r :: rs =>
    r.events lib S c b ++ history lib S (r.clock c) (rest isStop (b ++ r.bytes)) rs

end Round

/-! ### The daemon at work -/

/-- The names that the configuration gives the daemon's own files. -/
def Conf.Names (cf : Conf) (x : CStr) : Prop := ∃ p ∈ cf.param, p.name ∈ fileNames ∧ p.value = x

/-- The files under other names are as they are. -/
def World.domain (w : World) : Domain where
  own := w.conf.Names
  filename := w.conf.filename
  kept := (· = w.fs.outside w.conf.Names)

/-- The tables and the relay file are those of this history. -/
structure World.Authorising (lib : RegexLib) (S : Setting) (fn : CStr)
    (es : List (ℤ × AuthEvent)) (w : World) : Prop where
  reached : Reached S.authtemp S.authfile S.timeout es w
  running : w.Running lib fn S.pattern S.flush
  order : w.conffileParam (cstr "order") = some S.order
  divided : w.fs.Divided w.conf.Names
  apart : ¬ w.conf.Names S.maillog

/-- And all of the log has been read. -/
structure World.Serving (lib : RegexLib) (S : Setting) (fn : CStr) (j : ℕ)
    (es : List (ℤ × AuthEvent)) (w : World) : Prop extends w.Authorising lib S fn es where
  following : ∃ bs, w.Following S.maillog S.suspicious j bs.length bs

variable {lib : RegexLib} {libc : Libc} {S : Setting} {fn : CStr} {j i p : ℕ} {s t w : World}
  {es : List (ℤ × AuthEvent)} {ms : List LogMove} {bs : Bytes} {log l : CStr} {suspicious c : ℤ}

theorem World.keeping_domain (h : w.fs.Divided w.conf.Names) : w.Keeping w.domain :=
  ⟨h, fun p hp hn => ⟨p, hp, hn, rfl⟩, rfl, rfl⟩

/-- Who writes own files only does not get in the way of following the log. -/
theorem World.Following.of_rely (h : s.Following log suspicious i p bs)
    (hlog : ¬ s.conf.Names log) (hr : s.Rely s.domain t) (hconf : t.conf = s.conf)
    (hclock : t.clock = s.clock) : t.Following log suspicious i p bs := by
  obtain ⟨⟨fd, ho⟩, hb, hi, hd⟩ := h
  have hout := congrFun (show t.fs.outside _ = s.fs.outside _ from hr.keeping.kept) ⟨log, hlog⟩
  have hdir : s.fs.dir log = some i := ho.named.1
  obtain ⟨k, hk, hkd⟩ : ∃ k, t.fs.dir log = some k ∧ (k, t.fs.data k) = (i, s.fs.data i) := by
    simpa [Fs.outside, hdir] using hout
  obtain ⟨rfl, hdata⟩ := Prod.mk.inj hkd
  have hparam : t.conffileParam = s.conffileParam :=
    World.conffileParam_congr hconf
  refine ⟨⟨fd, (congrFun hparam _).trans ho.maillog, ?_, hr.tail ▸ ho.f, ?_,
    ho.fd_lt.trans_le hr.others.nextFd, (hr.others.stream fd ho.fd_lt).trans ho.stream, ?_, hk,
    rfl⟩, hr.tail ▸ hb, hr.keeping.divided.wellFormed log _ hk, hdata.trans hd⟩
  · rw [World.conffileParamInt, hparam]
    exact ho.suspicious
  · rw [hr.tail, hclock]
    exact ho.last_le
  · exact (congrArg List.length hdata).symm ▸ ho.le_length

/-! ### One call -/

theorem AuthEvent.keeps_conf (libc : Libc) (e : AuthEvent) (cf : Conf) :
    Keeps (fun w : World => w.conf = cf) (e.call libc) := by
  have hF : ∀ s t : World, s.OnlyFiles t → s.Creates relayNames t → s.conf = cf → t.conf = cf :=
    fun _ _ h _ hs => h.conf.trans hs
  cases e with
  | add user host => exact keeps_authTextAdd (fun _ _ h => h) hF libc user host
  | clean => exact keeps_authTextClean (fun _ _ h => h) hF

theorem AuthEvent.confines_call (D : Domain) (libc : Libc) (e : AuthEvent) :
    Confines id D (e.call libc) := by
  cases e with
  | add user host => exact confines_authTextAdd libc user host
  | clean => exact confines_authTextClean

theorem World.Running.of_event {m : CStr} {flush : ℤ} {e : AuthEvent}
    (h : s.Running lib fn m flush) (hf : e.Fits) (hr : (e.call libc).run s = .done () t) :
    t.Running lib fn m flush := by
  cases e with
  | add user host =>
    have hadd : (authTextAdd libc user host).run s = .done () t := hr
    exact h.of_add hf hadd
  | clean => exact h.of_clean hr

theorem Reached.of_called {tmp file : CStr} {timeout : ℤ} {e : AuthEvent}
    (h : Reached tmp file timeout es s) (hc : Called s tmp file timeout e t) :
    Reached tmp file timeout (es ++ [(s.clock, e)]) t := by
  refine ⟨hc.ready, ?_, hc.synced h.synced⟩
  rw [hc.map, leases_append]
  exact (congrArg (fun m => Lease.step timeout m (s.clock, e.lease)) h.map).trans
    Lease.after_concat.symm

/-- A login or a cleaning becomes part of the history. -/
theorem World.Serving.run_call (h : s.Serving lib S fn j es) (libc : Libc) {e : AuthEvent}
    (hf : e.Fits) : ∃ t, (e.call libc).run s = .done () t ∧ t.tail = s.tail ∧ t.clock = s.clock ∧
      t.Serving lib S fn j (es ++ [(s.clock, e)]) := by
  obtain ⟨t, ht, hcalled⟩ := ExactDaemon.run_call libc h.reached.ready hf
  have hconf : t.conf = s.conf := (e.keeps_conf libc s.conf).run_done rfl ht
  have hrely := (e.confines_call s.domain libc).run_done (World.keeping_domain h.divided) ht
  obtain ⟨bs, hbs⟩ := h.following
  refine ⟨t, ht, hrely.tail, hcalled.clock, ⟨h.reached.of_called hcalled,
    h.running.of_event hf ht, ?_, ?_, hconf ▸ h.apart⟩, bs,
    hbs.of_rely h.apart hrely hconf hcalled.clock⟩
  · rw [World.conffileParam_congr hconf]
    exact h.order
  · rw [hconf]
    exact hrely.keeping.divided

/-! ### A line -/

theorem loginOf_of_groupTexts {x : Option (CStr × CStr)} (h : groupTexts lib S.pattern l = .ok x) :
    loginOf lib S l = x.map (MatchLogin.ofTexts S.order) := by
  rw [loginOf, h]

theorem loginEvents_concat (c : ℤ) (ls : List CStr) (l : CStr) :
    loginEvents lib S c (ls ++ [l]) = loginEvents lib S c ls ++
      ((loginOf lib S l).map fun l => (c, l.event)).toList := by
  unfold loginEvents
  rw [List.filterMap_append, List.map_append]
  cases h : loginOf lib S l <;> simp [h]

/-- A line that can be dealt with is, and what it reports becomes part of the history. -/
theorem World.Serving.run_handLine (h : s.Serving lib S fn j es) (libc : Libc) {l : CStr}
    (hl : Legible lib S l) : ∃ t, (handLine lib libc l).run s = .done () t ∧ t.tail = s.tail ∧
      t.clock = s.clock ∧
      t.Serving lib S fn j (es ++ ((loginOf lib S l).map fun l => (s.clock, l.event)).toList) := by
  obtain ⟨x, hx⟩ := hl
  have hmatch : (matchLine lib l).run s = _ := run_matchLine_texts h.running.patbuf h.order
  rw [hx] at hmatch
  rw [loginOf_of_groupTexts hx, handLine, run_bind, hmatch]
  cases x with
  | none => exact ⟨s, rfl, rfl, rfl, by simpa using h⟩
  | some y =>
    obtain ⟨t, ht, hrest⟩ := h.run_call libc (e := (MatchLogin.ofTexts S.order y).event)
      (groupTexts_length hx S.order)
    exact ⟨t, ht, hrest⟩

/-! ### A pass -/

/-- What others have appended, and the time that has passed. -/
structure World.Appended (s t : World) (i : ℕ) (ms : List LogMove) : Prop where
  dir : t.fs.dir = s.fs.dir
  nextIno : t.fs.nextIno = s.fs.nextIno
  data : ∀ k, k ≠ i → t.fs.data k = s.fs.data k
  clock : t.clock = s.clock + ticks ms

theorem appended_move {m : LogMove} (hd : s.fs.dir log = some i) (hm : m.Grows) :
    s.Appended (s.others log m) i [m] := by
  have hticks : ticks [m] = m.ticks := rfl
  cases m with
  | append bs =>
    have hmove : s.disk.move log (.append bs) =
        { s.disk with data := Function.update s.disk.data i (s.disk.data i ++ bs) } :=
      Disk.move_append_some hd
    refine ⟨?_, ?_, fun k hk => ?_, by rw [hticks]; rfl⟩
    · exact congrArg Disk.dir hmove
    · exact congrArg Disk.nextIno hmove
    · exact (congrFun (congrArg Disk.data hmove) k).trans (Function.update_of_ne hk _ _)
  | tick n => exact ⟨rfl, rfl, fun _ _ => rfl, by rw [hticks]; rfl⟩
  | rotate away => exact hm.elim
  | create => exact hm.elim

theorem appended_others (hd : s.fs.dir log = some i) (hg : ∀ m ∈ ms, m.Grows)
    (h : (others log ms).run s = .done () t) : s.Appended t i ms := by
  induction ms generalizing s with
  | nil =>
    cases h
    exact ⟨rfl, rfl, fun _ _ => rfl, (add_zero _).symm⟩
  | cons m ms ih =>
    obtain ⟨_, u, hu, hrest⟩ := done_of_bind h
    cases hu
    have hmove := appended_move hd (hg m List.mem_cons_self)
    have hnext := ih (hmove.dir ▸ hd) (fun m' hm' => hg m' (List.mem_cons_of_mem _ hm')) hrest
    refine ⟨hnext.dir.trans hmove.dir, hnext.nextIno.trans hmove.nextIno,
      fun k hk => (hnext.data k hk).trans (hmove.data k hk), ?_⟩
    rw [hnext.clock, hmove.clock, add_assoc]
    simp [ticks]

/-- A poll of a log that is read to its end. -/
theorem World.Following.run_poll (h : s.Following log suspicious i bs.length bs)
    (h0 : 0 ≤ suspicious) (hg : ∀ m ∈ ms, m.Grows) (hfew : (appended ms).length + 1 < uintRange) :
    ∃ t u, (ExactDaemon.others log ms).run s = .done () t ∧ tailRead.run t = .done () u ∧
      s.Appended u i ms ∧ Loaded (appended ms) u.tail ∧
      u.Following log suspicious i (bs ++ appended ms).length (bs ++ appended ms) := by
  obtain ⟨fd, ho⟩ := h.opened
  obtain ⟨t, ht, hft⟩ := h.run_others hg
  obtain ⟨u, hu, hread, -⟩ := hft.run_tailRead fun _ => by
    rw [List.length_append]
    exact Nat.add_lt_add_left hfew bs.length
  obtain ⟨hfu, hloaded⟩ := hread h0
  rw [List.drop_left' rfl] at hloaded
  obtain ⟨⟨fd', ho'⟩, hb', hi', hd'⟩ := hft
  have hfollows := ho'.follows hi' hb' (fun _ _ _ => True) trivial
  obtain ⟨u', hu', hdisk, hclock, -⟩ := hfollows.run_tailRead fun k q hk => by
    obtain ⟨rfl, rfl⟩ := Prod.mk.inj (Option.some.inj (ho'.cur.symm.trans hk))
    rw [hd', List.length_append]
    exact Nat.add_lt_add_left hfew bs.length
  obtain rfl : u' = u := (Outcome.done.inj (hu'.symm.trans hu)).2
  have happ := appended_others ho.named.1 hg ht
  exact ⟨t, u', ht, hu, ⟨(congrArg Disk.dir hdisk).trans happ.dir,
    (congrArg Disk.nextIno hdisk).trans happ.nextIno,
    fun k hk => (congrFun (congrArg Disk.data hdisk) k).trans (happ.data k hk),
    hclock.trans happ.clock⟩, hloaded, hfu⟩

/-- What is appended to the log is not in the relay file. -/
theorem World.Appended.contents {x : CStr} (h : s.Appended t i ms) (hd : s.fs.Divided s.conf.Names)
    (hlog : ¬ s.conf.Names log) (hi : s.fs.dir log = some i) (hx : s.conf.Names x) :
    t.fs.contents x = s.fs.contents x := by
  unfold Fs.contents
  rw [h.dir]
  cases hdx : s.fs.dir x with
  | none => rfl
  | some k =>
    have hne : k ≠ i := by
      rintro rfl
      exact hd.apart x k hx hdx ⟨log, hlog, hi⟩
    exact congrArg some (h.data k hne)

theorem Conf.names_of_param {name x : CStr} (hn : name ∈ fileNames)
    (hx : w.conffileParam name = some x) : w.conf.Names x := by
  obtain ⟨q, hq, rfl⟩ := Option.map_eq_some_iff.mp hx
  have hcmp := List.find?_some hq
  have hname : name = q.name := strcmp_eq_zero.mp (of_decide_eq_true hcmp)
  exact ⟨q, List.mem_of_find?_eq_some hq, hname ▸ hn, rfl⟩

/-- What changes neither the tables nor the relay file. -/
theorem World.Authorising.of_same (h : s.Authorising lib S fn es) (hconf : t.conf = s.conf)
    (htables : t.tables = s.tables) (hpatbuf : t.patbuf = s.patbuf)
    (hwritable : t.fs.writable = s.fs.writable)
    (hcontents : t.fs.contents S.authfile = s.fs.contents S.authfile)
    (hdivided : t.fs.Divided s.conf.Names) : t.Authorising lib S fn es := by
  have hparam : t.conffileParam = s.conffileParam :=
    World.conffileParam_congr hconf
  obtain ⟨⟨hpub, htimeout, hwf⟩, hmap, hsynced⟩ := h.reached
  refine ⟨⟨⟨⟨?_, ?_, ?_⟩, ?_, htables ▸ hwf⟩, ?_, ?_⟩, ?_, ?_, hconf ▸ hdivided, hconf ▸ h.apart⟩
  · exact (congrFun hparam _).trans hpub.authtemp
  · exact (congrFun hparam _).trans hpub.authfile
  · rw [hwritable, hpub.writable]
  · rw [World.conffileParamInt, hparam]
    exact htimeout
  · rw [htables, hmap]
  · rw [World.Synced, hcontents, htables]
    exact hsynced
  · exact h.running.of_same hpatbuf hconf (by rw [htables]) (htables ▸ hwf)
  · exact (congrFun hparam _).trans h.order

/-- Reading the log is not part of the history. -/
theorem World.Serving.run_poll (h : s.Serving lib S fn j es) (h0 : 0 ≤ S.suspicious)
    (hg : ∀ m ∈ ms, m.Grows) (hfew : (appended ms).length + 1 < uintRange) :
    ∃ t u, (ExactDaemon.others S.maillog ms).run s = .done () t ∧ tailRead.run t = .done () u ∧
      u.clock = s.clock + ticks ms ∧ Loaded (appended ms) u.tail ∧ u.Serving lib S fn j es := by
  obtain ⟨bs, hbs⟩ := h.following
  obtain ⟨fd, ho⟩ := hbs.opened
  obtain ⟨t, u, ht, hu, happ, hloaded, hfu⟩ := hbs.run_poll h0 hg hfew
  have hbeside : s.Beside u :=
    keeps_tailRead.run_done ((keeps_others ms).run_done (World.Beside.refl s) ht) hu
  have hfile : s.conf.Names S.authfile :=
    Conf.names_of_param (by simp [fileNames]) h.reached.ready.publishes.authfile
  exact ⟨t, u, ht, hu, happ.clock, hloaded, h.of_same hbeside.conf hbeside.tables hbeside.patbuf
    hbeside.writable (happ.contents h.divided h.apart ho.named.1 hfile)
    (h.divided.of_same happ.dir happ.nextIno.ge), _, hfu⟩

theorem World.Serving.endLine (h : s.Serving lib S fn j es) (i : ℕ) :
    (s.endLine i).Serving lib S fn j es := by
  obtain ⟨bs, hbs⟩ := h.following
  obtain ⟨b, hb, hne⟩ := hbs.buff
  have hset : (s.endLine i).Following S.maillog S.suspicious j bs.length bs :=
    hbs.onTail rfl hbs.last_le ⟨b.set i 0, by simp [hb], by simpa using hne⟩
  exact ⟨h.of_same rfl rfl rfl rfl rfl h.divided, bs, hset⟩

theorem consumes_handLine (libc : Libc) (c : ℤ) :
    Consumes (Legible lib S)
      (fun ls w => w.clock = c ∧ w.Serving lib S fn j (es ++ loginEvents lib S c ls))
      (handLine lib libc) where
  line ls l s := by
    rintro hl ⟨hc, hs⟩
    obtain ⟨t, ht, htail, hclock, hserving⟩ := hs.run_handLine libc hl
    refine ⟨t, ht, ⟨hclock.trans hc, ?_⟩, htail⟩
    rw [loginEvents_concat, ← List.append_assoc, ← hc]
    rwa [← hc] at hserving
  endLine ls s i := by
    rintro ⟨hc, hs⟩
    exact ⟨hc, hs.endLine i⟩

/-- A pass makes the logins of all new lines part of the history. -/
theorem World.Serving.run_pass (h : s.Serving lib S fn j es) (libc : Libc) (h0 : 0 ≤ S.suspicious)
    (hg : ∀ m ∈ ms, m.Grows) (hshort : ((appended ms).length : ℤ) ≤ intMax)
    (hl : ∀ l ∈ lines isStop (appended ms), Legible lib S l) :
    ∃ t, (ExactDaemon.others S.maillog ms >>= fun _ => onepass (handLine lib libc)).run s =
        .done (lines isStop (appended ms)) t ∧
      t.clock = s.clock + ticks ms ∧
      t.Serving lib S fn j
        (es ++ loginEvents lib S (s.clock + ticks ms) (lines isStop (appended ms))) := by
  have hfew : (appended ms).length + 1 < uintRange := by
    have : intMax + 1 < uintRange := by decide
    omega
  obtain ⟨t, u, ht, hu, hclock, hloaded, hserving⟩ := h.run_poll h0 hg hfew
  have hI : u.clock = s.clock + ticks ms ∧
      u.Serving lib S fn j (es ++ loginEvents lib S (s.clock + ticks ms) []) :=
    ⟨hclock, by simpa [loginEvents] using hserving⟩
  obtain ⟨v, hv, hvc, hvs⟩ := (consumes_handLine libc _).run_scanLines hI hl hloaded hshort
  refine ⟨v, ?_, hvc, hvs⟩
  rw [run_bind, ht, Outcome.bind_done, onepass, run_bind, hu, Outcome.bind_done, hv]

/-- A cleaning that the alarm brings about, after which the next one is set. -/
theorem World.Serving.run_alarm (h : s.Serving lib S fn j es) (libc : Libc) :
    ∃ t, authClean.run s = .done () t ∧ t.clock = s.clock ∧
      t.alarm = (S.flush % uintRange).toNat ∧ t.Serving lib S fn j (es ++ [(s.clock, .clean)]) := by
  obtain ⟨t, ht, -, hclock, hserving⟩ := h.run_call libc (e := .clean) trivial
  have hclean : authTextClean.run s = .done () t := ht
  refine ⟨t.setAlarm t.tables.authAlarm, ?_, hclock, ?_, ?_⟩
  · rw [authClean, run_bind, hclean]
    rfl
  · rw [hserving.running.authAlarm]
    rfl
  · obtain ⟨bs, ⟨fd, ho⟩, hb, hi, hd⟩ := hserving.following
    have ho' : (t.setAlarm t.tables.authAlarm).Open S.maillog S.suspicious j t.disk.nextIno fd
        bs.length := ⟨ho.1, ho.2, ho.3, ho.4, ho.5, ho.6, ho.7, ho.8⟩
    exact ⟨hserving.of_same rfl rfl rfl rfl rfl hserving.divided, bs, ⟨fd, ho'⟩, hb, hi, hd⟩

/-! ### One round after the other -/

/-- The daemon between two rounds, the clock at which its alarm is due, and what others have
written of a line that they have not ended. -/
structure Service where
  world : World
  due : ℤ
  begun : Bytes

def Service.step (lib : RegexLib) (libc : Libc) (log : CStr) (s : Service) :
    Round → Option Service
  | .pass ms => do
    let w ← ((others log ms >>= fun _ => onepass (handLine lib libc)).run s.world).returned
    some { s with world := w, begun := rest isStop (s.begun ++ appended ms) }
  | .alarm => do
    let w ← (authClean.run s.world).returned
    some ⟨w, w.clock + w.alarm, s.begun⟩

/-- The log only grows, by lines that the daemon can deal with, and a poll that finds the end of
a line finds its beginning. The alarm does not come early, and it is kept back for at most `δ`. -/
def Round.Fair (lib : RegexLib) (S : Setting) (δ : ℤ) (s : Service) : Round → Prop
  | .pass ms => (∀ m ∈ ms, m.Grows) ∧ ((appended ms).length : ℤ) ≤ intMax ∧
      (¬ Unbroken isStop (appended ms) → s.begun = []) ∧
      (∀ l ∈ lines isStop (appended ms), Legible lib S l) ∧
      s.world.clock + ticks ms ≤ s.due + δ
  | .alarm => s.due ≤ s.world.clock

/-- The daemon began at this clock and has served this history. -/
structure Service.Served (lib : RegexLib) (S : Setting) (fn : CStr) (j : ℕ) (δ began : ℤ)
    (es : List (ℤ × AuthEvent)) (s : Service) : Prop where
  serving : s.world.Serving lib S fn j es
  chronological : Lease.Chronological (leases es)
  since : ∀ e ∈ leases es, began ≤ e.1 ∧ e.1 ≤ s.world.clock
  began_le : began ≤ s.world.clock
  due : s.due = Lease.lastClean began (leases es) + S.flush
  begun : Unbroken isStop s.begun
  punctual : s.world.clock ≤ s.due + δ

variable {δ began : ℤ} {σ υ : Service} {r : Round} {rs : List Round}

/-- Events at one later clock. -/
theorem Lease.Chronological.append {es es' : List (ℤ × Lease.Event CStr)}
    (h : Lease.Chronological es) (hes : ∀ e ∈ es, e.1 ≤ c) (hes' : ∀ e ∈ es', e.1 = c) :
    Lease.Chronological (es ++ es') := by
  refine List.pairwise_append.mpr ⟨h, List.pairwise_of_forall_mem_list ?_, ?_⟩
  · intro a ha b hb
    exact ((hes' a ha).trans (hes' b hb).symm).le
  · intro a ha b hb
    exact (hes a ha).trans (hes' b hb).ge

theorem leases_loginEvents (lib : RegexLib) (S : Setting) (c : ℤ) (ls : List CStr) :
    ∀ e ∈ leases (loginEvents lib S c ls), e.1 = c ∧ Lease.IsAdd e = true := by
  intro e he
  obtain ⟨e', he', rfl⟩ := List.mem_map.mp he
  obtain ⟨l, -, rfl⟩ := List.mem_map.mp he'
  exact ⟨rfl, rfl⟩

namespace Service.Served

theorem step (h : σ.Served lib S fn j δ began es) (libc : Libc) (h0 : 0 ≤ S.suspicious)
    (hflush : 0 < S.flush ∧ S.flush < uintRange) (hδ : 0 ≤ δ) (hr : r.Fair lib S δ σ) :
    ∃ υ, σ.step lib libc S.maillog r = some υ ∧ υ.world.clock = r.clock σ.world.clock ∧
      υ.begun = rest isStop (σ.begun ++ r.bytes) ∧
      υ.Served lib S fn j δ began (es ++ r.events lib S σ.world.clock σ.begun) := by
  cases r with
  | pass ms =>
    obtain ⟨hg, hshort, hwhole, hl, hlate⟩ := hr
    obtain ⟨t, ht, hclock, hserving⟩ := h.serving.run_pass libc h0 hg hshort hl
    rw [(lines_append_eq_iff h.begun _).mpr hwhole] at hserving
    have hadds := leases_loginEvents lib S (σ.world.clock + ticks ms)
      (lines isStop (σ.begun ++ appended ms))
    have hpos : 0 ≤ ticks ms := Int.natCast_nonneg _
    refine ⟨⟨t, σ.due, rest isStop (σ.begun ++ appended ms)⟩, ?_, hclock, rfl, hserving, ?_, ?_,
      ?_, ?_, unbroken_rest _, ?_⟩
    · rw [Service.step, ht]
      rfl
    · rw [Round.events, leases_append]
      exact h.chronological.append (fun e he => ((h.since e he).2.trans (by omega)))
        fun e he => (hadds e he).1
    · rw [Round.events, leases_append]
      intro e he
      rcases List.mem_append.mp he with he | he
      · have := h.since e he
        exact ⟨this.1, by dsimp only; omega⟩
      · have := (hadds e he).1
        have := h.began_le
        dsimp only
        omega
    · have := h.began_le
      dsimp only
      omega
    · rw [Round.events, leases_append, Lease.lastClean_of_adds began fun e he => (hadds e he).2]
      exact h.due
    · dsimp only
      omega
  | alarm =>
    obtain ⟨t, ht, hclock, halarm, hserving⟩ := h.serving.run_alarm libc
    have hmod : ((S.flush % uintRange).toNat : ℤ) = S.flush := by
      rw [Int.emod_eq_of_lt hflush.1.le hflush.2, Int.toNat_of_nonneg hflush.1.le]
    have hbegan := h.began_le
    refine ⟨⟨t, t.clock + t.alarm, σ.begun⟩, ?_, hclock, ?_, hserving, ?_, ?_, ?_, ?_, h.begun,
      ?_⟩
    · rw [Service.step, ht]
      rfl
    · rw [Round.bytes, List.append_nil, rest_unbroken h.begun]
    · rw [Round.events, leases_append]
      exact h.chronological.append (fun e he => (h.since e he).2) (by simp [leases])
    · rw [Round.events, leases_append]
      intro e he
      rcases List.mem_append.mp he with he | he
      · have := h.since e he
        exact ⟨this.1, this.2.trans hclock.ge⟩
      · obtain rfl := List.mem_singleton.mp he
        exact ⟨hbegan, hclock.ge⟩
    · exact hbegan.trans hclock.ge
    · rw [Round.events, leases_append]
      change t.clock + (t.alarm : ℤ) = _
      rw [halarm, hmod, hclock]
      exact congrArg (· + S.flush) (Lease.lastClean_concat_clean began).symm
    · dsimp only
      rw [halarm, hmod]
      omega

/-- Whatever the rounds, as long as they are fair. -/
theorem run (h : σ.Served lib S fn j δ began es) (libc : Libc) (h0 : 0 ≤ S.suspicious)
    (hflush : 0 < S.flush ∧ S.flush < uintRange) (hδ : 0 ≤ δ)
    (hr : Run (Service.step lib libc S.maillog) (fun s r => r.Fair lib S δ s) σ rs υ) :
    υ.Served lib S fn j δ began (es ++ Round.history lib S σ.world.clock σ.begun rs) := by
  induction hr generalizing es with
  | nil => simpa [Round.history] using h
  | cons hok hstep _ ih =>
    obtain ⟨v, hv, hclock, hbegun, hserved⟩ := h.step libc h0 hflush hδ hok
    obtain rfl := Option.some.inj (hstep.symm.trans hv)
    have hrest := ih hserved
    rwa [hclock, hbegun, List.append_assoc] at hrest

end Service.Served

/-! ### From the start on -/

/-- The values that the configuration gives the parameters. -/
structure Setting.Of (S : Setting) (w : World) : Prop where
  maillog : w.conffileParam (cstr "maillog") = some S.maillog
  authtemp : w.conffileParam (cstr "authtemp") = some S.authtemp
  authfile : w.conffileParam (cstr "authfile") = some S.authfile
  order : w.conffileParam (cstr "order") = some S.order
  pattern : w.conffileParam (cstr "match") = some S.pattern
  suspicious : w.conffileParamInt (cstr "suspicious") = .ok S.suspicious
  timeout : w.conffileParamInt (cstr "timeout") = .ok S.timeout
  flush : w.conffileParamInt (cstr "flush") = .ok S.flush

theorem Setting.Of.of_conf (h : S.Of s) (hc : t.conf = s.conf) : S.Of t := by
  have hp : t.conffileParam = s.conffileParam :=
    World.conffileParam_congr hc
  constructor <;> simp only [World.conffileParamInt, hp]
  · exact h.maillog
  · exact h.authtemp
  · exact h.authfile
  · exact h.order
  · exact h.pattern
  · exact h.suspicious
  · exact h.timeout
  · exact h.flush

/-- The globals of auth.c and tail.c are as the program begins. -/
structure World.Initial (w : World) : Prop where
  blocks : w.tables.auth ≠ w.tables.shadowAuth
  authCur : w.tables.authCur = 0
  f : w.tail.f = none
  last_le : w.tail.last ≤ w.clock

theorem writable_of_authWriteText {tmp : CStr} (h : authWriteText.run s = .done () t)
    (htmp : s.conffileParam (cstr "authtemp") = some tmp) : s.fs.writable tmp = true := by
  obtain ⟨f, u, hu, hrest⟩ := done_of_bind h
  have hopen := attempt_done hu
  rw [htmp] at hopen
  simp only [World.fopenWrite, Fs.openWrite] at hopen
  cases hw : s.fs.writable tmp with
  | true => rfl
  | false =>
    rw [hw] at hopen
    cases hopen
    cases hrest

theorem confines_authInit_text (D : Domain) : Confines id D authInit := by
  have heq : authInit = authInitTables >>= fun _ => authWriteText := by
    simp only [authInit, authInitTables, LawfulMonad.bind_assoc]
  rw [heq]
  exact confines_authInitTables.bind fun _ => confines_authWriteText

/-- `tail_open` changes no file. -/
theorem keeps_tailOpen (s : World) :
    Keeps (fun w : World => s.Beside w ∧ w.disk = s.disk) tailOpen := by
  have hmodify : ∀ g : World → Tail → Tail, Keeps (fun w : World => s.Beside w ∧ w.disk = s.disk)
      (modify fun w => w.onTail (g w)) := fun g => keeps_act fun _ h => ⟨h.1.onTail _, h.2⟩
  refine Keeps.bind (keeps_attempt fun u f v h ho => ⟨h.1.openLog ho, ?_⟩) fun f =>
    (hmodify _).bind fun _ => (hmodify _).bind fun _ => ?_
  · unfold World.openLog at ho
    split at ho
    · cases ho
    · split at ho
      · cases ho
        exact h.2
      · next hr =>
        cases ho
        obtain ⟨k, -, hk⟩ := Option.map_eq_some_iff.mp hr
        cases hk
        exact h.2
  · cases f with
    | none => exact keeps_pure _
    | some fd =>
      refine Keeps.bind (keeps_act fun u h => ⟨h.1.fseek fd 0 .fromEnd, ?_⟩) fun _ =>
        (hmodify _).bind fun _ => keeps_pure _
      rw [World.fseek_fromEnd]
      exact h.2

theorem exists_dir_of_tailOpen (hm : s.conffileParam (cstr "maillog") = some log)
    (h : tailOpen.run s = .done true t) : ∃ j, s.fs.dir log = some j := by
  obtain ⟨f, u, hu, hrest⟩ := done_of_bind h
  cases hd : s.fs.dir log with
  | some j => exact ⟨j, rfl⟩
  | none =>
    have hopen := attempt_done hu
    rw [World.openLog_none hm hd] at hopen
    cases hopen
    cases hrest

/-- A start that returns has brought the daemon to `auth_init` with all that it needs. -/
theorem exists_booted_of_start (h : (start lib).run w = .done () t) (hS : S.Of t)
    (hw : w.Initial) : ∃ v, authInit.run v = .done () t ∧
      v.Booted S.authtemp S.authfile S.timeout ∧ v.Accepted ∧
      v.patbuf = lib.regcomp S.pattern true ∧ t.conf = v.conf ∧ t.tail = w.tail ∧
      t.clock = w.clock ∧ v.fs = w.fs ∧ v.conf.filename = w.conf.filename := by
  rw [start_eq] at h
  obtain ⟨_, u, hu, h₁⟩ := done_of_bind h
  obtain ⟨_, v, hv, h₂⟩ := done_of_bind h₁
  have hacc := accepted_of_readCheck hu
  have hc : w.OnlyConf u := keeps_readCheck.run_done (.refl _) hu
  obtain ⟨m, hm⟩ := hacc.pattern
  have hinit := attempt_done hv
  rw [hm] at hinit
  cases hinit
  obtain ⟨flush, hflush, -⟩ := hacc.conffileParamInt (show cstr "flush" ∈ requiredI by decide)
  have hflush' : World.conffileParamInt { u with patbuf := lib.regcomp m true } (cstr "flush") =
      .ok flush := hflush
  have hwrite := h₂
  rw [run_authInit_eq hflush'] at hwrite
  have honly := onlyFiles_authWriteText hwrite
  have hconf : t.conf = u.conf := honly.conf
  have hSu : S.Of u := hS.of_conf hconf.symm
  obtain rfl : m = S.pattern := Option.some.inj (hm.symm.trans hSu.pattern)
  have hwritable := writable_of_authWriteText hwrite hSu.authtemp
  unfold World.OnlyConf at hc
  refine ⟨_, h₂, ⟨⟨hSu.authtemp, hSu.authfile, hwritable⟩,
    hSu.timeout, ⟨flush, hflush⟩, ?_, ?_⟩, hacc.of_conf rfl, rfl, hconf, ?_, ?_, ?_, ?_⟩
  · rw [hc]
    exact hw.blocks
  · rw [hc]
    exact hw.authCur
  · rw [show t = _ from honly, hc]
    rfl
  · rw [show t = _ from honly, hc]
    rfl
  · rw [hc]
    rfl
  · rw [hc]
    rfl

/-- `auth_init` begins an empty history. -/
theorem running_of_booted {v : World} (libc : Libc) (h : authInit.run v = .done () t)
    (hb : v.Booted S.authtemp S.authfile S.timeout) (hacc : v.Accepted)
    (hpat : v.patbuf = lib.regcomp S.pattern true)
    (hflush : v.conffileParamInt (cstr "flush") = .ok S.flush) :
    Reached S.authtemp S.authfile S.timeout [] t ∧
      t.Running lib v.conf.filename S.pattern S.flush ∧
      t.alarm = (S.flush % uintRange).toNat := by
  obtain ⟨u, hu, hreached⟩ := run_server libc hb (List.forall_mem_nil _)
  have hinit : (server libc []).run v = .done () t := by
    rw [server, run_bind, h]
    rfl
  obtain rfl : u = t := (Outcome.done.inj (hu.symm.trans hinit)).2
  rw [run_authInit_eq hflush] at h
  have honly := onlyFiles_authWriteText h
  have hrunning : (v.initialised S.flush).Running lib v.conf.filename S.pattern S.flush :=
    ⟨hpat, rfl, (hb.initialised S.flush).wellFormed, hacc.of_conf rfl, rfl⟩
  exact ⟨hreached, hrunning.onlyFiles honly, honly.alarm⟩

/-- A successful start leaves a daemon that has served nothing yet. -/
theorem serving_of_start (libc : Libc)
    (h : (start lib >>= fun _ => tailOpen).run w = .done true t) (hS : S.Of t)
    (hw : w.Initial) (hd : w.fs.Divided t.conf.Names) (hlog : ¬ t.conf.Names S.maillog)
    (h0 : 0 ≤ S.suspicious) :
    ∃ j, t.Serving lib S w.conf.filename j [] ∧ t.alarm = (S.flush % uintRange).toNat := by
  obtain ⟨_, u, hu, hopen⟩ := done_of_bind h
  obtain ⟨hbeside, hdisk⟩ := (keeps_tailOpen u).run_done ⟨World.Beside.refl u, rfl⟩ hopen
  have hSu : S.Of u := hS.of_conf hbeside.conf.symm
  obtain ⟨v, hv, hbooted, hacc, hpat, hvconf, htail, hclock, hfs, hname⟩ :=
    exists_booted_of_start hu hSu hw
  have hflush : v.conffileParamInt (cstr "flush") = .ok S.flush :=
    (hSu.of_conf hvconf.symm).flush
  obtain ⟨hreached, hrunning, halarm⟩ := running_of_booted libc hv hbooted hacc hpat hflush
  have hnames : t.conf.Names = v.conf.Names := by rw [hbeside.conf, hvconf]
  have hrely := (confines_authInit_text v.domain).run_done
    (World.keeping_domain (by rwa [hfs, ← hnames])) hv
  obtain ⟨j, hj⟩ := exists_dir_of_tailOpen hSu.maillog hopen
  have hunopened : u.Unopened S.maillog S.suspicious j :=
    ⟨hSu.maillog, hSu.suspicious, htail ▸ hw.f, by rw [htail, hclock]; exact hw.last_le, hj,
      hrely.keeping.divided.wellFormed _ _ hj⟩
  obtain ⟨t', ht', ⟨p, bs, hf, hp⟩, -⟩ := polled_tailOpen hunopened
  obtain rfl : t' = t := (Outcome.done.inj (ht'.symm.trans hopen)).2
  have hdu : u.fs.Divided u.conf.Names := by
    rw [hvconf]
    exact hrely.keeping.divided
  have hauth : u.Authorising lib S w.conf.filename [] :=
    ⟨hreached, hname ▸ hrunning, hSu.order, hdu, by rwa [← hbeside.conf]⟩
  refine ⟨j, ⟨hauth.of_same hbeside.conf hbeside.tables hbeside.patbuf hbeside.writable ?_ ?_, bs,
    ?_⟩, hbeside.alarm.trans halarm⟩
  · exact congrArg (fun d : Disk => (d.dir S.authfile).map d.data) hdisk
  · exact hdu.of_same (congrArg Disk.dir hdisk) (congrArg Disk.nextIno hdisk).ge
  · exact hp h0 ▸ hf

/-- The daemon has started, and its log is none of its own files. -/
structure World.Starts (lib : RegexLib) (S : Setting) (w u : World) : Prop where
  started : (ExactDaemon.start lib >>= fun _ => tailOpen).run w = .done true u
  setting : S.Of u
  initial : w.Initial
  divided : w.fs.Divided u.conf.Names
  apart : ¬ u.conf.Names S.maillog

/-- The times are such that the log is read, and the alarm is set. -/
structure Setting.Usable (S : Setting) : Prop where
  suspicious : 0 ≤ S.suspicious
  flush_pos : 0 < S.flush
  flush_lt : S.flush < uintRange

/-- The daemon as it enters the main loop. -/
def Service.atStart (w : World) : Service := ⟨w, w.clock + w.alarm, []⟩

theorem Service.served_atStart {u : World} (libc : Libc) (h : w.Starts lib S u) (hS : S.Usable)
    (hδ : 0 ≤ δ) :
    ∃ j, (Service.atStart u).Served lib S w.conf.filename j δ u.clock [] := by
  obtain ⟨j, hserving, halarm⟩ :=
    serving_of_start libc h.started h.setting h.initial h.divided h.apart hS.suspicious
  have hpos := hS.flush_pos
  have hmod : (u.alarm : ℤ) = S.flush := by
    rw [halarm, Int.emod_eq_of_lt hpos.le hS.flush_lt, Int.toNat_of_nonneg hpos.le]
  refine ⟨j, hserving, List.Pairwise.nil, List.forall_mem_nil _, le_rfl, ?_, List.forall_mem_nil _,
    ?_⟩
  · exact congrArg (u.clock + ·) hmod
  · change u.clock ≤ u.clock + (u.alarm : ℤ) + δ
    omega

section Whole

variable {u : World}

end Whole

/-! ### A login -/

/-- What the small configuration with one stanza says. -/
def smallSetting : Setting where
  maillog := cstr "m"
  authtemp := cstr "t"
  authfile := cstr "a"
  order := uwImapOrder
  pattern := uwImapMatch
  suspicious := 9
  timeout := 60
  flush := 9

/-- The daemon starts, opens the log, and finds the values of the small setting. -/
def StartsServing (c : Config) : Prop :=
  (∀ x ∈ ownNames, (withLog c).fs.dir x = none) ∧
    ((start RegexLib.posix >>= fun _ => tailOpen).run (withLog c)).Returns fun opened u =>
      opened = true ∧ (∀ p ∈ u.conf.param, p.name ∈ fileNames → p.value ∈ ownNames) ∧
      [cstr "maillog", cstr "authtemp", cstr "authfile", cstr "order", cstr "match",
          cstr "suspicious", cstr "timeout", cstr "flush"].map u.conffileParam =
        [cstr "m", cstr "t", cstr "a", uwImapOrder, uwImapMatch, cstr "9", cstr "60",
          cstr "9"].map some

theorem startsServing_uwImap :
    StartsServing (oneStanza (cstr "60") uwImapOrder uwImapMatch) := by
  unfold StartsServing
  decide +kernel

theorem StartsServing.exists_starts {c : Config} (h : StartsServing c) :
    ∃ u, (withLog c).Starts RegexLib.posix smallSetting u := by
  obtain ⟨hnone, hrun⟩ := h
  obtain ⟨_, u, hu, rfl, hnames, hparams⟩ := Outcome.returns_iff.mp hrun
  simp only [List.map_cons, List.map_nil, List.cons.injEq, and_true] at hparams
  obtain ⟨hlog, htemp, hfile, horder, hmatch, hsusp, htime, hflush⟩ := hparams
  have hown : ∀ x, u.conf.Names x → x ∈ ownNames := by
    rintro x ⟨p, hp, hn, rfl⟩
    exact hnames p hp hn
  refine ⟨u, hu, ⟨hlog, htemp, hfile, horder, hmatch, ?_, ?_, ?_⟩,
    ⟨Nat.zero_ne_one, rfl, rfl, le_rfl⟩, ⟨?_, fun x i hx hi => ?_⟩, fun hm => ?_⟩
  · rw [World.conffileParamInt, hsusp]
    decide
  · rw [World.conffileParamInt, htime]
    decide
  · rw [World.conffileParamInt, hflush]
    decide
  · exact World.wellFormed_withFile (World.wellFormed_withFile (World.wellFormed_withFile
      (fun x i hx => by cases hx) _ _) _ _) _ _
  · rw [hnone x (hown x hx)] at hi
    cases hi
  · exact absurd (hown _ hm) (by decide)

end ExactDaemon
