import ExactDaemon.Auth.Footprint
import ExactDaemon.Conf.Accepted
import ExactDaemon.Lib.Machine
import ExactDaemon.Lib.RexpSyntax

/-! # The discipline of the handle

A daemon built with the database runs `auth_init` and then takes one event after another
until it ends. The handle is used only while it is open, exactly if `auth_init` ran in
database mode or nothing that comes later uses the database.
-/

namespace ExactDaemon

open Prog DbWorld

/-- What the daemon is built on, and whether it was started with `-p`. -/
structure Platform where
  lib : RegexLib
  libc : Libc
  onLiteral : Except Halt Unit
  stamp : ℤ → Bytes
  preserve : Bool

/-- What a daemon meets after `auth_init`. An alarm finds the records at some addresses. -/
inductive DbEvent where
  | login (t : ℤ) (username hostname : CStr)
  | alarm (t : ℤ) (data : DbRecord → ℤ)
  | dump
  | hangup (c : Config)
  | terminate

/-- What the daemon does then. -/
def DbEvent.handler (pl : Platform) : DbEvent → Prog DbWorld Unit
  | login t username hostname => do
    zoom toWorld (modify (·.atClock t))
    authAdd true pl.libc username hostname
  | alarm t data => do
    zoom toWorld (modify (·.atClock t))
    DbWorld.authClean true data
  | dump => authDump true pl.stamp
  | hangup c => do
    zoom toWorld (modify (·.install c))
    zoom toWorld (conffileReload pl.onLiteral pl.lib)
  | terminate => exitHandler true pl.preserve

/-- A process, and whether it has ended. -/
structure Process where
  state : DbWorld
  ended : Bool

/-- The process after a program, which may have ended it. -/
def Process.after (p : Prog DbWorld Unit) (d : DbWorld) : Process :=
  match p.run d with
  | .done _ d' => ⟨d', false⟩
  | .halted _ d' => ⟨d', true⟩

namespace DbWorld

/-- The process after `auth_init`. -/
def start (w : World) (faults : List Bool) : Process :=
  .after (DbWorld.authInit true) ⟨w, .unset, [], faults⟩

def step (pl : Platform) (s : Process) (e : DbEvent) : Option Process :=
  if s.ended then none else some (.after (e.handler pl) s.state)

end DbWorld

/-- The configuration selects the database. -/
def World.SelectsDb (w : World) : Prop := w.conffileParam (cstr "authtype") = some (cstr "db")

/-- A daemon with these parameters keeps a database and writes no relay file. -/
def DbMode (withDb : Bool) (look : CStr → Option CStr) : Prop :=
  withDb = true ∧ look (cstr "authtype") = some (cstr "db")

instance (withDb : Bool) (look : CStr → Option CStr) : Decidable (DbMode withDb look) :=
  inferInstanceAs (Decidable (_ ∧ _))

/-- Every operation on the handle found it open, and a daemon that began in text mode has
made none. -/
def Disciplined (w : World) (d : DbWorld) : Prop :=
  (∀ c ∈ d.calls, c.2 = .opened) ∧ (¬ w.SelectsDb → d.calls = [])

/-- The daemon began in database mode, or the event does not lead to the database: it is not
the termination, and the configuration of the moment selects the text backend, or there is
no file to dump to. -/
def Spared (w : World) (s : Process) : DbEvent → Prop
  | .login .. | .alarm .. => w.SelectsDb ∨ ¬ s.state.world.SelectsDb
  | .dump => w.SelectsDb ∨ ¬ s.state.world.SelectsDb ∨
      ∀ path, s.state.world.conffileParam (cstr "dumpfile") = some path →
        s.state.world.fs.writable path = false
  | .hangup _ => True
  | .terminate => w.SelectsDb

variable {pl : Platform} {w : World} {d : DbWorld} {s t u : Process} {e : DbEvent}
  {db : Prog DbWorld Unit} {text : Prog World Unit} {c : DbCall} {code : ℕ} {g : World → World}

/-! ### The choice between the backends -/

theorem run_authtypeIsDb {v : CStr} (h : d.world.conffileParam (cstr "authtype") = some v) :
    authtypeIsDb.run d = .done (strcmp v (cstr "db") = 0) d := by
  have hv : World.derefParam (cstr "authtype") d.world = .ok (v, d.world) := by
    rw [World.derefParam, h]
  unfold authtypeIsDb
  rw [run_zoom_same (run_attempt_ok hv)]
  rfl

section

variable {withDb : Bool}

theorem run_byBackend_of_dbMode (h : DbMode withDb d.world.conffileParam) :
    (byBackend withDb db text).run d = db.run d := by
  obtain ⟨rfl, h⟩ := h
  unfold byBackend
  rw [if_pos rfl, run_bind, run_authtypeIsDb h, Outcome.bind_done]
  rfl

theorem run_byBackend_of_not_dbMode (ha : ∃ v, d.world.conffileParam (cstr "authtype") = some v)
    (h : ¬ DbMode withDb d.world.conffileParam) :
    (byBackend withDb db text).run d = (zoom toWorld text).run d := by
  unfold byBackend
  cases withDb with
  | false => rfl
  | true =>
    obtain ⟨v, hv⟩ := ha
    have hne : ¬ strcmp v (cstr "db") = 0 := by
      rw [strcmp_eq_zero]
      rintro rfl
      exact h ⟨rfl, hv⟩
    rw [if_pos rfl, run_bind, run_authtypeIsDb hv, Outcome.bind_done, decide_eq_false hne]
    rfl

end

theorem run_byBackend_db (h : d.world.SelectsDb) :
    (byBackend true db text).run d = db.run d := run_byBackend_of_dbMode ⟨rfl, h⟩

theorem run_byBackend_text (ha : d.world.Accepted) (h : ¬ d.world.SelectsDb) :
    (byBackend true db text).run d = (zoom toWorld text).run d := by
  obtain ⟨v, hv, -⟩ := ha.authtype
  exact run_byBackend_of_not_dbMode ⟨v, hv⟩ fun hdb => h hdb.2

/-! ### Calls -/

theorem run_call_of_ne (h : d.handle ≠ .opened) :
    (call c code g).run d = .halted .undefined (afterCall c code g d) := by
  have hr : d.callResult code = .error .undefined := if_neg h
  unfold call
  rw [run_step, hr]
  rfl

/-! ### One event -/

/-- In database mode the handle is open and was so for every operation; in text mode it was
never touched. -/
structure InMode (w : World) (d : DbWorld) : Prop where
  db : w.SelectsDb → d.handle = .opened ∧ ∀ c ∈ d.calls, c.2 = .opened
  text : ¬ w.SelectsDb → d.handle = .unset ∧ d.calls = []

/-- The invariant: the discipline holds, and a process that has not ended goes on in its mode
with an accepted configuration. -/
structure Going (w : World) (s : Process) : Prop where
  disciplined : Disciplined w s.state
  mode : s.ended = false → InMode w s.state
  accepted : s.ended = false → s.state.world.Accepted

namespace InMode

theorem disciplined (h : InMode w d) : Disciplined w d := by
  constructor
  · by_cases hw : w.SelectsDb
    · exact (h.db hw).2
    · rw [(h.text hw).2]
      exact List.forall_mem_nil _
  · exact fun hw => (h.text hw).2

theorem set (h : InMode w d) (w' : World) : InMode w (toWorld.set d w') := ⟨h.db, h.text⟩

theorem faults (h : InMode w d) (l : List Bool) : InMode w { d with faults := l } :=
  ⟨h.db, h.text⟩

/-- In database mode the handle may be used. -/
theorem afterCall (h : InMode w d) (hw : w.SelectsDb) (c : DbCall) (code : ℕ) (g : World → World) :
    InMode w (afterCall c code g d) := by
  refine ⟨fun _ => ⟨(h.db hw).1, ?_⟩, fun hn => absurd hw hn⟩
  intro x hx
  rcases List.mem_append.mp hx with hx | hx
  · exact (h.db hw).2 x hx
  · rw [List.mem_singleton.mp hx]
    exact (h.db hw).1

end InMode

theorem conf_afterCall (hg : ∀ w, (g w).conf = w.conf) :
    (afterCall c code g d).world.conf = d.world.conf := by
  unfold afterCall
  dsimp only
  split
  · exact hg _
  · rfl

theorem Process.state_after (p : Prog DbWorld Unit) (d : DbWorld) :
    (Process.after p d).state = (p.run d).state := by
  unfold Process.after
  cases p.run d <;> rfl

/-- A program that keeps the mode and the configuration keeps the invariant. -/
theorem going_of_keeps {p : Prog DbWorld Unit}
    (hp : ∀ cf, Keeps (fun d => InMode w d ∧ d.world.conf = cf) p) (hd : InMode w d)
    (ha : d.world.Accepted) : Going w (.after p d) := by
  have h := (hp d.world.conf).state ⟨hd, rfl⟩
  rw [← Process.state_after] at h
  exact ⟨h.1.disciplined, fun _ => h.1, fun _ => ha.of_conf h.2⟩

/-- On the world alone. -/
theorem going_of_world {names : List CStr} {p : Prog World Unit} (hp : Creating names p)
    (hd : InMode w d) (ha : d.world.Accepted) : Going w (.after (zoom toWorld p) d) := by
  refine going_of_keeps (fun cf => ?_) hd ha
  have hmode : Keeps (InMode w) (zoom toWorld p) := keeps_zoom (fun _ _ h => h.set _) _
  exact hmode.and (hp.conf cf)

theorem Process.after_congr {p q : Prog DbWorld Unit} (h : p.run d = q.run d) :
    Process.after p d = Process.after q d := by
  unfold Process.after
  rw [h]

/-- In database mode the handlers may use the handle. -/
theorem untouched_inMode (names : List CStr) (hw : w.SelectsDb) (cf : Conf) :
    Untouched names fun d => InMode w d ∧ d.world.conf = cf where
  world _ _ hc h := ⟨h.1.set _, hc.conf.trans h.2⟩
  call _ _ _ _ hg h := ⟨h.1.afterCall hw _ _ _, (conf_afterCall fun w => (hg w).conf).trans h.2⟩
  faults _ l h := ⟨h.1.faults l, h.2⟩

/-- The events that do their work by a choice between the backends. -/
def DbEvent.Ordinary : DbEvent → Prop
  | .login .. | .alarm .. | .dump => True
  | .hangup _ | .terminate => False

theorem going_ordinary_db (hw : w.SelectsDb) (he : e.Ordinary) (hd : InMode w d)
    (ha : d.world.Accepted) : Going w (.after (e.handler pl) d) := by
  refine going_of_keeps (fun cf => ?_) hd ha
  have hJ := untouched_inMode relayNames hw cf
  cases e with
  | login t username hostname =>
    exact Keeps.bind (hJ.zoom (creating_modify fun _ => .of_same rfl rfl)) fun _ =>
      keeps_authAdd hJ _ _ _
  | alarm t data =>
    exact Keeps.bind (hJ.zoom (creating_modify fun _ => .of_same rfl rfl)) fun _ =>
      keeps_authClean hJ _
  | dump => exact keeps_authDump (untouched_inMode _ hw cf) _
  | hangup c => exact he.elim
  | terminate => exact he.elim

/-- What is left of a handler when the time has come. -/
theorem run_atClock {α : Type} {p : Prog DbWorld α} (t : ℤ) :
    (zoom toWorld (modify (·.atClock t)) >>= fun _ => p).run d =
      p.run (toWorld.set d (d.world.atClock t)) := by
  exact run_zoom_bind (run_modify _ _)

/-- When the configuration selects the text backend, the handler works on the world alone. -/
theorem exists_run_text (pl : Platform) (he : e.Ordinary) (ha : d.world.Accepted)
    (hs : ¬ d.world.SelectsDb) :
    ∃ (names : List CStr) (p : Prog World Unit), Creating names p ∧
      (e.handler pl).run d = (zoom toWorld p).run d := by
  cases e with
  | login t username hostname =>
    refine ⟨relayNames, modify (·.atClock t) >>= fun _ => authTextAdd pl.libc username hostname,
      Creating.bind (creating_modify fun _ => .of_same rfl rfl) fun _ =>
        creating_authTextAdd _ _ _, ?_⟩
    rw [zoom_bind, run_atClock]
    exact (run_atClock t).trans (run_byBackend_text
      (d := toWorld.set d (d.world.atClock t)) (ha.of_conf rfl) hs)
  | alarm t data =>
    refine ⟨relayNames, modify (·.atClock t) >>= fun _ => authClean,
      Creating.bind (creating_modify fun _ => .of_same rfl rfl) fun _ =>
        Creating.bind creating_authTextClean fun _ =>
          creating_modify fun _ => .of_same rfl rfl, ?_⟩
    rw [zoom_bind, run_atClock]
    refine (run_atClock t).trans ?_
    change (byBackend true (DbWorld.authDbClean data) authTextClean >>= fun _ => _).run _ = _
    rw [run_bind, run_byBackend_text (d := toWorld.set d (d.world.atClock t)) (ha.of_conf rfl) hs,
      show authClean = authTextClean >>= fun _ => _ from rfl, zoom_bind]
    exact (run_bind _ _ _).symm
  | dump => exact ⟨_, authTextDump pl.stamp, creating_authTextDump _, run_byBackend_text ha hs⟩
  | hangup c => exact he.elim
  | terminate => exact he.elim

theorem going_ordinary_text (he : e.Ordinary) (hs : ¬ d.world.SelectsDb) (hd : InMode w d)
    (ha : d.world.Accepted) : Going w (.after (e.handler pl) d) := by
  obtain ⟨names, p, hp, hr⟩ := exists_run_text pl he ha hs
  rw [Process.after_congr hr]
  exact going_of_world hp hd ha

/-- A dump that the database would do, if there were a file for it. -/
theorem run_dump_unwritable (hs : d.world.SelectsDb) {path : CStr}
    (hpath : d.world.conffileParam (cstr "dumpfile") = some path)
    (hw : d.world.fs.writable path = false) : (authDump true pl.stamp).run d = .done () d := by
  have hf : d.world.fopenWrite (d.world.conffileParam (cstr "dumpfile")) = .ok (none, d.world) := by
    rw [hpath, World.fopenWrite, Fs.openWrite, if_neg (by rw [hw]; exact Bool.false_ne_true)]
  unfold authDump
  rw [run_byBackend_db hs]
  unfold authDbDump
  rw [run_zoom_same (run_attempt_ok hf)]
  rfl

theorem exists_dumpfile (ha : d.world.Accepted) :
    ∃ path, d.world.conffileParam (cstr "dumpfile") = some path :=
  ha.required _ (by decide)

theorem going_dump_unwritable (hd : InMode w d) (ha : d.world.Accepted)
    (hs : d.world.SelectsDb)
    (hf : ∀ path, d.world.conffileParam (cstr "dumpfile") = some path →
      d.world.fs.writable path = false) :
    Going w (.after (DbEvent.dump.handler pl) d) := by
  obtain ⟨path, hpath⟩ := exists_dumpfile ha
  have hr : (DbEvent.dump.handler pl).run d = .done () d :=
    run_dump_unwritable hs hpath (hf path hpath)
  unfold Process.after
  rw [hr]
  exact ⟨hd.disciplined, fun _ => hd, fun _ => ha⟩

/-- A reload does not touch the handle, and returns only with an accepted configuration. -/
theorem going_hangup (c : Config) (hd : InMode w d) :
    Going w (.after ((DbEvent.hangup c).handler pl) d) := by
  have hk : Keeps (InMode w) ((DbEvent.hangup c).handler pl) :=
    Keeps.bind (keeps_zoom (fun _ _ h => h.set _) _) fun _ => keeps_zoom (fun _ _ h => h.set _) _
  have hm : InMode w (Process.after ((DbEvent.hangup c).handler pl) d).state := by
    rw [Process.state_after]
    exact hk.state hd
  refine ⟨hm.disciplined, fun _ => hm, fun hend => ?_⟩
  unfold Process.after at hend ⊢
  cases hr : ((DbEvent.hangup c).handler pl).run d with
  | halted e t =>
    rw [hr] at hend
    cases hend
  | done a t =>
    obtain ⟨_, d₁, -, hreload⟩ := done_of_bind hr
    obtain ⟨v, hv, rfl⟩ := done_of_zoom hreload
    obtain ⟨_, v₁, -, hread⟩ := done_of_bind hv
    exact accepted_of_readCheck hread

/-! ### The termination -/

theorem exitHandler_ends {withDb preserve : Bool} {a : Unit} {d' : DbWorld} :
    (exitHandler withDb preserve).run d ≠ .done a d' := by
  intro h
  obtain ⟨_, d₁, -, h₁⟩ := done_of_bind h
  obtain ⟨_, d₂, -, h₂⟩ := done_of_bind h₁
  obtain ⟨_, d₃, -, h₃⟩ := done_of_bind h₂
  cases attempt_done h₃

theorem ended_exitHandler {preserve : Bool} :
    (Process.after (exitHandler true preserve) d).ended = true := by
  unfold Process.after
  cases hr : (exitHandler true preserve).run d with
  | done a d' => exact absurd hr exitHandler_ends
  | halted e d' => rfl

/-- The only call of `exit_handler` is the closing, which finds what the handle is. -/
theorem calls_exitHandler (preserve : Bool) (ha : d.world.Accepted) :
    (Process.after (exitHandler true preserve) d).state.calls =
      d.calls ++ [(.close, d.handle)] := by
  obtain ⟨path, hpath⟩ := ha.required (cstr "pidfile") (by decide)
  have hpid : d.world.unlinkParam (cstr "pidfile") =
      .ok ((), { d.world with fs := d.world.fs.unlink path }) := by
    rw [World.unlinkParam, hpath]
  rw [Process.state_after]
  unfold exitHandler
  rw [run_zoom_bind (run_attempt_ok hpid), show authExit true = DbWorld.close from rfl, run_bind]
  unfold DbWorld.close
  rw [run_step]
  by_cases hopen : (toWorld.set d { d.world with fs := d.world.fs.unlink path }).handle = .opened
  · rw [if_pos hopen]
    have hk : Keeps (fun d' : DbWorld => d'.calls = d.calls ++ [(.close, d.handle)])
        (removeAuthfile preserve >>= fun _ =>
          (attempt fun _ => .error (.exit 0) : Prog DbWorld Unit)) := by
      refine Keeps.bind ?_ fun _ => keeps_attempt fun _ _ _ _ h => by cases h
      unfold removeAuthfile
      split
      · exact keeps_pure _
      · exact keeps_zoom (fun _ _ h => h) _
    rw [run_ret, Outcome.bind_done]
    exact hk.state rfl
  · rw [if_neg hopen]
    rfl

/-- In database mode the handle is open up to its closing. -/
theorem going_terminate (hw : w.SelectsDb) (hd : InMode w d) (ha : d.world.Accepted) :
    Going w (.after (DbEvent.terminate.handler pl) d) := by
  have hcalls := calls_exitHandler pl.preserve ha
  have hend : (Process.after (DbEvent.terminate.handler pl) d).ended = true := ended_exitHandler
  constructor
  · refine ⟨fun c hc => ?_, fun hn => absurd hw hn⟩
    rw [show (Process.after (DbEvent.terminate.handler pl) d).state.calls = _ from hcalls,
      List.mem_append, List.mem_singleton] at hc
    rcases hc with hc | rfl
    · exact (hd.db hw).2 c hc
    · exact (hd.db hw).1
  · intro hn
    rw [hend] at hn
    cases hn
  · intro hn
    rw [hend] at hn
    cases hn

/-! ### What breaks the discipline -/

/-- In text mode a call through the handle ends the process. -/
structure Broken (w : World) (s : Process) : Prop where
  ended : s.ended = true
  called : ∃ c, (c, Handle.unset) ∈ s.state.calls

theorem Broken.not_disciplined (h : Broken w s) : ¬ Disciplined w s.state := by
  obtain ⟨c, hc⟩ := h.called
  intro hd
  cases hd.1 _ hc

/-- The first call through a handle that is not there. -/
theorem broken_of_run {p : Prog DbWorld Unit} {d₁ : DbWorld}
    (hr : p.run d = .halted .undefined (afterCall c code g d₁)) (hh : d₁.handle = .unset) :
    Broken w (.after p d) := by
  unfold Process.after
  rw [hr]
  refine ⟨rfl, c, ?_⟩
  rw [← hh]
  exact List.mem_append_right _ (List.mem_singleton_self _)

theorem broken_login {t : ℤ} {username hostname : CStr} (hh : d.handle = .unset)
    (hs : d.world.SelectsDb) :
    Broken w (.after ((DbEvent.login t username hostname).handler pl) d) := by
  set d₁ := toWorld.set d (d.world.atClock t)
  have hne : d₁.handle ≠ .opened := by
    rw [show d₁.handle = .unset from hh]
    decide
  have hr : (DbWorld.authDbAdd username hostname).run d₁ =
      .halted .undefined (afterCall .put 22
        (fun w => w.withDb (w.db.put (hostnameKey hostname) d₁.world.clock)) d₁) := by
    unfold DbWorld.authDbAdd
    rw [run_zoom_same (run_read _ _), run_bind, run_call_of_ne hne]
    rfl
  exact broken_of_run ((run_atClock t).trans ((run_byBackend_db (d := d₁) hs).trans hr)) hh

theorem broken_alarm {t : ℤ} {data : DbRecord → ℤ} (hh : d.handle = .unset)
    (ha : d.world.Accepted) (hs : d.world.SelectsDb) :
    Broken w (.after ((DbEvent.alarm t data).handler pl) d) := by
  set d₁ := toWorld.set d (d.world.atClock t)
  have hne : d₁.handle ≠ .opened := by
    rw [show d₁.handle = .unset from hh]
    decide
  obtain ⟨max, hmax, -⟩ := ha.conffileParamInt (show cstr "timeout" ∈ requiredI by decide)
  have hint : (d₁.world.conffileParamInt (cstr "timeout")).map (·, d₁.world) =
      .ok (max, d₁.world) := by
    rw [show d₁.world.conffileParamInt (cstr "timeout") = .ok max from hmax]
    rfl
  have hr : (DbWorld.authDbClean data).run d₁ =
      .halted .undefined (afterCall .cursor 22 id d₁) := by
    unfold DbWorld.authDbClean
    rw [run_zoom_same (run_read _ _), run_zoom_same (run_attempt_ok hint), run_bind,
      run_call_of_ne hne]
    rfl
  have hclean : (DbWorld.authClean true data).run d₁ =
      .halted .undefined (afterCall .cursor 22 id d₁) := by
    unfold DbWorld.authClean
    rw [run_bind, run_byBackend_db (d := d₁) hs, hr]
    rfl
  exact broken_of_run ((run_atClock t).trans hclean) hh

theorem broken_dump {path : CStr} (hh : d.handle = .unset) (hs : d.world.SelectsDb)
    (hpath : d.world.conffileParam (cstr "dumpfile") = some path)
    (hw : d.world.fs.writable path ≠ false) :
    Broken w (.after (DbEvent.dump.handler pl) d) := by
  obtain ⟨fd, fs, hopen⟩ : ∃ fd fs, d.world.fs.openWrite path = some (fd, fs) := by
    rw [Fs.openWrite, if_pos (by simpa using hw)]
    exact ⟨_, _, rfl⟩
  have hf : d.world.fopenWrite (d.world.conffileParam (cstr "dumpfile")) =
      .ok (some fd, { d.world with fs := fs }) := by
    rw [hpath, World.fopenWrite, hopen]
  set d₁ := toWorld.set d { d.world with fs := fs }
  have hne : d₁.handle ≠ .opened := by
    rw [show d₁.handle = .unset from hh]
    decide
  have hr : (authDbDump pl.stamp).run d = .halted .undefined (afterCall .cursor 22 id d₁) := by
    unfold authDbDump
    rw [run_zoom_bind (run_attempt_ok hf)]
    change (call .cursor 22 id >>= fun _ => _).run d₁ = _
    rw [run_bind, run_call_of_ne hne]
    rfl
  exact broken_of_run ((run_byBackend_db hs).trans hr) hh

theorem broken_terminate (hh : d.handle = .unset) (ha : d.world.Accepted) :
    Broken w (.after (DbEvent.terminate.handler pl) d) := by
  refine ⟨ended_exitHandler, .close, ?_⟩
  rw [show (Process.after (DbEvent.terminate.handler pl) d).state.calls = _ from
    calls_exitHandler _ ha, hh]
  exact List.mem_append_right _ (List.mem_singleton_self _)

/-! ### A whole run -/

theorem going_of_spared (hs : s.ended = false) (hg : Going w s) (hok : Spared w s e) :
    Going w (.after (e.handler pl) s.state) := by
  have hd := hg.mode hs
  have ha := hg.accepted hs
  cases e with
  | login t username hostname =>
    rcases hok with hw | ht
    · exact going_ordinary_db hw trivial hd ha
    · exact going_ordinary_text trivial ht hd ha
  | alarm t data =>
    rcases hok with hw | ht
    · exact going_ordinary_db hw trivial hd ha
    · exact going_ordinary_text trivial ht hd ha
  | dump =>
    by_cases ht : s.state.world.SelectsDb
    · rcases hok with hw | hn | hf
      · exact going_ordinary_db hw trivial hd ha
      · exact absurd ht hn
      · exact going_dump_unwritable hd ha ht hf
    · exact going_ordinary_text trivial ht hd ha
  | hangup c => exact going_hangup c hd
  | terminate => exact going_terminate hok hd ha

theorem broken_of_not_spared (hs : s.ended = false) (hg : Going w s) (hok : ¬ Spared w s e) :
    Broken w (.after (e.handler pl) s.state) := by
  have ha := hg.accepted hs
  cases e with
  | login t username hostname =>
    obtain ⟨hw, ht⟩ := not_or.mp hok
    exact broken_login ((hg.mode hs).text hw).1 (not_not.mp ht)
  | alarm t data =>
    obtain ⟨hw, ht⟩ := not_or.mp hok
    exact broken_alarm ((hg.mode hs).text hw).1 ha (not_not.mp ht)
  | dump =>
    obtain ⟨hw, hrest⟩ := not_or.mp hok
    obtain ⟨ht, hf⟩ := not_or.mp hrest
    obtain ⟨path, hf⟩ := not_forall.mp hf
    obtain ⟨hpath, hwr⟩ := Classical.not_imp.mp hf
    exact broken_dump ((hg.mode hs).text hw).1 (not_not.mp ht) hpath hwr
  | hangup c => exact absurd trivial hok
  | terminate => exact broken_terminate ((hg.mode hs).text hok).1 ha

theorem step_eq_some : DbWorld.step pl s e = some t ↔
    s.ended = false ∧ t = .after (e.handler pl) s.state := by
  unfold DbWorld.step
  cases s.ended with
  | false => exact ⟨fun h => ⟨rfl, (Option.some.inj h).symm⟩, fun h => congrArg some h.2.symm⟩
  | true => exact ⟨nofun, fun h => by cases h.1⟩

/-- The discipline holds at the end exactly if every event on the way was spared. -/
theorem disciplined_iff_of_going (h : Runs (DbWorld.step pl) s es u) (hg : Going w s) :
    Disciplined w u.state ↔ Run (DbWorld.step pl) (Spared w) s es u := by
  induction h with
  | nil => exact ⟨fun _ => .nil, fun _ => hg.disciplined⟩
  | @cons s t u e es _ hst hr ih =>
    obtain ⟨hs, ht⟩ := step_eq_some.mp hst
    by_cases hok : Spared w s e
    · rw [ih (ht ▸ going_of_spared hs hg hok)]
      constructor
      · exact fun hrun => .cons hok hst hrun
      · intro hrun
        cases hrun with
        | cons _ hst' hrun' =>
          rw [hst] at hst'
          cases hst'
          exact hrun'
    · have hb : Broken w t := ht ▸ broken_of_not_spared hs hg hok
      -- the process has ended, so nothing comes later
      have hu : u = t := by
        cases hr with
        | nil => rfl
        | cons _ hst' _ =>
          have hend := (step_eq_some.mp hst').1
          rw [hb.ended] at hend
          cases hend
      rw [hu]
      refine iff_of_false hb.not_disciplined fun hrun => ?_
      cases hrun with
      | cons hok' _ _ => exact hok hok'

/-! ### The start -/

theorem keeps_opendb {J : DbWorld → Prop}
    (hJ : ∀ d l h w', w'.conf = d.world.conf → J d →
      J { d with world := w', handle := h, faults := l }) : Keeps J opendb := by
  refine Keeps.bind (keeps_zoom_read _) fun path => ?_
  refine Keeps.bind (keeps_tryCall fun d l h => hJ d l _ d.world rfl h) fun _ => ?_
  refine keeps_tryCall fun d l h => hJ d l _ (d.world.ensureFile path) ?_ h
  unfold World.ensureFile
  split
  · rfl
  · split <;> rfl

theorem handle_opendb {a : Unit} {d' : DbWorld} (h : opendb.run d = .done a d') :
    d'.handle = .opened := by
  obtain ⟨path, d₁, -, h₁⟩ := done_of_bind h
  obtain ⟨_, d₂, -, h₂⟩ := done_of_bind h₁
  have ht := attempt_done h₂
  split at ht
  · cases ht
  · cases ht
    rfl

theorem going_start_db (faults : List Bool) (ha : w.Accepted) (hw : w.SelectsDb) :
    Going w (DbWorld.start w faults) := by
  set d₀ : DbWorld := ⟨w, .unset, [], faults⟩
  have hk : Keeps (fun d => d.calls = [] ∧ d.world.conf = w.conf) (DbWorld.authInit true) := by
    have hcalls : ∀ {p : Prog World Unit}, Keeps (fun d : DbWorld => d.calls = [])
        (zoom toWorld p) := keeps_zoom (fun _ _ h => h) _
    refine Keeps.bind (hcalls.and (creating_authInitTables.conf w.conf)) fun _ => ?_
    refine keeps_byBackend ?_ (hcalls.and (creating_authWriteText.conf w.conf))
    exact keeps_opendb fun _ _ _ _ hc h => ⟨h.1, hc.trans h.2⟩
  obtain ⟨hcalls, hconf⟩ := hk.state (s := d₀) ⟨rfl, rfl⟩
  have hst : (DbWorld.start w faults).state = ((DbWorld.authInit true).run d₀).state :=
    Process.state_after _ _
  rw [← hst] at hcalls hconf
  refine ⟨⟨?_, fun hn => absurd hw hn⟩, fun hend => ?_, fun _ => ha.of_conf hconf⟩
  · rw [hcalls]
    exact List.forall_mem_nil _
  · refine ⟨fun _ => ⟨?_, by rw [hcalls]; exact List.forall_mem_nil _⟩, fun hn => absurd hw hn⟩
    unfold DbWorld.start Process.after at hend ⊢
    cases hr : (DbWorld.authInit true).run d₀ with
    | halted e t =>
      rw [hr] at hend
      cases hend
    | done a t =>
      obtain ⟨_, d₁, hd₁, hopen⟩ := done_of_bind hr
      have hc₁ : d₁.world.conf = w.conf :=
        (creating_authInitTables.conf w.conf).run_done (s := d₀) rfl hd₁
      have hs₁ : d₁.world.SelectsDb := by
        unfold World.SelectsDb World.conffileParam
        rw [hc₁]
        exact hw
      rw [run_byBackend_db hs₁] at hopen
      exact handle_opendb hopen

theorem going_start_text (faults : List Bool) (ha : w.Accepted) (hw : ¬ w.SelectsDb) :
    Going w (DbWorld.start w faults) := by
  set d₀ : DbWorld := ⟨w, .unset, [], faults⟩
  have hr : (DbWorld.authInit true).run d₀ =
      (zoom toWorld (authInitTables >>= fun _ => authWriteText)).run d₀ := by
    unfold DbWorld.authInit
    rw [zoom_bind, run_bind, run_bind]
    cases hd : (zoom toWorld authInitTables).run d₀ with
    | halted e t => rfl
    | done a d₁ =>
      have hc : d₁.world.conf = w.conf :=
        (creating_authInitTables.conf w.conf).run_done (s := d₀) rfl hd
      refine run_byBackend_text (ha.of_conf hc) ?_
      unfold World.SelectsDb World.conffileParam
      rw [hc]
      exact hw
  unfold DbWorld.start
  rw [Process.after_congr hr]
  have hp : Creating relayNames (authInitTables >>= fun _ => authWriteText) :=
    Creating.bind creating_authInitTables fun _ => creating_authWriteText
  exact going_of_world hp ⟨fun h => absurd h hw, fun _ => ⟨rfl, rfl⟩⟩ ha

theorem going_start (faults : List Bool) (ha : w.Accepted) : Going w (DbWorld.start w faults) := by
  by_cases hw : w.SelectsDb
  · exact going_start_db faults ha hw
  · exact going_start_text faults ha hw

/-- A daemon with an accepted configuration keeps the discipline exactly if every event that
it meets is spared. -/
theorem disciplined_iff {faults : List Bool} (hw : w.Accepted)
    (h : Runs (DbWorld.step pl) (DbWorld.start w faults) es u) :
    Disciplined w u.state ↔ Run (DbWorld.step pl) (Spared w) (DbWorld.start w faults) es u :=
  disciplined_iff_of_going h (going_start faults hw)

def Platform.simple : Platform := ⟨.posix, .simple, .ok (), fun _ => [], false⟩

/-- In database mode the handle is closed once, and was open. -/
theorem disciplined_db : ∃ u,
    Runs (DbWorld.step .simple) (DbWorld.start (World.boot (acceptedParam (cstr "db"))) [])
      [.login 7 (cstr "doug") (cstr "home"), .terminate] u ∧
      Disciplined (World.boot (acceptedParam (cstr "db"))) u.state := by
  set login := DbEvent.login 7 (cstr "doug") (cstr "home")
  set s := DbWorld.start (World.boot (acceptedParam (cstr "db"))) []
  have hs : s.ended = false := by decide +kernel
  have ht : (Process.after (login.handler .simple) s.state).ended = false := by decide +kernel
  have hlogin : DbWorld.step .simple s login = some _ := step_eq_some.mpr ⟨hs, rfl⟩
  have hterminate : DbWorld.step .simple (.after (login.handler .simple) s.state) .terminate =
      some _ := step_eq_some.mpr ⟨ht, rfl⟩
  have hruns : Runs (DbWorld.step .simple) s [login, .terminate] _ :=
    .cons trivial hlogin (.cons trivial hterminate .nil)
  refine ⟨_, hruns, (disciplined_iff (accepted_boot (.inl rfl)) hruns).mpr ?_⟩
  exact .cons (.inl rfl) hlogin (.cons rfl hterminate .nil)

/-- In text mode the termination closes a handle that was never made. -/
theorem undisciplined_text : ∃ u,
    (World.boot (acceptedParam (cstr "text"))).Accepted ∧
      Runs (DbWorld.step .simple) (DbWorld.start (World.boot (acceptedParam (cstr "text"))) [])
        [.terminate] u ∧
      ¬ Disciplined (World.boot (acceptedParam (cstr "text"))) u.state := by
  have ha : (World.boot (acceptedParam (cstr "text"))).Accepted := accepted_boot (.inr rfl)
  have hg := going_start [] ha
  have hend : (DbWorld.start (World.boot (acceptedParam (cstr "text"))) []).ended = false := by
    decide +kernel
  have hs : ¬ (World.boot (acceptedParam (cstr "text"))).SelectsDb := by
    unfold World.SelectsDb
    decide +kernel
  refine ⟨_, ha, .cons trivial (step_eq_some.mpr ⟨hend, rfl⟩) .nil, ?_⟩
  exact (broken_terminate ((hg.mode hend).text hs).1 (hg.accepted hend)).not_disciplined

end ExactDaemon
