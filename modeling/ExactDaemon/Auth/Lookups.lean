import ExactDaemon.Auth.Discipline

/-! # What the handlers look up

The handlers of SIGALRM and SIGUSR1, with a record of the parameters that they look up. Without
the record they are the handlers of the daemon. Which parameters these are depends on the
authtype, and on whether the earlier lookups have found something.
-/

namespace ExactDaemon

open Prog

/-- The daemon, and the names that have been looked up. -/
structure Asking where
  db : DbWorld
  asked : List CStr

namespace Asking

def toDb : Lens Asking DbWorld where
  get := db
  set x d := { x with db := d }
  get_set _ _ := rfl
  set_get _ := rfl
  set_set _ _ _ := rfl

def toWorld : Lens Asking World where
  get x := x.db.world
  set x w := { x with db := { x.db with world := w } }
  get_set _ _ := rfl
  set_get _ := rfl
  set_set _ _ _ := rfl

def noted (name : CStr) (x : Asking) : Asking := { x with asked := x.asked ++ [name] }

/-- A call of `conffile_param` or `conffile_param_int` is about to be made. -/
def ask (name : CStr) : Prog Asking Unit := modify (noted name)

/-! ### The text backend -/

/-- `auth_write_text` with an open file. -/
def authWriteLines (f : ℕ) : Prog Asking Unit := do
  -- for `chmod`
  ask (cstr "authtemp")
  let n ← zoom toWorld (read fun w => w.tables.authCur + 1)
  zoom toWorld (loop (fun i w => i < w.tables.authCur)
    (fun i _ => attempt (·.printHost f i)) n 0 ())
  zoom toWorld (modify (·.fclose f))
  ask (cstr "authtemp")
  ask (cstr "authfile")
  zoom toWorld (attempt World.publish)

def authWriteText : Prog Asking Unit := do
  ask (cstr "authtemp")
  let f ← zoom toWorld (attempt fun w => w.fopenWrite (w.conffileParam (cstr "authtemp")))
  match f with
  | none => halt (.exit 21)
  | some f => authWriteLines f

def authTextClean : Prog Asking Unit := do
  let t ← zoom toWorld (read World.clock)
  ask (cstr "timeout")
  let max ← zoom toWorld (attempt fun w => (w.conffileParamInt (cstr "timeout")).map (·, w))
  let m ← zoom toWorld (read fun w => w.tables.authCur + 1)
  let n ← zoom toWorld (loop (fun i w => i < w.tables.authCur) (cleanEntry t max) m 0 0)
  -- swap them
  let tmp ← zoom toWorld (read fun w => w.tables.auth)
  zoom toWorld (modify (·.onTables fun tb => { tb with auth := tb.shadowAuth }))
  zoom toWorld (modify (·.onTables fun tb => { tb with shadowAuth := tmp }))
  zoom toWorld (modify (·.onTables fun tb => { tb with authCur := n }))
  authWriteText

def authTextDump (stamp : ℤ → Bytes) : Prog Asking Unit := do
  ask (cstr "dumpfile")
  let f ← zoom toWorld (attempt fun w => w.fopenWrite (w.conffileParam (cstr "dumpfile")))
  match f with
  | none => pure ()
  | some f => do
    -- for `chmod`
    ask (cstr "dumpfile")
    let n ← zoom toWorld (read fun w => w.tables.authCur + 1)
    zoom toWorld (loop (fun i w => i < w.tables.authCur)
      (fun i _ => attempt (·.printEntry stamp f i)) n 0 ())
    zoom toWorld (modify (·.fclose f))

/-! ### The database -/

def authDbDump (stamp : ℤ → Bytes) : Prog Asking Unit := do
  ask (cstr "dumpfile")
  let f ← zoom toWorld (attempt fun w => w.fopenWrite (w.conffileParam (cstr "dumpfile")))
  match f with
  | none => pure ()
  | some f => do
    -- for `chmod`
    ask (cstr "dumpfile")
    zoom toDb (DbWorld.call .cursor 22 id)
    let records ← zoom toWorld (read fun w => w.db.records)
    zoom toDb (records.forM fun r => zoom DbWorld.toWorld (modify (·.printRecord stamp f r)))
    zoom toWorld (modify (·.fclose f))

def authDbClean (data : DbRecord → ℤ) : Prog Asking Unit := do
  let now ← zoom toWorld (read World.clock)
  ask (cstr "timeout")
  let max ← zoom toWorld (attempt fun w => (w.conffileParamInt (cstr "timeout")).map (·, w))
  zoom toDb (DbWorld.call .cursor 22 id)
  let records ← zoom toWorld (read fun w => w.db.records)
  zoom toDb (DbWorld.authDbSweep data now max records)

/-! ### The handlers -/

def authtypeIsDb : Prog Asking Bool := do
  ask (cstr "authtype")
  zoom toDb ExactDaemon.authtypeIsDb

def byBackend (withDb : Bool) (db text : Prog Asking Unit) : Prog Asking Unit :=
  if withDb then do
    if ← authtypeIsDb then db else text
  else text

def authClean (withDb : Bool) (data : DbRecord → ℤ) : Prog Asking Unit := do
  byBackend withDb (authDbClean data) authTextClean
  zoom toWorld (modify fun w => w.setAlarm w.tables.authAlarm)

def authDump (withDb : Bool) (stamp : ℤ → Bytes) : Prog Asking Unit :=
  byBackend withDb (authDbDump stamp) (authTextDump stamp)

end Asking

/-- The handlers with lookups of their own that may interrupt a reload. -/
inductive Handler | clean | dump
  deriving DecidableEq, Repr

namespace Handler

/-- What the handler does. -/
def prog (withDb : Bool) (data : DbRecord → ℤ) (stamp : ℤ → Bytes) : Handler → Prog DbWorld Unit
  | clean => DbWorld.authClean withDb data
  | dump => ExactDaemon.authDump withDb stamp

/-- The same with the record. -/
def asking (withDb : Bool) (data : DbRecord → ℤ) (stamp : ℤ → Bytes) : Handler → Prog Asking Unit
  | clean => Asking.authClean withDb data
  | dump => Asking.authDump withDb stamp

/-- What the handlers look up. -/
def names : List CStr :=
  [cstr "authtype", cstr "timeout", cstr "authtemp", cstr "authfile", cstr "dumpfile"]

/-- The parameters that one of them looks up, if it finds each of them. -/
def lookups (withDb : Bool) (look : CStr → Option CStr) (h : Handler) : List CStr :=
  (if withDb then [cstr "authtype"] else []) ++
    match h with
    | clean => cstr "timeout" ::
        if DbMode withDb look then [] else [cstr "authtemp", cstr "authfile"]
    | dump => [cstr "dumpfile"]

/-- The names that the handler looks up when it runs in this state. -/
def asked (withDb : Bool) (data : DbRecord → ℤ) (stamp : ℤ → Bytes) (h : Handler) (d : DbWorld) :
    List CStr :=
  ((h.asking withDb data stamp).run ⟨d, []⟩).state.asked

end Handler

variable {withDb : Bool} {data : DbRecord → ℤ} {stamp : ℤ → Bytes} {h : Handler} {x : Asking}
  {d : DbWorld} {name : CStr} {f : ℕ}

/-! ### The record changes nothing -/

namespace Asking

theorem erases_ask {α : Type} {p : Unit → Prog Asking α} {q : Prog DbWorld α}
    (hp : Erases db (p ()) q) : Erases db (ask name >>= p) q :=
  Erases.skip (fun _ => rfl) hp

theorem erases_world {α : Type} (p : Prog World α) :
    Erases db (zoom toWorld p) (zoom DbWorld.toWorld p) := by
  have hzoom : zoom toDb (zoom DbWorld.toWorld p) = zoom toWorld p := zoom_zoom p
  rw [← hzoom]
  exact erases_zoom (l := toDb) _

theorem erases_authWriteText :
    Erases db authWriteText (zoom DbWorld.toWorld ExactDaemon.authWriteText) := by
  refine erases_ask ?_
  unfold ExactDaemon.authWriteText
  rw [zoom_bind]
  refine (erases_world _).bind fun f => ?_
  cases f with
  | none => exact erases_halt _
  | some f =>
    refine erases_ask ?_
    change Erases db _ (zoom DbWorld.toWorld (ExactDaemon.authWriteLines f))
    unfold ExactDaemon.authWriteLines
    rw [zoom_bind]
    refine (erases_world _).bind fun n => ?_
    rw [zoom_bind]
    refine (erases_world _).bind fun _ => ?_
    rw [zoom_bind]
    exact (erases_world _).bind fun _ => erases_ask (erases_ask (erases_world _))

theorem erases_authTextClean :
    Erases db authTextClean (zoom DbWorld.toWorld ExactDaemon.authTextClean) := by
  unfold ExactDaemon.authTextClean
  rw [zoom_bind]
  refine (erases_world _).bind fun t => erases_ask ?_
  rw [zoom_bind]
  refine (erases_world _).bind fun max => ?_
  rw [zoom_bind]
  refine (erases_world _).bind fun m => ?_
  rw [zoom_bind]
  refine (erases_world _).bind fun n => ?_
  rw [zoom_bind]
  refine (erases_world _).bind fun tmp => ?_
  rw [zoom_bind]
  refine (erases_world _).bind fun _ => ?_
  rw [zoom_bind]
  refine (erases_world _).bind fun _ => ?_
  rw [zoom_bind]
  exact (erases_world _).bind fun _ => erases_authWriteText

theorem erases_authTextDump (stamp : ℤ → Bytes) :
    Erases db (authTextDump stamp) (zoom DbWorld.toWorld (ExactDaemon.authTextDump stamp)) := by
  refine erases_ask ?_
  unfold ExactDaemon.authTextDump
  rw [zoom_bind]
  refine (erases_world _).bind fun f => ?_
  cases f with
  | none => exact erases_pure _
  | some f =>
    refine erases_ask ?_
    rw [zoom_bind]
    refine (erases_world _).bind fun n => ?_
    rw [zoom_bind]
    exact (erases_world _).bind fun _ => erases_world _

theorem erases_authDbDump (stamp : ℤ → Bytes) :
    Erases db (authDbDump stamp) (ExactDaemon.authDbDump stamp) := by
  refine erases_ask ((erases_world _).bind fun f => ?_)
  cases f with
  | none => exact erases_pure _
  | some f =>
    exact erases_ask ((erases_zoom (l := toDb) _).bind fun _ => (erases_world _).bind fun records =>
      (erases_zoom (l := toDb) _).bind fun _ => erases_world _)

theorem erases_authDbClean (data : DbRecord → ℤ) :
    Erases db (authDbClean data) (DbWorld.authDbClean data) :=
  (erases_world _).bind fun _ => erases_ask ((erases_world _).bind fun _ =>
    (erases_zoom (l := toDb) _).bind fun _ => (erases_world _).bind fun _ =>
      erases_zoom (l := toDb) _)

theorem erases_byBackend {p q : Prog Asking Unit} {p' : Prog DbWorld Unit} {q' : Prog World Unit}
    (hp : Erases db p p') (hq : Erases db q (zoom DbWorld.toWorld q')) :
    Erases db (byBackend withDb p q) (ExactDaemon.byBackend withDb p' q') :=
  erases_ite (Erases.bind (erases_ask (q := ExactDaemon.authtypeIsDb) (erases_zoom (l := toDb) _))
    fun _ => erases_ite hp hq) hq

end Asking

/-- Without the record it is the handler of the daemon. -/
theorem Handler.erases_asking (h : Handler) :
    Erases Asking.db (h.asking withDb data stamp) (h.prog withDb data stamp) := by
  cases h with
  | clean =>
    exact (Asking.erases_byBackend (Asking.erases_authDbClean data)
      Asking.erases_authTextClean).bind fun _ => Asking.erases_world _
  | dump =>
    exact Asking.erases_byBackend (Asking.erases_authDbDump stamp)
      (Asking.erases_authTextDump stamp)

/-! ### What is looked up -/

/-- What looking up these names keeps, and nothing else can change. -/
structure Asking.Stays (names : List CStr) (J : Asking → Prop) : Prop where
  ask : ∀ x : Asking, ∀ name ∈ names, J x → J (x.noted name)
  set : ∀ (x : Asking) (d : DbWorld), J x → J (Asking.toDb.set x d)

namespace Asking

section Stays

variable {names : List CStr} {J : Asking → Prop} {α : Type}

theorem Stays.keeps_ask (hJ : Stays names J) (hn : name ∈ names) : Keeps J (Asking.ask name) :=
  keeps_act fun x hx => hJ.ask x name hn hx

theorem Stays.keeps_db (hJ : Stays names J) (p : Prog DbWorld α) : Keeps J (zoom toDb p) :=
  keeps_zoom (fun x d hx => hJ.set x d hx) p

theorem Stays.keeps_world (hJ : Stays names J) (p : Prog World α) : Keeps J (zoom toWorld p) :=
  keeps_zoom (fun x w hx => hJ.set x { x.db with world := w } hx) p

theorem keeps_authWriteLines (hJ : Stays names J) (htemp : cstr "authtemp" ∈ names)
    (hfile : cstr "authfile" ∈ names) : Keeps J (authWriteLines f) :=
  (hJ.keeps_ask htemp).bind fun _ => (hJ.keeps_world _).bind fun _ =>
    (hJ.keeps_world _).bind fun _ => (hJ.keeps_world _).bind fun _ =>
      (hJ.keeps_ask htemp).bind fun _ => (hJ.keeps_ask hfile).bind fun _ => hJ.keeps_world _

theorem keeps_authWriteText (hJ : Stays names J) (htemp : cstr "authtemp" ∈ names)
    (hfile : cstr "authfile" ∈ names) : Keeps J authWriteText := by
  refine (hJ.keeps_ask htemp).bind fun _ => (hJ.keeps_world _).bind fun f => ?_
  cases f with
  | none => exact keeps_halt _
  | some f => exact keeps_authWriteLines hJ htemp hfile

theorem keeps_authTextClean (hJ : Stays names J) (hn : cstr "timeout" ∈ names)
    (htemp : cstr "authtemp" ∈ names) (hfile : cstr "authfile" ∈ names) :
    Keeps J authTextClean :=
  (hJ.keeps_world _).bind fun _ => (hJ.keeps_ask hn).bind fun _ => (hJ.keeps_world _).bind fun _ =>
    (hJ.keeps_world _).bind fun _ => (hJ.keeps_world _).bind fun _ => (hJ.keeps_world _).bind
      fun _ => (hJ.keeps_world _).bind fun _ => (hJ.keeps_world _).bind fun _ =>
        (hJ.keeps_world _).bind fun _ => keeps_authWriteText hJ htemp hfile

theorem keeps_authTextDump (hJ : Stays names J) (hn : cstr "dumpfile" ∈ names)
    (stamp : ℤ → Bytes) : Keeps J (authTextDump stamp) := by
  refine (hJ.keeps_ask hn).bind fun _ => (hJ.keeps_world _).bind fun f => ?_
  cases f with
  | none => exact keeps_pure _
  | some f =>
    exact (hJ.keeps_ask hn).bind fun _ => (hJ.keeps_world _).bind fun _ =>
      (hJ.keeps_world _).bind fun _ => hJ.keeps_world _

theorem keeps_authDbClean (hJ : Stays names J) (hn : cstr "timeout" ∈ names)
    (data : DbRecord → ℤ) : Keeps J (authDbClean data) :=
  (hJ.keeps_world _).bind fun _ => (hJ.keeps_ask hn).bind fun _ => (hJ.keeps_world _).bind fun _ =>
    (hJ.keeps_db _).bind fun _ => (hJ.keeps_world _).bind fun _ => hJ.keeps_db _

theorem keeps_authDbDump (hJ : Stays names J) (hn : cstr "dumpfile" ∈ names)
    (stamp : ℤ → Bytes) : Keeps J (authDbDump stamp) := by
  refine (hJ.keeps_ask hn).bind fun _ => (hJ.keeps_world _).bind fun f => ?_
  cases f with
  | none => exact keeps_pure _
  | some f =>
    exact (hJ.keeps_ask hn).bind fun _ => (hJ.keeps_db _).bind fun _ =>
      (hJ.keeps_world _).bind fun _ => (hJ.keeps_db _).bind fun _ => hJ.keeps_world _

end Stays

/-! ### The choice between the backends -/

section Backend

variable {p q : Prog Asking Unit}

theorem byBackend_true : byBackend true p q = ask (cstr "authtype") >>= fun _ =>
    zoom toDb ExactDaemon.authtypeIsDb >>= fun b => if b then p else q := by
  unfold byBackend authtypeIsDb
  rw [if_pos rfl, LawfulMonad.bind_assoc]

theorem run_byBackend_found {v : CStr} (hv : x.db.world.conffileParam (cstr "authtype") = some v) :
    (byBackend true p q).run x =
      (if strcmp v (cstr "db") = 0 then p else q).run (x.noted (cstr "authtype")) := by
  rw [byBackend_true, ask, run_bind, run_modify, Outcome.bind_done,
    run_zoom_same (l := toDb) (t := x.noted _) (run_authtypeIsDb hv)]
  simp only [decide_eq_true_eq]

theorem run_byBackend_missing (hv : x.db.world.conffileParam (cstr "authtype") = none) :
    (byBackend true p q).run x = .halted .undefined (x.noted (cstr "authtype")) := by
  have hnull : ExactDaemon.authtypeIsDb.run x.db = .halted .undefined x.db := by
    have hderef : World.derefParam (cstr "authtype") (DbWorld.toWorld.get x.db) =
        .error .undefined := by
      rw [show DbWorld.toWorld.get x.db = x.db.world from rfl, World.derefParam, hv]
    unfold ExactDaemon.authtypeIsDb
    rw [run_bind, run_zoom, run_attempt_error hderef]
    rfl
  rw [byBackend_true, ask, run_bind, run_modify, Outcome.bind_done, run_bind, run_zoom]
  change (Outcome.inside toDb _ (ExactDaemon.authtypeIsDb.run x.db)).bind _ = _
  rw [hnull]
  rfl

/-- It looks up the authtype, and goes on as that says. -/
theorem state_byBackend {names : List CStr} {J : Asking → Prop} (hJ : Stays names J)
    (htype : withDb = true → cstr "authtype" ∈ names)
    (hp : DbMode withDb x.db.world.conffileParam → Keeps J p)
    (hq : ¬ DbMode withDb x.db.world.conffileParam → Keeps J q) (hx : J x) :
    J ((byBackend withDb p q).run x).state := by
  cases withDb with
  | false => exact (hq fun h => Bool.false_ne_true h.1).state hx
  | true =>
    have hx' := hJ.ask x _ (htype rfl) hx
    cases hv : x.db.world.conffileParam (cstr "authtype") with
    | none =>
      rw [run_byBackend_missing hv]
      exact hx'
    | some v =>
      rw [run_byBackend_found hv]
      split
      · next hdb => exact (hp ⟨rfl, hv.trans (congrArg some (strcmp_eq_zero.mp hdb))⟩).state hx'
      · next hdb =>
        refine (hq fun h => hdb ?_).state hx'
        exact strcmp_eq_zero.mpr (Option.some.inj (hv.symm.trans h.2))

end Backend

/-! ### No other names -/

theorem state_bind {α β : Type} {J : Asking → Prop} {p : Prog Asking α} {g : α → Prog Asking β}
    (hp : J (p.run x).state) (hg : ∀ a, Keeps J (g a)) : J ((p >>= g).run x).state := by
  rw [run_bind]
  cases hr : p.run x with
  | done a y =>
    rw [hr] at hp
    exact (hg a).state hp
  | halted e y =>
    rw [hr] at hp
    exact hp

end Asking

namespace Handler

/-- The handler looks up no other parameters. -/
theorem asked_subset : h.asked withDb data stamp d ⊆ h.lookups withDb d.world.conffileParam := by
  have hJ : ∀ names, Asking.Stays names fun x => x.asked ⊆ names := fun names =>
    ⟨fun x name hn hx => List.append_subset.mpr ⟨hx, List.cons_subset.mpr ⟨hn, List.nil_subset _⟩⟩,
      fun _ _ hx => hx⟩
  have hx : (⟨d, []⟩ : Asking).asked ⊆ h.lookups withDb d.world.conffileParam := List.nil_subset _
  have htype : withDb = true → cstr "authtype" ∈ h.lookups withDb d.world.conffileParam := by
    rintro rfl
    exact List.mem_append_left _ List.mem_cons_self
  cases h with
  | clean =>
    have hn : cstr "timeout" ∈ clean.lookups withDb d.world.conffileParam :=
      List.mem_append_right _ List.mem_cons_self
    refine Asking.state_bind (Asking.state_byBackend (hJ _) htype (fun _ => ?_) (fun hdb => ?_) hx)
      fun _ => (hJ _).keeps_world _
    · exact Asking.keeps_authDbClean (hJ _) hn data
    · have hfiles : ∀ name ∈ [cstr "authtemp", cstr "authfile"],
          name ∈ clean.lookups withDb d.world.conffileParam := by
        intro name hname
        refine List.mem_append_right _ (List.mem_cons_of_mem _ ?_)
        rwa [if_neg (show ¬ DbMode withDb d.world.conffileParam from hdb)]
      exact Asking.keeps_authTextClean (hJ _) hn (hfiles _ (by decide)) (hfiles _ (by decide))
  | dump =>
    have hn : cstr "dumpfile" ∈ dump.lookups withDb d.world.conffileParam :=
      List.mem_append_right _ List.mem_cons_self
    exact Asking.state_byBackend (hJ _) htype (fun _ => Asking.keeps_authDbDump (hJ _) hn stamp)
      (fun _ => Asking.keeps_authTextDump (hJ _) hn stamp) hx

end Handler

/-! ### All of these names -/

namespace Asking

theorem mem_of_done {α β : Type} {p : Prog Asking α} {g : α → Prog Asking β} {a : α} {y : Asking}
    (hp : p.run x = .done a y) (hn : name ∈ ((g a).run y).state.asked) :
    name ∈ ((p >>= g).run x).state.asked := by
  rw [run_bind, hp]
  exact hn

theorem run_world {α : Type} {p : Prog World α} {a : α} {w : World}
    (h : p.run x.db.world = .done a w) :
    (zoom toWorld p).run x = .done a (toWorld.set x w) := by
  rw [run_zoom, show toWorld.get x = x.db.world from rfl, h]
  rfl

/-- What has been looked up stays so. -/
theorem stays_mem (name : CStr) : Stays Handler.names fun x => name ∈ x.asked :=
  ⟨fun _ _ _ hx => List.mem_append_left _ hx, fun _ _ hx => hx⟩

theorem mem_ask {β : Type} {g : Unit → Prog Asking β}
    (hk : Keeps (fun x : Asking => name ∈ x.asked) (ask name >>= g)) :
    name ∈ ((ask name >>= g).run x).state.asked :=
  have hr : (ask name).run x = .done () (x.noted name) := rfl
  mem_of_done hr ((hk.of_bind hr).state (List.mem_append_right _ (List.mem_singleton.mpr rfl)))

/-- A lookup behind a statement on the rest of the state. -/
theorem mem_ask_next {α β : Type} {p : Prog World α} {g : α → Unit → Prog Asking β} {a : α}
    {w : World} (hp : p.run x.db.world = .done a w)
    (hk : Keeps (fun x : Asking => name ∈ x.asked)
      (zoom toWorld p >>= fun a => ask name >>= g a)) :
    name ∈ ((zoom toWorld p >>= fun a => ask name >>= g a).run x).state.asked :=
  mem_of_done (run_world hp) (mem_ask (hk.of_bind (run_world hp)))

/-- The authtype is looked up first, and then what the backend looks up. -/
theorem mem_byBackend {p q : Prog Asking Unit}
    (htype : withDb = true → ∃ v, x.db.world.conffileParam (cstr "authtype") = some v)
    (hp : DbMode withDb x.db.world.conffileParam →
      ∀ y : Asking, y.db = x.db → name ∈ (p.run y).state.asked)
    (hq : ¬ DbMode withDb x.db.world.conffileParam →
      ∀ y : Asking, y.db = x.db → name ∈ (q.run y).state.asked) :
    name ∈ ((byBackend withDb p q).run x).state.asked := by
  cases withDb with
  | false => exact hq (fun h => Bool.false_ne_true h.1) x rfl
  | true =>
    obtain ⟨v, hv⟩ := htype rfl
    rw [run_byBackend_found hv]
    split
    · next hdb => exact hp ⟨rfl, hv.trans (congrArg some (strcmp_eq_zero.mp hdb))⟩ _ rfl
    · next hdb =>
      refine hq (fun h => hdb ?_) _ rfl
      exact strcmp_eq_zero.mpr (Option.some.inj (hv.symm.trans h.2))

theorem mem_authtype {p q : Prog Asking Unit}
    (hp : Keeps (fun x : Asking => cstr "authtype" ∈ x.asked) p)
    (hq : Keeps (fun x : Asking => cstr "authtype" ∈ x.asked) q) :
    cstr "authtype" ∈ ((byBackend true p q).run x).state.asked := by
  have hJ := stays_mem (cstr "authtype")
  rw [byBackend_true]
  exact mem_ask ((hJ.keeps_ask (by decide)).bind fun _ => (hJ.keeps_db _).bind fun _ =>
    keeps_ite hp hq)

/-- The daemon has these parameters and no host, and every file can be written. -/
structure Idle (c : Conf) (x : Asking) : Prop where
  conf : x.db.world.conf = c
  writable : ∀ path, x.db.world.fs.writable path = true
  authCur : x.db.world.tables.authCur = 0

variable {c : Conf}

theorem mem_authWriteText (hx : Idle c x) {tmp : CStr}
    (htmp : x.db.world.conffileParam (cstr "authtemp") = some tmp) :
    cstr "authfile" ∈ (authWriteText.run x).state.asked := by
  have hopen : (attempt fun w => w.fopenWrite (w.conffileParam (cstr "authtemp"))).run
      x.db.world = .done (some x.db.world.fs.nextFd)
        { x.db.world with fs := x.db.world.fs.truncated tmp } := by
    refine run_attempt_ok ?_
    rw [htmp]
    exact World.fopenWrite_ok (hx.writable tmp)
  have hJ := stays_mem (cstr "authfile")
  refine mem_of_done rfl (mem_of_done (run_world (x := x.noted _) hopen) (mem_of_done rfl
    (mem_of_done (run_world (run_read _ _)) (mem_of_done (run_world (run_loop_stop ?_))
      (mem_of_done rfl (mem_of_done rfl (mem_ask
        ((hJ.keeps_ask (by decide)).bind fun _ => hJ.keeps_world _))))))))
  change decide (0 < x.db.world.tables.authCur) = false
  rw [hx.authCur]
  rfl

/-- With the timeout found, the tables are swapped and the relay file is written. -/
theorem mem_authTextClean (hx : Idle c x) {v : CStr}
    (hv : x.db.world.conffileParam (cstr "timeout") = some v)
    (hw : ∀ y : Asking, Idle c y → name ∈ (authWriteText.run y).state.asked) :
    name ∈ (authTextClean.run x).state.asked := by
  have htimeout : (attempt fun w => (w.conffileParamInt (cstr "timeout")).map (·, w)).run
      x.db.world = .done (atoi v) x.db.world := by
    refine run_attempt_ok ?_
    rw [World.conffileParamInt, hv]
    rfl
  refine mem_of_done (run_world (run_read _ _)) (mem_of_done rfl (mem_of_done
    (run_world (x := x.noted _) htimeout) (mem_of_done (run_world (run_read _ _)) (mem_of_done
      (run_world (run_loop_stop ?_)) (mem_of_done (run_world (run_read _ _)) (mem_of_done
        (run_world (run_modify _ _)) (mem_of_done (run_world (run_modify _ _)) (mem_of_done
          (run_world (run_modify _ _)) (hw _ ⟨hx.conf, hx.writable, rfl⟩)))))))))
  change decide (0 < x.db.world.tables.authCur) = false
  rw [hx.authCur]
  rfl

end Asking

namespace Handler

/-- A daemon with these parameters that has nothing to do. -/
def idle (c : Conf) : DbWorld := ⟨{ World.boot [] with conf := c }, .opened, [], []⟩

variable {c : Conf}

theorem conffileParam_idle {y : Asking} (hy : y.db.world.conf = c) :
    y.db.world.conffileParam = (idle c).world.conffileParam :=
  World.conffileParam_congr hy

theorem asking_idle {y : Asking} (hy : y.db = idle c) : Asking.Idle c y := by
  constructor <;> rw [hy]
  · rfl
  · exact fun _ => rfl
  · rfl

/-- If it finds what `auth_clean` looks up, that looks up all of these names. -/
theorem clean_subset_asked (hfound : ∀ name ∈ clean.asked withDb data stamp (idle c),
    ∃ v, (idle c).world.conffileParam name = some v) :
    clean.lookups withDb (idle c).world.conffileParam ⊆
      clean.asked withDb data stamp (idle c) := by
  have hJ := Asking.stays_mem
  have hafter : ∀ name ∈ (((Asking.byBackend withDb (Asking.authDbClean data)
      Asking.authTextClean).run ⟨idle c, []⟩).state.asked),
      name ∈ clean.asked withDb data stamp (idle c) := fun name hn =>
    Asking.state_bind hn fun _ => (hJ name).keeps_world _
  have htype : withDb = true → cstr "authtype" ∈ clean.asked withDb data stamp (idle c) := by
    rintro rfl
    exact hafter _ (Asking.mem_authtype (Asking.keeps_authDbClean (hJ _) (by decide) data)
      (Asking.keeps_authTextClean (hJ _) (by decide) (by decide) (by decide)))
  have htimeout : cstr "timeout" ∈ clean.asked withDb data stamp (idle c) := by
    refine hafter _ (Asking.mem_byBackend (fun hdb => hfound _ (htype hdb)) (fun _ y hy => ?_)
      fun _ y hy => ?_)
    · exact Asking.mem_ask_next (run_read _ _) (Asking.keeps_authDbClean (hJ _) (by decide) data)
    · exact Asking.mem_ask_next (run_read _ _)
        (Asking.keeps_authTextClean (hJ _) (by decide) (by decide) (by decide))
  obtain ⟨v, hv⟩ := hfound _ htimeout
  have hwritten : ∀ name, ¬ DbMode withDb (idle c).world.conffileParam →
      (∀ z : Asking, Asking.Idle c z → name ∈ (Asking.authWriteText.run z).state.asked) →
      name ∈ clean.asked withDb data stamp (idle c) := fun name hdb hz =>
    hafter _ (Asking.mem_byBackend (fun hdb => hfound _ (htype hdb)) (fun h => absurd h hdb)
      fun _ y hy => Asking.mem_authTextClean (asking_idle hy)
        (by rw [conffileParam_idle (asking_idle hy).conf]; exact hv) hz)
  have htemp : ¬ DbMode withDb (idle c).world.conffileParam →
      cstr "authtemp" ∈ clean.asked withDb data stamp (idle c) := fun hdb =>
    hwritten _ hdb fun z _ => Asking.mem_ask
      (Asking.keeps_authWriteText (hJ _) (by decide) (by decide))
  intro name hn
  rcases List.mem_append.mp hn with hn | hn
  · split at hn
    · next hdb =>
      rw [List.mem_singleton.mp hn]
      exact htype hdb
    · cases hn
  rcases List.mem_cons.mp hn with rfl | hn
  · exact htimeout
  split at hn
  · cases hn
  next hdb =>
  rcases List.mem_cons.mp hn with rfl | hn
  · exact htemp hdb
  rw [List.mem_singleton.mp hn]
  obtain ⟨tmp, htmp⟩ := hfound _ (htemp hdb)
  exact hwritten _ hdb fun z hz => Asking.mem_authWriteText hz
    (by rw [conffileParam_idle hz.conf]; exact htmp)

theorem dump_subset_asked (hfound : ∀ name ∈ dump.asked withDb data stamp (idle c),
    ∃ v, (idle c).world.conffileParam name = some v) :
    dump.lookups withDb (idle c).world.conffileParam ⊆ dump.asked withDb data stamp (idle c) := by
  have hJ := Asking.stays_mem
  have htype : withDb = true → cstr "authtype" ∈ dump.asked withDb data stamp (idle c) := by
    rintro rfl
    exact Asking.mem_authtype (Asking.keeps_authDbDump (hJ _) (by decide) stamp)
      (Asking.keeps_authTextDump (hJ _) (by decide) stamp)
  intro name hn
  rcases List.mem_append.mp hn with hn | hn
  · split at hn
    · next hdb =>
      rw [List.mem_singleton.mp hn]
      exact htype hdb
    · cases hn
  rw [List.mem_singleton.mp hn]
  exact Asking.mem_byBackend (fun hdb => hfound _ (htype hdb))
    (fun _ _ _ => Asking.mem_ask (Asking.keeps_authDbDump (hJ _) (by decide) stamp))
    fun _ _ _ => Asking.mem_ask (Asking.keeps_authTextDump (hJ _) (by decide) stamp)

/-- A handler that finds what it looks up, looks up all of these names. -/
theorem subset_asked (hfound : ∀ name ∈ h.asked withDb data stamp (idle c),
    ∃ v, (idle c).world.conffileParam name = some v) :
    h.lookups withDb (idle c).world.conffileParam ⊆ h.asked withDb data stamp (idle c) := by
  cases h with
  | clean => exact clean_subset_asked hfound
  | dump => exact dump_subset_asked hfound

theorem lookups_subset (withDb : Bool) (look : CStr → Option CStr) (h : Handler) :
    h.lookups withDb look ⊆ names := by
  unfold lookups
  refine List.append_subset.mpr ⟨?_, ?_⟩
  · split <;> decide
  · cases h with
    | clean =>
      dsimp only
      split <;> decide
    | dump =>
      change [cstr "dumpfile"] ⊆ names
      decide

theorem lookups_ne_nil (withDb : Bool) (look : CStr → Option CStr) (h : Handler) :
    h.lookups withDb look ≠ [] := by
  cases withDb <;> cases h <;> simp [lookups]

/-- Every handler looks something up. -/
theorem asked_ne_nil : h.asked withDb data stamp (idle c) ≠ [] := by
  intro hnil
  have hsub : h.lookups withDb (idle c).world.conffileParam ⊆ h.asked withDb data stamp (idle c) :=
    subset_asked (by rw [hnil]; exact List.forall_mem_nil _)
  rw [hnil] at hsub
  exact lookups_ne_nil withDb _ h (List.subset_nil.mp hsub)

end Handler

end ExactDaemon
