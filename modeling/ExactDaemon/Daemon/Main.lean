import ExactDaemon.Conf.Visible
import ExactDaemon.Daemon.Daemonize
import ExactDaemon.Lib.Signals

/-! # The whole daemon

`main` with all that it calls and the handlers that it installs, over one state: the world,
the handle of the database, how far a reload has come, and which files `exit_handler` has
removed. What the build and the system decide is a parameter.
-/

namespace ExactDaemon

open Prog DbWorld

/-- What the daemon is built for and finds in its system: whether it has the database and at
which addresses it finds the records, whether it stays in the foreground, its pid, which pids
are alive, and what `daemonize` finds. -/
structure Build extends Platform where
  withDb : Bool
  data : World → DbRecord → ℤ
  foreground : Bool
  pid : ℕ
  alive : ℤ → Bool
  os : Os

/-- A system in which a user who is not root starts the program in the root directory. -/
def Os.simple : Os where
  workingFork := true
  cred := ⟨.only 1, .only 1, []⟩
  getgrnam _ := none
  getpwnam _ := none
  fork _ := some .child
  setsid := true
  chdir := true
  inRoot := true

/-- A build without the database, in the foreground. -/
def Build.simple : Build where
  toPlatform := .simple
  withDb := false
  data _ _ := 0
  foreground := true
  pid := 1
  alive _ := false
  os := .simple

/-- The signals with a handler. -/
inductive Signal | hup | alrm | usr1 | term
  deriving DecidableEq, Repr

/-- `removed` are the parameters whose files `exit_handler` has unlinked. -/
structure Daemon where
  db : DbWorld
  freed : ℕ
  lines : Option ℕ
  removed : List CStr

/-! ### onepass

The loop over the buffer on a part of a larger state, with a `line` that may use the rest. -/

section OnePass

variable {τ : Type} (l : Lens τ World) (line : CStr → Prog τ Unit)

def scanByteIn (i : ℕ) (b : ℕ × List CStr) : Prog τ (ℕ × List CStr) := do
  let c ← zoom l (attempt fun w => (w.tailByte i).map (·, w))
  if isStop c then
    zoom l (modify (·.endLine i))
    let s ← zoom l (read (·.tailString b.1))
    line s
    pure (i + 1, b.2 ++ [s])
  else
    pure b

def scanRoundIn (i : ℕ) (b : ℕ × List CStr) : Prog τ (ℕ × List CStr) := do
  let b' ← scanByteIn l line i b
  if (i : ℤ) = intMax then halt .undefined else pure b'

def scanLinesIn : Prog τ (List CStr) := do
  let n ← zoom l (read (·.tail.tailBufflen + 1))
  let b ← loop (fun i t => i < (l.get t).tail.tailBufflen) (scanRoundIn l line) n 0 (0, [])
  pure b.2

def onepassIn : Prog τ (List CStr) := do
  zoom l tailRead
  scanLinesIn l line

/-- With a `line` that uses the part alone, this is the loop on the part. -/
theorem zoom_onepass (line : CStr → Prog World Unit) :
    onepassIn l (fun s => zoom l (line s)) = zoom l (onepass line) := by
  have hbyte : ∀ i b, scanByteIn l (fun s => zoom l (line s)) i b = zoom l (scanByte line i b) := by
    intro i b
    unfold scanByteIn scanByte
    rw [zoom_bind]
    refine congrArg _ (funext fun c => ?_)
    by_cases hc : isStop c = true
    · rw [if_pos hc, if_pos hc, zoom_bind]
      refine congrArg _ (funext fun _ => ?_)
      rw [zoom_bind]
      refine congrArg _ (funext fun s => ?_)
      rw [zoom_bind]
      rfl
    · rw [if_neg hc, if_neg hc]
      rfl
  have hround : scanRoundIn l (fun s => zoom l (line s)) =
      fun i b => zoom l (scanRound line i b) := by
    funext i b
    unfold scanRoundIn scanRound
    rw [hbyte, zoom_bind]
    exact congrArg _ (funext fun b' => (zoom_ite (.halt .undefined) (.ret b')).symm)
  unfold onepassIn onepass scanLinesIn scanLines
  rw [hround, zoom_bind, zoom_bind]
  refine congrArg _ (funext fun _ => congrArg _ (funext fun n => ?_))
  rw [zoom_bind, zoom_loop]
  rfl

end OnePass

/-! ### Starting -/

/-- `checkpid`; `alive` tells for which pids `kill (pid, 0)` succeeds. -/
def checkpid (alive : ℤ → Bool) : Prog World Unit := do
  let path ← attempt (World.derefParam (cstr "pidfile"))
  let f ← read fun w => w.fs.contents path
  match f with
  | none => pure ()
  | some text => if atoi text ≠ 0 ∧ alive (atoi text) then halt (.exit 41) else pure ()

/-- `writepid`. -/
def writepid (pid : ℕ) : Prog World Unit := do
  let f ← attempt fun w => w.fopenWrite (w.conffileParam (cstr "pidfile"))
  match f with
  | none => halt (.exit 42)
  | some f => do
    modify (·.fprintf f (decimal pid))
    modify (·.fclose f)

namespace World

/-- Whether the log goes to syslog. -/
def useSyslog (w : World) : Except Halt (Bool × World) :=
  match w.conffileParam (cstr "logging") with
  | none => .error .undefined
  | some v =>
    if strcmp (cstr "syslog") v = 0 then .ok (true, w)
    else if strcmp (cstr "internal") v = 0 then .ok (false, w)
    else .error (.exit 100)

/-- `logger_init`, which appends to the log file, or to the standard error without one. -/
def loggerInit (useSyslog : Bool) (w : World) : Except Halt (Unit × World) :=
  if useSyslog then .ok ((), w)
  else
    match w.conffileParam (cstr "logfile") with
    | none => .ok ((), w)
    | some path =>
      if w.fs.writable path then .ok ((), w.ensureFile (some path)) else .error (.exit 100)

end World

/-- What `main` does about the log. -/
def initLogging (foreground : Bool) : Prog World Unit := do
  let useSyslog ← attempt World.useSyslog
  if foreground then pure () else attempt (World.loggerInit useSyslog)

namespace Daemon

def toDb : Lens Daemon DbWorld where
  get := db
  set s d := { s with db := d }
  get_set _ _ := rfl
  set_get _ := rfl
  set_set _ _ _ := rfl

def toWorld : Lens Daemon World where
  get s := s.db.world
  set s w := { s with db := { s.db with world := w } }
  get_set _ _ := rfl
  set_get _ := rfl
  set_set _ _ _ := rfl

def toReloading : Lens Daemon Reloading where
  get s := ⟨s.db.world, s.freed, s.lines⟩
  set s r := { s with db := { s.db with world := r.world }, freed := r.freed, lines := r.lines }
  get_set _ _ := rfl
  set_get _ := rfl
  set_set _ _ _ := rfl

/-- The daemon before `main`. -/
def boot (w : World) (faults : List Bool) : Daemon := ⟨⟨w, .unset, [], faults⟩, 0, none, []⟩

/-- `main` up to its loop. -/
def start (b : Build) : Prog Daemon Unit := do
  zoom toWorld (conffileRead b.lib)
  zoom toWorld (conffileCheck b.lib)
  zoom toWorld (checkpid b.alive)
  zoom toWorld (matchInit b.lib)
  let _ ← zoom toWorld (b.os.daemonize b.foreground)
  zoom toDb (DbWorld.authInit b.withDb)
  zoom toWorld (initLogging b.foreground)
  zoom toWorld (writepid b.pid)
  let opened ← zoom toWorld tailOpen
  if opened then pure () else halt (.exit 2)

/-! ### The loop of main -/

/-- What `onepass` does with a string. -/
def handLine (b : Build) (buff : CStr) : Prog Daemon Unit := do
  let l ← zoom toWorld (matchLine b.lib buff)
  match l with
  | some l => zoom toDb (DbWorld.authAdd b.withDb b.libc l.username l.hostname)
  | none => pure ()

def onepass (b : Build) : Prog Daemon (List CStr) := onepassIn toWorld (handLine b)

/-- The loop of `main`, cut off after `n` rounds. -/
def mainLoop (b : Build) : ℕ → Prog Daemon Unit
  | 0 => halt .diverged
  | n + 1 => do
    let _ ← onepass b
    mainLoop b n

/-! ### The handlers -/

/-- The first lookup of a handler looks at the first entry of the table, which is undefined
behaviour if a block of it was given back. -/
def lookUp : Prog Daemon Unit :=
  attempt fun s => if s.freed = 0 then .ok ((), s) else .error .undefined

/-- `unlink (conffile_param (name))`. -/
def unlinkParam (name : CStr) (s : Daemon) : Except Halt (Unit × Daemon) :=
  if s.freed = 0 then
    (s.db.world.unlinkParam name).map fun r =>
      ((), { toWorld.set s r.2 with removed := name :: s.removed })
  else .error .undefined

/-- `if (!cmd.preserve) unlink (conffile_param ("authfile"))`. -/
def removeAuthfile (preserve : Bool) : Prog Daemon Unit :=
  if preserve then pure () else attempt (unlinkParam (cstr "authfile"))

def exitHandler (withDb preserve : Bool) : Prog Daemon Unit := do
  attempt (unlinkParam (cstr "pidfile"))
  zoom toDb (authExit withDb)
  removeAuthfile preserve
  attempt fun _ => .error (.exit 0)

def handler (b : Build) : Signal → Prog Daemon Unit
  | .hup => do
    zoom toReloading (Reloading.conffileReload b.onLiteral b.lib)
    modify ({ · with lines := none })
  | .alrm => do
    lookUp
    let w ← read (·.db.world)
    zoom toDb (DbWorld.authClean b.withDb (b.data w))
  | .usr1 => do
    lookUp
    zoom toDb (authDump b.withDb b.stamp)
  | .term => exitHandler b.withDb b.preserve

end Daemon

/-- Without the database, the loop works on the world alone. -/
theorem onepass_text {b : Build} (hb : b.withDb = false) :
    Daemon.onepass b =
      zoom Daemon.toWorld (ExactDaemon.onepass (ExactDaemon.handLine b.lib b.libc)) := by
  have hline : Daemon.handLine b =
      fun s => zoom Daemon.toWorld (ExactDaemon.handLine b.lib b.libc s) := by
    funext s
    unfold Daemon.handLine ExactDaemon.handLine
    rw [zoom_bind]
    refine congrArg _ (funext fun l => ?_)
    cases l with
    | none => rfl
    | some l =>
      dsimp only
      unfold DbWorld.authAdd byBackend
      rw [hb]
      exact zoom_zoom _
  unfold Daemon.onepass
  rw [hline, zoom_onepass]

/-! ### The marks change nothing -/

section Marks

open Daemon

variable {s : Daemon} {name : CStr}

theorem mapState_unlinkParam (hs : s.freed = 0) (name : CStr) :
    ((attempt (unlinkParam name)).run s).mapState db =
      (zoom DbWorld.toWorld (attempt (World.unlinkParam name))).run s.db := by
  rw [run_attempt, unlinkParam, if_pos hs, run_zoom, run_attempt]
  rw [show DbWorld.toWorld.get s.db = s.db.world from rfl]
  cases s.db.world.unlinkParam name <;> rfl

theorem unfreed_unlinkParam {a : Unit} {t : Daemon}
    (h : (attempt (unlinkParam name)).run s = .done a t) : t.freed = 0 := by
  have hf := attempt_done h
  unfold unlinkParam at hf
  split at hf
  · next hs =>
    cases hu : s.db.world.unlinkParam name with
    | error e =>
      rw [hu] at hf
      cases hf
    | ok r =>
      rw [hu] at hf
      cases hf
      exact hs
  · cases hf

/-- While the table is whole this is the handler of the daemon. -/
theorem mapState_exitHandler (hs : s.freed = 0) (withDb preserve : Bool) :
    ((Daemon.exitHandler withDb preserve).run s).mapState db =
      (ExactDaemon.exitHandler withDb preserve).run s.db := by
  refine mapState_bind (mapState_unlinkParam hs _) (I := fun t => t.freed = 0)
    (fun _ _ h => unfreed_unlinkParam h) fun _ t ht => ?_
  refine mapState_bind (erases_zoom (l := toDb) _ t) (I := fun t => t.freed = 0) ?_
    fun _ u hu => ?_
  · intro _ u h
    have hk : Keeps (fun t : Daemon => t.freed = 0) (zoom toDb (DbWorld.authExit withDb)) :=
      keeps_zoom (fun _ _ h => h) _
    exact hk.run_done ht h
  refine mapState_bind (q := ExactDaemon.removeAuthfile preserve) (I := fun _ => True) ?_
    (fun _ _ _ => trivial) ?_
  · unfold Daemon.removeAuthfile ExactDaemon.removeAuthfile
    cases preserve with
    | true => rfl
    | false => exact mapState_unlinkParam hu _
  · intro _ t _
    rfl
end Marks

end ExactDaemon
