import ExactDaemon.Conf.Entries
import ExactDaemon.Lib.Points

/-! # Calls that read, check and reload

Any sequence of calls of `conffile_read`, `conffile_check` and `conffile_reload`, while the
files change in between. A ledger is kept beside the state: the indices at which `param` is
stored to, what the pointers in it point to, and what is passed to `free`.
-/

namespace ExactDaemon

open Prog

/-- A call, or a change of the files before the next one. -/
inductive ConfCall where
  | files (fs : Fs)
  | read
  | check
  | reload

def ConfCall.call (onLiteral : Except Halt Unit) (lib : RegexLib) : ConfCall → Prog World Unit
  | files fs => modify ({ · with fs := fs })
  | read => conffileRead lib
  | check => conffileCheck lib
  | reload => conffileReload onLiteral lib

def confCalls (onLiteral : Except Halt Unit) (lib : RegexLib) (cs : List ConfCall) :
    Prog World Unit := cs.forM fun c => c.call onLiteral lib

/-- What a pointer of `param` points to: a block from `malloc` or `strdup`, by its number, or
a string literal. -/
inductive Pointer | block (i : ℕ) | literal
  deriving DecidableEq, Repr

structure Ledger where
  world : World
  /-- The indices of `param` that were stored at. -/
  stores : List ℕ
  /-- The pointers in `param[0..param_max)`. -/
  table : List (Pointer × Pointer)
  /-- The number of blocks that were ever allocated, and those of them not freed yet. -/
  next : ℕ
  live : List ℕ
  /-- For each pointer that was passed to `free`, whether it was that of a live block. -/
  frees : List Bool
  /-- The states in which `conffile_read`, `conffile_check` and `conffile_free` were called. -/
  reads : List World
  checks : List World
  reloads : List World

/-- What `conffile_check` does before `server_check`. -/
def confChecks : Prog World Unit := do
  (requiredS.take 6).forM fun name => attempt (World.require name)
  requiredI.forM fun name => attempt (World.requireInt name)

theorem conffileCheck_eq (lib : RegexLib) :
    conffileCheck lib = confChecks >>= fun _ => serverCheck lib := by
  unfold conffileCheck confChecks
  rw [LawfulMonad.bind_assoc]

namespace Ledger

def toWorld : Lens Ledger World where
  get := world
  set s w := { s with world := w }
  get_set _ _ := rfl
  set_get _ := rfl
  set_set _ _ _ := rfl

/-- The first call, with an empty table. -/
def start (w : World) : Ledger := ⟨w.withParam [], [], [], 0, [], [], [], [], []⟩

/-- `param[param_max]` gets a name of its own, from `malloc`, and a value. -/
def enterBlock (s : Ledger) : Ledger :=
  { s with
    stores := s.stores ++ [s.world.conf.param.length]
    table := s.table ++ [(.block s.next, .block (s.next + 1))]
    next := s.next + 2
    live := s.live ++ [s.next, s.next + 1] }

/-- `param[param_max]` gets a literal for its name, and a value from `strdup`. -/
def enterLiteral (s : Ledger) : Ledger :=
  { s with
    stores := s.stores ++ [s.world.conf.param.length]
    table := s.table ++ [(.literal, .block s.next)]
    next := s.next + 1
    live := s.live ++ [s.next] }

/-- `free` -/
def free (s : Ledger) : Pointer → Ledger
  | .block b => { s with frees := s.frees ++ [decide (b ∈ s.live)], live := s.live.filter (· ≠ b) }
  | .literal => { s with frees := s.frees ++ [false] }

/-- `free` of a pointer of the table, if the entry is there. -/
def freeAt (s : Ledger) : Option Pointer → Ledger
  | some p => s.free p
  | none => s

def noteRead (s : Ledger) : Ledger := { s with reads := s.reads ++ [s.world] }
def noteCheck (s : Ledger) : Ledger := { s with checks := s.checks ++ [s.world] }
def noteReload (s : Ledger) : Ledger := { s with reloads := s.reloads ++ [s.world] }

def readLine (lib : RegexLib) (l : Bytes) : Prog Ledger Unit := do
  modify fun s =>
    match Conf.lineParam lib l with
    | .ok (some _) => s.enterBlock
    | _ => s
  zoom toWorld (attempt (World.onConf (Conf.readLine lib l)))

def conffileLines (lib : RegexLib) : ℕ → Reader → Prog Ledger Unit
  | 0, _ => halt .diverged
  | n + 1, f =>
    match f.fgets 1023 with
    | (none, _) => pure ()
    | (some l, f) => do
      readLine lib l
      conffileLines lib n f

def conffileRead (lib : RegexLib) : Prog Ledger Unit := do
  modify noteRead
  let f ← read fun s => s.world.fs.contents s.world.conf.filename
  match f with
  | none => halt (.exit 5)
  | some text => conffileLines lib (text.length + 1) ⟨text, false⟩

def addLiteral (name : CStr) (value : Option CStr) : Prog Ledger Unit := do
  modify enterLiteral
  zoom toWorld (attempt (World.addLiteral name value))

def serverCheck (lib : RegexLib) : Prog Ledger Unit := do
  let serverdefs ← zoom toWorld (attempt (World.derefParam (cstr "serverdefs")))
  let s ← zoom toWorld (attempt (World.serverSection lib serverdefs))
  addLiteral (cstr "order") s.order
  addLiteral (cstr "match") s.pattern
  zoom toWorld (do
    attempt (World.oneOf (cstr "order") (cstr "username,address") (cstr "address,username"))
    attempt (World.oneOf (cstr "authtype") (cstr "db") (cstr "text")))

def conffileCheck (lib : RegexLib) : Prog Ledger Unit := do
  modify noteCheck
  zoom toWorld confChecks
  serverCheck lib

/-- `free (param[i].name)` and `free (param[i].value)`. -/
def freeEntry (onLiteral : Except Halt Unit) (i : ℕ) : Prog Ledger Unit := do
  modify fun s => s.freeAt (s.table[i]?.map Prod.fst)
  zoom toWorld (attempt (World.freeName onLiteral i))
  modify fun s => s.freeAt (s.table[i]?.map Prod.snd)

def conffileFree (onLiteral : Except Halt Unit) : Prog Ledger Unit := do
  modify noteReload
  let n ← read (·.world.conf.param.length + 1)
  loop (fun i s => i < s.world.conf.param.length) (fun i _ => freeEntry onLiteral i) n 0 ()
  modify fun s => { s with world := s.world.withParam [], table := [] }

def conffileReload (onLiteral : Except Halt Unit) (lib : RegexLib) : Prog Ledger Unit := do
  conffileFree onLiteral
  conffileRead lib
  conffileCheck lib

def call (onLiteral : Except Halt Unit) (lib : RegexLib) : ConfCall → Prog Ledger Unit
  | .files fs => zoom toWorld (modify ({ · with fs := fs }))
  | .read => conffileRead lib
  | .check => conffileCheck lib
  | .reload => conffileReload onLiteral lib

def calls (onLiteral : Except Halt Unit) (lib : RegexLib) (cs : List ConfCall) :
    Prog Ledger Unit := cs.forM fun c => call onLiteral lib c

end Ledger

open Ledger

variable {lib : RegexLib} {onLiteral : Except Halt Unit} {s : Ledger} {l : Bytes} {p : Param}
  {e : Halt} {name : CStr} {n : ℕ} {f f' : Reader}

/-! ### The ledger changes nothing -/

theorem world_freeAt (s : Ledger) (o : Option Pointer) : (s.freeAt o).world = s.world := by
  rcases o with _ | _ | _ <;> rfl

theorem erases_ledger_readLine (l : Bytes) : Erases world (Ledger.readLine lib l)
    (attempt (World.onConf (Conf.readLine lib l))) := by
  refine Erases.skip (fun s => ?_) (erases_zoom (l := toWorld) _)
  rcases Conf.lineParam lib l with e | _ | p <;> rfl

theorem erases_ledger_lines (n : ℕ) (f : Reader) :
    Erases world (Ledger.conffileLines lib n f) (ExactDaemon.conffileLines lib n f) := by
  induction n generalizing f with
  | zero => exact erases_halt _
  | succ n ih =>
    unfold Ledger.conffileLines ExactDaemon.conffileLines
    obtain ⟨l, f'⟩ := f.fgets 1023
    cases l with
    | none => exact erases_pure ()
    | some l => exact (erases_ledger_readLine l).bind fun _ => ih _

theorem erases_ledger_read :
    Erases world (Ledger.conffileRead lib) (ExactDaemon.conffileRead lib) := by
  refine Erases.skip (fun _ => rfl) (Erases.bind (erases_read fun _ => rfl) fun f => ?_)
  cases f with
  | none => exact erases_halt _
  | some text => exact erases_ledger_lines _ _

theorem erases_ledger_check :
    Erases world (Ledger.conffileCheck lib) (ExactDaemon.conffileCheck lib) := by
  have hserver : Erases world (Ledger.serverCheck lib) (ExactDaemon.serverCheck lib) := by
    refine (erases_zoom (l := toWorld) _).bind fun sd => ?_
    refine (erases_zoom (l := toWorld) _).bind fun sec => ?_
    refine Erases.bind (Erases.skip (fun _ => rfl) (erases_zoom (l := toWorld) _)) fun _ => ?_
    exact Erases.bind (Erases.skip (fun _ => rfl) (erases_zoom (l := toWorld) _)) fun _ =>
      erases_zoom (l := toWorld) _
  rw [conffileCheck_eq]
  exact Erases.skip (fun _ => rfl) ((erases_zoom (l := toWorld) _).bind fun _ => hserver)

theorem erases_ledger_free :
    Erases world (Ledger.conffileFree onLiteral) (ExactDaemon.conffileFree onLiteral) := by
  refine Erases.skip (fun _ => rfl) (Erases.bind (erases_read fun _ => rfl) fun n => ?_)
  have hentry : ∀ i (_ : Unit), Erases world (freeEntry onLiteral i)
      (attempt (World.freeName onLiteral i)) := by
    intro i _
    have hend : Erases world (modify fun s => s.freeAt (s.table[i]?.map Prod.snd)) (pure ()) :=
      fun s => congrArg (Outcome.done ()) (world_freeAt s _)
    have hname := (erases_zoom (l := toWorld) (attempt (World.freeName onLiteral i))).bind
      fun _ => hend
    rw [bind_pure_unit] at hname
    exact Erases.skip (fun s => world_freeAt s _) hname
  refine Erases.bind ?_ fun _ => erases_modify fun _ => rfl
  apply erases_loop _ hentry
  exact fun _ _ => rfl

theorem erases_ledger_call (c : ConfCall) :
    Erases world (Ledger.call onLiteral lib c) (c.call onLiteral lib) := by
  cases c with
  | files fs => exact erases_zoom (l := toWorld) _
  | read => exact erases_ledger_read
  | check => exact erases_ledger_check
  | reload =>
    exact erases_ledger_free.bind fun _ => erases_ledger_read.bind fun _ => erases_ledger_check

/-- Without the ledger, the calls are those of the daemon. -/
theorem erases_calls (cs : List ConfCall) :
    Erases world (Ledger.calls onLiteral lib cs) (confCalls onLiteral lib cs) := by
  induction cs with
  | nil => exact erases_pure ()
  | cons c cs ih => exact (erases_ledger_call c).bind fun _ => ih

/-! ### What a line and a literal do -/

/-- The ledger with a further parameter in the table. -/
def Ledger.push (s : Ledger) (p : Param) : Ledger :=
  { s with world := s.world.withParam (s.world.conf.param ++ [p]) }

theorem run_readLine_error (hl : Conf.lineParam lib l = .error e) :
    (Ledger.readLine lib l).run s = .halted e s := by
  have hconf : s.world.onConf (Conf.readLine lib l) = .error e := by
    rw [World.onConf, readLine_eq, hl]
    rfl
  unfold Ledger.readLine
  rw [run_bind, run_modify, Outcome.bind_done, run_zoom, hl]
  rw [run_attempt_error (s := toWorld.get s) hconf]
  rfl

theorem run_readLine_skip (hl : Conf.lineParam lib l = .ok none) :
    (Ledger.readLine lib l).run s = .done () s := by
  have hconf : s.world.onConf (Conf.readLine lib l) = .ok ((), s.world) := by
    rw [World.onConf, readLine_eq, hl]
    rfl
  unfold Ledger.readLine
  rw [run_bind, run_modify, Outcome.bind_done, run_zoom, hl]
  rw [run_attempt_ok (s := toWorld.get s) hconf]
  rfl

theorem run_readLine_store (hl : Conf.lineParam lib l = .ok (some p))
    (hlt : s.world.conf.param.length < paramSize) :
    (Ledger.readLine lib l).run s = .done () (s.enterBlock.push p) := by
  have hconf : s.world.onConf (Conf.readLine lib l) =
      .ok ((), s.world.withParam (s.world.conf.param ++ [p])) := by
    rw [World.onConf, readLine_eq, hl]
    change (s.world.conf.add p).map _ = _
    rw [add_of_lt hlt]
    rfl
  unfold Ledger.readLine
  rw [run_bind, run_modify, Outcome.bind_done, run_zoom, hl]
  rw [run_attempt_ok (s := toWorld.get s.enterBlock) hconf]
  rfl

theorem run_readLine_full (hl : Conf.lineParam lib l = .ok (some p))
    (hfull : paramSize ≤ s.world.conf.param.length) :
    (Ledger.readLine lib l).run s = .halted .undefined s.enterBlock := by
  have hconf : s.world.onConf (Conf.readLine lib l) = .error .undefined := by
    rw [World.onConf, readLine_eq, hl]
    change (s.world.conf.add p).map _ = _
    rw [add_of_full hfull]
    rfl
  unfold Ledger.readLine
  rw [run_bind, run_modify, Outcome.bind_done, run_zoom, hl]
  rw [run_attempt_error (s := toWorld.get s.enterBlock) hconf]
  rfl

theorem run_addLiteral_none :
    (Ledger.addLiteral name none).run s = .halted .undefined s.enterLiteral := rfl

theorem run_addLiteral_store {v : CStr} (hlt : s.world.conf.param.length < paramSize) :
    (Ledger.addLiteral name (some v)).run s = .done () (s.enterLiteral.push ⟨name, v, true⟩) := by
  have hconf : s.world.addLiteral name (some v) =
      .ok ((), s.world.withParam (s.world.conf.param ++ [⟨name, v, true⟩])) := by
    simp only [World.addLiteral, World.onConf]
    rw [add_of_lt hlt]
    rfl
  unfold Ledger.addLiteral
  rw [run_bind, run_modify, Outcome.bind_done, run_zoom]
  rw [run_attempt_ok (s := toWorld.get s.enterLiteral) hconf]
  rfl

theorem run_addLiteral_full {v : CStr} (hfull : paramSize ≤ s.world.conf.param.length) :
    (Ledger.addLiteral name (some v)).run s = .halted .undefined s.enterLiteral := by
  have hconf : s.world.addLiteral name (some v) = .error .undefined := by
    simp only [World.addLiteral, World.onConf]
    rw [add_of_full hfull]
    rfl
  unfold Ledger.addLiteral
  rw [run_bind, run_modify, Outcome.bind_done, run_zoom]
  rw [run_attempt_error (s := toWorld.get s.enterLiteral) hconf]
  rfl

theorem ledger_lines_none (h : (f.fgets 1023).1 = none) :
    Ledger.conffileLines lib (n + 1) f = pure () := by
  rw [Ledger.conffileLines]
  split
  · rfl
  · next hs =>
    rw [hs] at h
    cases h

theorem ledger_lines_some (h : f.fgets 1023 = (some l, f')) :
    Ledger.conffileLines lib (n + 1) f =
      (Ledger.readLine lib l >>= fun _ => Ledger.conffileLines lib n f') := by
  rw [Ledger.conffileLines, h]

/-- A program on the state leaves the ledger beside it alone. -/
theorem state_zoom_toWorld {α : Type} (p : Prog World α) (s : Ledger) :
    ((zoom toWorld p).run s).state = { s with world := (p.run s.world).state } := by
  rw [run_zoom, Outcome.state_inside]
  rfl

end ExactDaemon
