import ExactDaemon.Lib.Decimal
import ExactDaemon.Lib.Follow
import ExactDaemon.Lib.Machine

/-! # The pid file

Several daemons with one pid file: each looks into the file for a daemon that is still
alive (`checkpid`), becomes a background process, writes its own pid into the file
(`writepid`), and removes the file when it is terminated (`exit_handler`). Their steps may
come in any order.
-/

namespace ExactDaemon

namespace PidFile

/-- Where a daemon stands. -/
inductive Phase where
  | absent
  | started
  /-- `checkpid` has the file with this inode open. -/
  | looking (ino : ℕ)
  /-- `checkpid` has read this pid. -/
  | probing (opid : ℤ)
  /-- No daemon was found; the number of forks made since. -/
  | passed (forks : ℕ)
  /-- `writepid` has the file with this inode open. -/
  | writing (ino : ℕ)
  | written
  /-- In the loop of `main`. -/
  | loop
  /-- `exit_handler` has removed the file. -/
  | exiting
  deriving DecidableEq, Repr

def Phase.isWriting : Phase → Bool
  | .writing _ => true
  | _ => false

/-- The daemon has opened the file for writing and not removed it. -/
def Phase.isClaiming : Phase → Bool
  | .writing _ | .written | .loop => true
  | _ => false

/-- What a pid belongs to. -/
inductive Owner where
  | daemon (i : ℕ)
  | other
  deriving DecidableEq, Repr

/-- The disk, the live processes by their pid, and the daemons by their number. The last
field is history: which daemons have opened the file for writing since a daemon opened it
for reading, or were still about to write when it read. -/
structure System where
  disk : Disk
  table : ℕ → Option Owner
  pid : ℕ → ℕ
  phase : ℕ → Phase
  ahead : ℕ → ℕ → Bool

inductive Event where
  | start (i pid : ℕ)
  | look (i : ℕ)
  | scan (i : ℕ)
  | probe (i : ℕ)
  | fork (i pid : ℕ)
  | create (i : ℕ)
  | print (i : ℕ)
  | enter (i : ℕ)
  | unlink (i : ℕ)
  | finish (i : ℕ)
  | spawn (pid : ℕ)
  | reap (pid : ℕ)
  deriving DecidableEq, Repr

namespace System

/-- What `getpid` can return for a new process. -/
def Fresh (s : System) (pid : ℕ) : Prop := 0 < pid ∧ (pid : ℤ) ≤ intMax ∧ s.table pid = none

instance (s : System) (pid : ℕ) : Decidable (s.Fresh pid) :=
  inferInstanceAs (Decidable (_ ∧ _ ∧ _))

/-- `kill (opid, 0)` does not fail. -/
def kill (s : System) (opid : ℤ) : Bool := 0 < opid && (s.table opid.toNat).isSome

def setPhase (s : System) (i : ℕ) (p : Phase) : System :=
  { s with phase := Function.update s.phase i p }

@[simp] theorem phase_setPhase_self (s : System) (i : ℕ) (p : Phase) :
    (s.setPhase i p).phase i = p := Function.update_self _ _ _

theorem phase_setPhase_of_ne (s : System) {i j : ℕ} (p : Phase) (h : j ≠ i) :
    (s.setPhase i p).phase j = s.phase j := Function.update_of_ne h _ _

def setOwner (s : System) (pid : ℕ) (o : Option Owner) : System :=
  { s with table := Function.update s.table pid o }

def start (s : System) (i pid : ℕ) : System :=
  { (s.setPhase i .started).setOwner pid (some (.daemon i)) with
    pid := Function.update s.pid i pid }

/-- `fopen (path, "r")` of `checkpid`. -/
def look (path : CStr) (s : System) (i : ℕ) : System :=
  { s.setPhase i (match s.disk.dir path with
      | none => .passed 0
      | some k => .looking k) with
    ahead := Function.update s.ahead i fun _ => false }

/-- The `fscanf` of `checkpid`. -/
def scan (s : System) (i ino : ℕ) : System :=
  { s.setPhase i (.probing (atoi (s.disk.data ino))) with
    ahead := Function.update s.ahead i fun j => s.ahead i j || (s.phase j).isWriting }

/-- The process ends. -/
def finish (s : System) (i : ℕ) : System := (s.setPhase i .absent).setOwner (s.pid i) none

/-- The rest of `checkpid`. -/
def probe (s : System) (i : ℕ) (opid : ℤ) : System :=
  if opid ≠ 0 ∧ s.kill opid then s.finish i else s.setPhase i (.passed 0)

/-- The child goes on as the daemon, and the parent is about to exit. -/
def fork (s : System) (i forks pid : ℕ) : System :=
  { ((s.setPhase i (.passed (forks + 1))).setOwner (s.pid i) (some .other)).setOwner pid
      (some (.daemon i)) with
    pid := Function.update s.pid i pid }

/-- The inode that `fopen (path, "w")` of `writepid` opens. -/
def target (path : CStr) (s : System) : ℕ := (s.disk.dir path).getD s.disk.nextIno

/-- `fopen (path, "w")` of `writepid`. -/
def create (path : CStr) (s : System) (i : ℕ) : System :=
  { s.setPhase i (.writing (s.target path)) with
    disk :=
      { dir := Function.update s.disk.dir path (some (s.target path))
        data := Function.update s.disk.data (s.target path) []
        nextIno := if s.disk.dir path = none then s.disk.nextIno + 1 else s.disk.nextIno }
    ahead := fun j k => k = i || s.ahead j k }

/-- The `fprintf` and the `fclose` of `writepid`. -/
def print (s : System) (i ino : ℕ) : System :=
  { s.setPhase i .written with
    disk := { s.disk with
      data := Function.update s.disk.data ino
        (overwrite (s.disk.data ino) 0 (decimal (s.pid i))) } }

/-- The `unlink` of `exit_handler`. -/
def unlink (path : CStr) (s : System) (i : ℕ) : System :=
  { s.setPhase i .exiting with
    disk := { s.disk with dir := Function.update s.disk.dir path none } }

end System

/-- One step of one process. A daemon in the background has forked twice, one in the
foreground not at all. The handler for the termination is installed after `writepid`. -/
def step (path : CStr) (s : System) : Event → Option System
  | .start i pid => if s.phase i = .absent ∧ s.Fresh pid then some (s.start i pid) else none
  | .look i => if s.phase i = .started then some (s.look path i) else none
  | .scan i =>
    match s.phase i with
    | .looking ino => some (s.scan i ino)
    | _ => none
  | .probe i =>
    match s.phase i with
    | .probing opid => some (s.probe i opid)
    | _ => none
  | .fork i pid =>
    match s.phase i with
    | .passed forks => if forks < 2 ∧ s.Fresh pid then some (s.fork i forks pid) else none
    | _ => none
  | .create i =>
    match s.phase i with
    | .passed forks => if forks = 0 ∨ forks = 2 then some (s.create path i) else none
    | _ => none
  | .print i =>
    match s.phase i with
    | .writing ino => some (s.print i ino)
    | _ => none
  | .enter i => if s.phase i = .written then some (s.setPhase i .loop) else none
  | .unlink i =>
    if s.phase i = .written ∨ s.phase i = .loop then some (s.unlink path i) else none
  | .finish i => if s.phase i ≠ .absent then some (s.finish i) else none
  | .spawn pid => if s.Fresh pid then some (s.setOwner pid (some .other)) else none
  | .reap pid => if s.table pid = some .other then some (s.setOwner pid none) else none

/-- No daemon, no other process, and no pid file. -/
def System.boot : System := ⟨⟨fun _ => none, fun _ => [], 0⟩, fun _ => none, fun _ => 0,
  fun _ => .absent, fun _ _ => false⟩

/-- At most one daemon is in the loop, and the file holds its pid. -/
structure Exclusive (path : CStr) (s : System) : Prop where
  one : ∀ i j, s.phase i = .loop → s.phase j = .loop → i = j
  file : ∀ i, s.phase i = .loop → ∃ k, s.disk.dir path = some k ∧
    s.disk.data k = decimal (s.pid i)

/-- No daemon opens the file for writing while another one holds it that was not to be
seen in it: that has opened it for writing since the first one opened it for reading, or
had not written yet when the first one read. -/
def Unhurried (s : System) : Event → Prop
  | .create i => ∀ j, s.ahead i j = true → (s.phase j).isClaiming = false
  | _ => True

end PidFile

end ExactDaemon
