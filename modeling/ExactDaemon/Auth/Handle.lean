import ExactDaemon.Auth.Db
import ExactDaemon.Conf.Conffile
import ExactDaemon.Lib.Decimal
import ExactDaemon.Lib.Zoom

/-! # The daemon built with the Berkeley database

auth.c with the global handle `db`. Which backend is used is decided anew by each function,
and whether the handle is open by `auth_init` alone. The functions take a flag for the build:
without the database they are those of the text backend.
-/

namespace ExactDaemon

open Prog

/-- The handle `db`: a null pointer, a handle that `db_create` has made, and so on. -/
inductive Handle | unset | created | opened | closed
  deriving DecidableEq, Repr

/-- The operations on the handle. -/
inductive DbCall | put | sync | cursor | close
  deriving DecidableEq, Repr

/-! ### The records

What the library keeps. Nothing that is proved about the handle depends on it: a record is put
under its key, and deleted by the cursor. -/

namespace Db

def put (db : Db) (key : Bytes) (t : ℤ) : Db :=
  ⟨db.records.filter (·.key ≠ key) ++ [⟨key, t⟩]⟩

def del (db : Db) (r : DbRecord) : Db := ⟨db.records.filter (· ≠ r)⟩

end Db

def World.withDb (w : World) (db : Db) : World := { w with db := db }

/-! ### The handle -/

/-- The daemon with its handle, the operations on it so far, each with what the handle was,
and which of the library's calls to come fail. -/
structure DbWorld where
  world : World
  handle : Handle
  calls : List (DbCall × Handle)
  faults : List Bool

namespace DbWorld

def toWorld : Lens DbWorld World where
  get := world
  set d w := { d with world := w }
  get_set _ _ := rfl
  set_get _ := rfl
  set_set _ _ _ := rfl

/-- A call through the handle is undefined behaviour unless the handle is open, and may fail. -/
def callResult (code : ℕ) (d : DbWorld) : Except Halt Unit :=
  if d.handle = .opened then
    if d.faults.headD false then .error (.exit code) else .ok ()
  else .error .undefined

def afterCall (c : DbCall) (code : ℕ) (g : World → World) (d : DbWorld) : DbWorld where
  world := match d.callResult code with
    | .ok _ => g d.world
    | .error _ => d.world
  handle := d.handle
  calls := d.calls ++ [(c, d.handle)]
  faults := d.faults.tail

/-- A call through the handle, whose failure makes the daemon exit. -/
def call (c : DbCall) (code : ℕ) (g : World → World) : Prog DbWorld Unit :=
  step (afterCall c code g) fun d =>
    match d.callResult code with
    | .ok _ => ret ()
    | .error e => halt e

/-- Another call of the library. -/
def tryCall (code : ℕ) (g : DbWorld → DbWorld) : Prog DbWorld Unit :=
  attempt fun d =>
    if d.faults.headD false then .error (.exit code)
    else .ok ((), g { d with faults := d.faults.tail })

end DbWorld

open DbWorld

/-! ### Dumping -/

/-- A number as `%d` prints it. -/
def formatInt (n : ℤ) : Bytes := (if n < 0 then [45] else []) ++ decimal n.natAbs

/-- `fprintf (f, "%s\t\t%d (%s)\n", …)` of `auth_text_dump`; `stamp` is what `strftime` makes
of a time. -/
def World.printEntry (stamp : ℤ → Bytes) (w : World) (fd i : ℕ) : Except Halt (Unit × World) :=
  match w.tables.load (w.tables.auth, i) with
  | .error h => .error h
  | .ok e =>
    if e.Terminated then
      .ok ((), w.fprintf fd (e.hostname ++ [9, 9] ++ formatInt (Int.bmod e.t uintRange) ++
        cstr " (" ++ stamp e.t ++ cstr ")\n"))
    else .error .undefined

def authTextDump (stamp : ℤ → Bytes) : Prog World Unit := do
  let f ← attempt fun w => w.fopenWrite (w.conffileParam (cstr "dumpfile"))
  match f with
  | none => pure ()
  | some f => do
    let n ← read fun w => w.tables.authCur + 1
    loop (fun i w => i < w.tables.authCur) (fun i _ => attempt (·.printEntry stamp f i)) n 0 ()
    modify (·.fclose f)

/-- `fprintf (f, "%s\t%s\n", …)` of `auth_db_dump`. -/
def World.printRecord (stamp : ℤ → Bytes) (fd : ℕ) (r : DbRecord) (w : World) : World :=
  w.fprintf fd (r.key.takeWhile (· ≠ 0) ++ [9] ++ stamp r.time ++ [10])

def authDbDump (stamp : ℤ → Bytes) : Prog DbWorld Unit := do
  let f ← zoom toWorld (attempt fun w => w.fopenWrite (w.conffileParam (cstr "dumpfile")))
  match f with
  | none => pure ()
  | some f => do
    call .cursor 22 id
    let records ← zoom toWorld (read fun w => w.db.records)
    records.forM fun r => zoom toWorld (modify (·.printRecord stamp f r))
    zoom toWorld (modify (·.fclose f))

/-- `!strcmp (conffile_param ("authtype"), "db")`. -/
def authtypeIsDb : Prog DbWorld Bool := do
  let v ← zoom toWorld (attempt (World.derefParam (cstr "authtype")))
  pure (strcmp v (cstr "db") = 0)

/-- The choice between the backends. -/
def byBackend (withDb : Bool) (db : Prog DbWorld Unit) (text : Prog World Unit) :
    Prog DbWorld Unit :=
  if withDb then do
    if ← authtypeIsDb then db else zoom toWorld text
  else zoom toWorld text

def authDump (withDb : Bool) (stamp : ℤ → Bytes) : Prog DbWorld Unit :=
  byBackend withDb (authDbDump stamp) (authTextDump stamp)

/-! ### Opening and closing -/

/-- `db->open` creates the file that is to hold the database. -/
def World.ensureFile (path : Option CStr) (w : World) : World :=
  match path with
  | none => w
  | some path => if w.fs.dir path = none then w.withFile path [] else w

def opendb : Prog DbWorld Unit := do
  let path ← zoom toWorld (read fun w => w.conffileParam (cstr "authfile"))
  tryCall 22 fun d => { d with handle := .created }
  tryCall 22 fun d => { d with handle := .opened, world := d.world.ensureFile path }

/-- `auth_init` up to the choice between the backends. -/
def authInitTables : Prog World Unit := do
  modify (·.onTables Tables.authInitMem)
  let flush ← attempt fun w => (w.conffileParamInt (cstr "flush")).map (·, w)
  modify (·.onTables fun tb => { tb with authAlarm := flush })
  modify fun w => w.setAlarm w.tables.authAlarm

namespace DbWorld

def authInit (withDb : Bool) : Prog DbWorld Unit := do
  zoom toWorld authInitTables
  byBackend withDb opendb authWriteText

/-- `db->close`, whose result nobody looks at. -/
def close : Prog DbWorld Unit :=
  step (fun d => { d with
      calls := d.calls ++ [(.close, d.handle)]
      handle := if d.handle = .opened then .closed else d.handle })
    fun d => if d.handle = .opened then ret () else halt .undefined

def authExit (withDb : Bool) : Prog DbWorld Unit := if withDb then close else pure ()

/-! ### Adding and cleaning -/

/-- `auth_db_add`. The username is only logged. -/
def authDbAdd (_username hostname : CStr) : Prog DbWorld Unit := do
  let now ← zoom toWorld (read World.clock)
  call .put 22 fun w => w.withDb (w.db.put (hostnameKey hostname) now)
  call .sync 23 id

def authAdd (withDb : Bool) (libc : Libc) (username hostname : CStr) : Prog DbWorld Unit :=
  byBackend withDb (authDbAdd username hostname) (authTextAdd libc username hostname)

/-- The loop of `auth_db_clean`; `c_del` may fail. -/
def authDbSweep (data : DbRecord → ℤ) (now max : ℤ) : List DbRecord → Prog DbWorld Unit
  | [] => pure ()
  | r :: rs => do
    if now - data r > max then
      tryCall 22 fun d => { d with world := d.world.withDb (d.world.db.del r) }
    authDbSweep data now max rs

def authDbClean (data : DbRecord → ℤ) : Prog DbWorld Unit := do
  let now ← zoom toWorld (read World.clock)
  let max ← zoom toWorld (attempt fun w => (w.conffileParamInt (cstr "timeout")).map (·, w))
  call .cursor 22 id
  let records ← zoom toWorld (read fun w => w.db.records)
  authDbSweep data now max records

def authClean (withDb : Bool) (data : DbRecord → ℤ) : Prog DbWorld Unit := do
  byBackend withDb (authDbClean data) authTextClean
  zoom toWorld (modify fun w => w.setAlarm w.tables.authAlarm)

end DbWorld

/-! ### The end -/

/-- `unlink (conffile_param (name))`. -/
def World.unlinkParam (name : CStr) (w : World) : Except Halt (Unit × World) :=
  match w.conffileParam name with
  | none => .error .undefined
  | some path => .ok ((), { w with fs := w.fs.unlink path })

/-- `if (!cmd.preserve) unlink (conffile_param ("authfile"))`. -/
def removeAuthfile (preserve : Bool) : Prog DbWorld Unit :=
  if preserve then pure () else zoom toWorld (attempt (World.unlinkParam (cstr "authfile")))

/-- `exit_handler`, without the log. -/
def exitHandler (withDb preserve : Bool) : Prog DbWorld Unit := do
  zoom toWorld (attempt (World.unlinkParam (cstr "pidfile")))
  authExit withDb
  removeAuthfile preserve
  attempt fun _ => .error (.exit 0)

end ExactDaemon
