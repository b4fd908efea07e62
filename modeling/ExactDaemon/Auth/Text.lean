import ExactDaemon.World
import ExactDaemon.Lib.Sort

/-! # The text backend

The functions of auth.c that keep the authentication tables and publish them as
the relay file, statement by statement.
-/

namespace ExactDaemon

open Prog

def authCmp (a b : AuthEntry) : ℤ := strcmp a.hostname b.hostname

/-- `realloc` keeps what fits and leaves the new part as it is found. -/
def realloc (l : List AuthEntry) (n : ℕ) (fresh : ℕ → AuthEntry) : List AuthEntry :=
  l.take n ++ (List.range' l.length (n - l.length)).map fresh

namespace Tables

def reallocBlock (tb : Tables) (b : ℕ) : Tables :=
  { tb with mem := Function.update tb.mem b (realloc (tb.mem b) tb.authMax (tb.fresh b)) }

def authInitMem (tb : Tables) : Tables :=
  (tb.reallocBlock tb.auth).reallocBlock tb.shadowAuth

/-- The growth of the tables when they are full. -/
def grow (tb : Tables) : Tables :=
  if tb.authCur = tb.authMax then { tb with authMax := tb.authMax + 1024 }.authInitMem else tb

/-- A pointer to an entry: a block and an index. The pointer that `bsearch` returns
stays with its block. -/
def authPresent (libc : Libc) (hostname : CStr) (tb : Tables) : Option (ℕ × ℕ) :=
  (libc.bsearch authCmp ⟨strncpy hostname matchLoginHostnameMax, 0⟩ tb.table).map (tb.auth, ·)

/-- Read through a pointer. -/
def load (tb : Tables) (p : ℕ × ℕ) : Except Halt AuthEntry :=
  match (tb.mem p.1)[p.2]? with
  | none => .error .undefined
  | some e => .ok e

/-- Write through a pointer. -/
def store (tb : Tables) (p : ℕ × ℕ) (g : AuthEntry → AuthEntry) : Except Halt Tables :=
  match (tb.mem p.1)[p.2]? with
  | none => .error .undefined
  | some e =>
    .ok { tb with mem := Function.update tb.mem p.1 ((tb.mem p.1).set p.2 (g e)) }

/-- `qsort (auth, auth_cur, …)`. -/
def qsort (libc : Libc) (tb : Tables) : Tables :=
  let sorted := libc.qsort authCmp tb.table ++ (tb.mem tb.auth).drop tb.authCur
  { tb with mem := Function.update tb.mem tb.auth sorted }

end Tables

namespace World

def withTables (w : World) (tb : Tables) : World := { w with tables := tb }

def onTables (w : World) (g : Tables → Tables) : World := w.withTables (g w.tables)

def store (w : World) (p : ℕ × ℕ) (g : AuthEntry → AuthEntry) : Except Halt (Unit × World) :=
  (w.tables.store p g).map fun tb => ((), w.withTables tb)

/-- `fprintf (f, "%s\n", auth[i].hostname)`. A hostname that fills its array has no
NUL there, and printing it reads on past the array. -/
def printHost (w : World) (fd i : ℕ) : Except Halt (Unit × World) :=
  match w.tables.load (w.tables.auth, i) with
  | .error h => .error h
  | .ok e => if e.Terminated then .ok ((), w.fprintf fd (e.hostname ++ [10])) else .error .undefined

/-- `rename`, whose failure `auth_write_text` makes fatal. -/
def publish (w : World) : Except Halt (Unit × World) :=
  match w.conffileParam (cstr "authtemp"), w.conffileParam (cstr "authfile") with
  | some old, some new =>
    match w.fs.rename old new with
    | none => .error (.exit 22)
    | some fs => .ok ((), { w with fs := fs })
  | _, _ => .error .undefined

end World

/-- `auth_write_text` from the statement after the `fopen` on. -/
def authWriteLines (f : ℕ) : Prog World Unit := do
  let n ← read fun w => w.tables.authCur + 1
  loop (fun i w => i < w.tables.authCur) (fun i _ => attempt (·.printHost f i)) n 0 ()
  modify (·.fclose f)
  attempt World.publish

def authWriteText : Prog World Unit := do
  let f ← attempt fun w => w.fopenWrite (w.conffileParam (cstr "authtemp"))
  match f with
  | none => halt (.exit 21)
  | some f => authWriteLines f

/-- `auth_text_add`. The username is only logged. -/
def authTextAdd (libc : Libc) (_username hostname : CStr) : Prog World Unit := do
  let e ← read fun w => w.tables.authPresent libc hostname
  match e with
  | some e => attempt fun w => w.store e fun x => { x with t := w.clock }
  | none => do
    modify (·.onTables Tables.grow)
    attempt fun w => w.store (w.tables.auth, w.tables.authCur) fun x =>
      { x with hostname := strncpy hostname matchLoginHostnameMax }
    attempt fun w => w.store (w.tables.auth, w.tables.authCur) fun x => { x with t := w.clock }
    modify (·.onTables fun tb => { tb with authCur := tb.authCur + 1 })
    modify (·.onTables (Tables.qsort libc))
    -- we write immediately, so that they can immediately send mail
    authWriteText

/-- One round of the copying loop of `auth_text_clean`; `n` counts the entries kept. -/
def cleanEntry (t max : ℤ) (i n : ℕ) : Prog World ℕ := do
  let e ← attempt fun w => (w.tables.load (w.tables.auth, i)).map (·, w)
  if t - e.t < max then
    attempt fun w => w.store (w.tables.shadowAuth, n) fun x =>
      { x with hostname := strncpy e.hostname matchLoginHostnameMax }
    attempt fun w => w.store (w.tables.shadowAuth, n) fun x => { x with t := e.t }
    pure (n + 1)
  else
    pure n

def authTextClean : Prog World Unit := do
  let t ← read World.clock
  let max ← attempt fun w => (w.conffileParamInt (cstr "timeout")).map (·, w)
  let m ← read fun w => w.tables.authCur + 1
  let n ← loop (fun i w => i < w.tables.authCur) (cleanEntry t max) m 0 0
  -- swap them
  let tmp ← read fun w => w.tables.auth
  modify (·.onTables fun tb => { tb with auth := tb.shadowAuth })
  modify (·.onTables fun tb => { tb with shadowAuth := tmp })
  modify (·.onTables fun tb => { tb with authCur := n })
  authWriteText

/-- `alarm`, whose argument is unsigned. -/
def World.setAlarm (w : World) (seconds : ℤ) : World :=
  { w with alarm := (seconds % uintRange).toNat }

def authClean : Prog World Unit := do
  authTextClean
  modify fun w => w.setAlarm w.tables.authAlarm

def authInit : Prog World Unit := do
  modify (·.onTables Tables.authInitMem)
  let flush ← attempt fun w => (w.conffileParamInt (cstr "flush")).map (·, w)
  modify (·.onTables fun tb => { tb with authAlarm := flush })
  modify fun w => w.setAlarm w.tables.authAlarm
  -- so that the file exists
  authWriteText

end ExactDaemon
