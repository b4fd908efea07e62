import ExactDaemon.World

/-! # tail.c

The functions that follow the mail log, statement by statement. Naps are left out:
time passes between statements.
-/

namespace ExactDaemon

open Prog

def pawsMax : ℕ := 1000000

/-- `realloc` of a block of bytes, to size 0 the same as `free`. The new part is
filled with NULs; nothing reads it before it is written. -/
def reallocBytes (b : Option Bytes) (n : ℕ) : Option Bytes :=
  if n = 0 then none
  else some ((b.getD []).take n ++ List.replicate (n - (b.getD []).length) 0)

/-- `linecount`, whose `int` parameter the caller gives an `unsigned`. -/
def linecount (buff : Bytes) (len : ℕ) : ℕ :=
  (buff.take (Int.bmod len uintRange).toNat).count 10

/-- `if(tail_bufflen>0) tail_buff=realloc(tail_buff,tail_bufflen+1)`. -/
def growBuff (t : Tail) : Tail :=
  if t.tailBufflen > 0 then
    { t with tailBuff := reallocBytes t.tailBuff ((t.tailBufflen + 1) % uintRange) }
  else t

namespace World

def onTail (w : World) (g : Tail → Tail) : World := { w with tail := g w.tail }

/-- `f=fopen(conffile_param("maillog"),"r")`. -/
def openLog (w : World) : Except Halt (Option ℕ × World) :=
  match w.conffileParam (cstr "maillog") with
  | none => .error .undefined
  | some path =>
    match w.fs.openRead path with
    | none => .ok (none, w.onTail ({ · with f := none }))
    | some (fd, fs) => .ok (some fd, { w with fs := fs, tail := { w.tail with f := some fd } })

/-- `if(f) fclose(f)`. -/
def closeLog (w : World) : World :=
  match w.tail.f with
  | some fd => w.fclose fd
  | none => w

def fseek (w : World) (fd : ℕ) (off : ℤ) (whence : Whence) : ℤ × World :=
  match w.fs.seek fd off whence with
  | none => (-1, w)
  | some fs => (0, { w with fs := fs })

/-- `if(end>current) last=time(NULL)`. -/
def noteGrowth (w : World) (current eof : ℤ) : World :=
  if eof > current then w.onTail ({ · with last := w.clock }) else w

/-- `time(NULL) - last > conffile_param_int("suspicious")`. -/
def isSuspicious (w : World) : Except Halt (Bool × World) :=
  (w.conffileParamInt (cstr "suspicious")).map fun n => (decide (w.clock - w.tail.last > n), w)

/-- `read=fread(tail_buff,1,tail_bufflen,f)`. -/
def freadTail (w : World) (fd : ℕ) : ℕ × World :=
  let r := w.fs.get fd w.tail.tailBufflen
  (r.1.length, { w with
    fs := r.2
    tail := { w.tail with tailBuff := w.tail.tailBuff.map fun b => r.1 ++ b.drop r.1.length } })

/-- `tail_buff[tail_bufflen]='\0'`. -/
def terminateTail (w : World) : Except Halt (Unit × World) :=
  match w.tail.tailBuff with
  | none => .error .undefined
  | some b =>
    if w.tail.tailBufflen < b.length then
      .ok ((), w.onTail ({ · with tailBuff := some (b.set w.tail.tailBufflen 0) }))
    else .error .undefined

/-- The first `tail_bufflen` bytes of `tail_buff`. -/
def delivered (w : World) : Bytes := (w.tail.tailBuff.getD []).take w.tail.tailBufflen

end World

/-- `tail_open` returns whether the log could be opened. -/
def tailOpen : Prog World Bool := do
  let f ← attempt World.openLog
  modify fun w => w.onTail ({ · with last := w.clock })
  modify (·.onTail ({ · with paws := pawsMax }))
  match f with
  | some fd => do
    let _ ← act (·.fseek fd 0 .fromEnd)
    modify (·.onTail ({ · with tailBuff := some (List.replicate 1024 0) }))
    pure true
  | none => pure false

/-- `tail_reopen` after the log was opened. -/
def tailReposition (fd : ℕ) (current : ℤ) : Prog World Unit := do
  let _ ← act (·.fseek fd 0 .fromEnd)
  let eof ← read (·.fs.tell fd)
  if eof < current then -- the file has been rotated
    let r ← act (·.fseek fd 0 .set)
    if r = -1 then halt (.exit 71)
  else -- it hasn't
    let r ← act (·.fseek fd current .set)
    if r = -1 then halt (.exit 71)

def tailReopen (current : ℤ) : Prog World Unit := do
  modify World.closeLog
  let f ← attempt World.openLog
  match f with
  | none => modify (·.onTail ({ · with f := none }))
  | some fd => tailReposition fd current

/-- The end of `tail_read`: the next pause. -/
def tailPause : Prog World Unit := do
  let lines ← read fun w => linecount (w.tail.tailBuff.getD []) w.tail.tailBufflen
  if lines > 0 then
    -- try and read one line per pause
    modify (·.onTail fun t => { t with paws := t.paws / lines })
    modify (·.onTail fun t => { t with paws := if t.paws = 0 then 1 else t.paws })
  else
    -- exponential back off to a maximum
    modify (·.onTail fun t => { t with paws := t.paws * 2 })
    modify (·.onTail fun t => { t with paws := if t.paws > pawsMax then pawsMax else t.paws })

/-- `tail_read` from the `fread` on. -/
def tailFill (fd : ℕ) : Prog World Unit := do
  let n ← act (·.freadTail fd)
  let len ← read (·.tail.tailBufflen)
  if n ≠ len then halt (.exit 31)
  attempt World.terminateTail
  tailPause

/-- `tail_read` after the measurement: take the `eof - current` new bytes. -/
def tailTake (fd : ℕ) (current eof : ℤ) : Prog World Unit := do
  modify (·.onTail ({ · with tailBufflen := ((eof - current) % uintRange).toNat }))
  modify (·.onTail growBuff)
  let buff ← read (·.tail.tailBuff)
  if buff = none then halt (.exit 30)
  tailFill fd

def tailRead : Prog World Unit := do
  let f ← read (·.tail.f)
  match f with
  | none => do
    tailReopen 0
    modify fun w => w.onTail ({ · with last := w.clock })
    modify (·.onTail ({ · with tailBufflen := 0 }))
  | some fd => do
    let current ← read (·.fs.tell fd)
    let r ← act (·.fseek fd 0 .fromEnd)
    if r = -1 then halt (.exit 71)
    let eof ← read (·.fs.tell fd)
    let r ← act (·.fseek fd current .set)
    if r = -1 then halt (.exit 72)
    modify (·.noteGrowth current eof)
    let suspicious ← attempt World.isSuspicious
    if suspicious then
      tailReopen current
      modify fun w => w.onTail ({ · with last := w.clock })
      modify (·.onTail ({ · with tailBufflen := 0 }))
    else
      tailTake fd current eof

end ExactDaemon
