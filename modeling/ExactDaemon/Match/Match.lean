import ExactDaemon.Auth.Text
import ExactDaemon.Tail.Tail

/-! # match.c and the pass over a buffer

`match_line` takes a user and a host out of a line of the log. `onepass` cuts the
buffer that `tail_read` leaves into lines and hands them on, statement by statement.
The daemon is the one built without the Berkeley database.
-/

namespace ExactDaemon

open Prog

structure MatchLogin where
  username : CStr
  hostname : CStr
  deriving DecidableEq, Repr

/-- `match_init`. Nobody looks at what `regcomp` returns. -/
def matchInit (lib : RegexLib) : Prog World Unit :=
  attempt fun w =>
    match w.conffileParam (cstr "match") with
    | none => .error .undefined
    | some text => .ok ((), { w with patbuf := lib.regcomp text true })

/-- What an array of `size` bytes holds after the text of a group was copied into it. The
NUL goes behind the text, and a text cut to `size` bytes leaves no room for it. -/
def capture (buff : CStr) (m : Regmatch) (size : ℕ) : Except Halt CStr :=
  let n := if m.eo - m.so > size then (size : ℤ) else m.eo - m.so
  if 0 ≤ n ∧ n < size then .ok (CStr.span buff ⟨m.so, m.so + n⟩) else .error .undefined

/-- The positions of the username and of the hostname among the groups. -/
def positions (order : CStr) : ℕ × ℕ :=
  if strcmp order (cstr "username,address") = 0 then (2, 3) else (3, 2)

namespace World

def matchPositions (w : World) : Except Halt ((ℕ × ℕ) × World) :=
  match w.conffileParam (cstr "order") with
  | none => .error .undefined
  | some order => .ok (positions order, w)

/-- `regexec (&patbuf, buff, …)`. -/
def regexec (lib : RegexLib) (buff : CStr) (w : World) : Except Halt (RegResult × World) :=
  match w.patbuf with
  | none => .error .undefined
  | some rx => .ok (lib.regexec rx buff, w)

end World

/-- `match_line`; the static `match_login` is filled whenever it is returned. -/
def matchLine (lib : RegexLib) (buff : CStr) : Prog World (Option MatchLogin) := do
  let pos ← attempt World.matchPositions
  let m ← attempt (World.regexec lib buff)
  match m with
  | .ok r => do
    let username ← attempt fun w => (capture buff (r pos.1) matchLoginUsernameMax).map (·, w)
    let hostname ← attempt fun w => (capture buff (r pos.2) matchLoginHostnameMax).map (·, w)
    pure (some ⟨username, hostname⟩)
  | .nomatch => pure none
  | .espace => halt (.exit 50)
  | .other => halt .abort

/-- What `onepass` does with a string. -/
def handLine (lib : RegexLib) (libc : Libc) (buff : CStr) : Prog World Unit := do
  let l ← matchLine lib buff
  match l with
  | some l => authTextAdd libc l.username l.hostname
  | none => pure ()

/-- What ends a line. -/
def isStop (c : UInt8) : Bool := c = 10 || c = 0

namespace World

/-- `tail_buff[i]`. -/
def tailByte (w : World) (i : ℕ) : Except Halt UInt8 :=
  match (w.tail.tailBuff.getD [])[i]? with
  | none => .error .undefined
  | some c => .ok c

/-- `tail_buff[i]='\0'`. -/
def endLine (w : World) (i : ℕ) : World :=
  w.onTail fun t => { t with tailBuff := t.tailBuff.map (·.set i 0) }

/-- The string at `tail_buff+start`, up to its NUL. -/
def tailString (w : World) (start : ℕ) : CStr :=
  ((w.tail.tailBuff.getD []).drop start).takeWhile (· ≠ 0)

end World

variable (line : CStr → Prog World Unit)

/-- The body of the loop in `onepass` at the index `i`, with `start` and, after it, the
strings handed on so far. -/
def scanByte (i : ℕ) (b : ℕ × List CStr) : Prog World (ℕ × List CStr) := do
  let c ← attempt fun w => (w.tailByte i).map (·, w)
  if isStop c then
    modify (·.endLine i)
    let s ← read (·.tailString b.1)
    line s
    pure (i + 1, b.2 ++ [s])
  else
    pure b

/-- One round of the loop; its `i++` overflows an `int` at the end of the range. -/
def scanRound (i : ℕ) (b : ℕ × List CStr) : Prog World (ℕ × List CStr) := do
  let b' ← scanByte line i b
  if (i : ℤ) = intMax then halt .undefined else pure b'

/-- The loop of `onepass`, which returns the strings that it handed on. -/
def scanLines : Prog World (List CStr) := do
  let n ← read (·.tail.tailBufflen + 1)
  let b ← loop (fun i w => i < w.tail.tailBufflen) (scanRound line) n 0 (0, [])
  pure b.2

def onepass : Prog World (List CStr) := do
  tailRead
  scanLines line

end ExactDaemon
