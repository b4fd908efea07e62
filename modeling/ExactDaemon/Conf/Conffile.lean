import ExactDaemon.Conf.Apconf
import ExactDaemon.Match.Match

/-! # conffile.c and the start of the daemon

The configuration is read, checked, freed and read again, statement by statement. The
program is the one built without the Berkeley database.
-/

namespace ExactDaemon

open Prog

/-- The size of `param`. -/
def paramSize : ℕ := 16

def zapComments (s : CStr) : CStr := s.takeWhile (· ≠ 35)

/-- The expression that `conffile_read` compiles. -/
def conffileRx : CStr := cstr "\\([^\t ]*\\)[ \t]*\\(.*\\)"

/-- The copy of the text of a group into a block of its own. -/
def copyGroup (s : CStr) (m : Regmatch) : Except Halt CStr :=
  if 0 ≤ m.eo - m.so then .ok (CStr.span s m) else .error .undefined

namespace Conf

/-- Store at `param[param_max]` and count. -/
def add (p : Param) (conf : Conf) : Except Halt Conf :=
  if conf.param.length < paramSize then .ok { conf with param := conf.param ++ [p] }
  else .error .undefined

/-- One round of the loop of `conffile_read`, for what `fgets` put into `s`. The last byte
of the string is cut off, whatever it is. -/
def readLine (lib : RegexLib) (s : Bytes) (conf : Conf) : Except Halt Conf :=
  let str := s.takeWhile (· ≠ 0)
  let text := zapComments str.dropLast
  if str = [] then .error .undefined
  else if text = [] then .ok conf
  else
    match lib.regcomp conffileRx false with
    | none => .error .undefined
    | some rx =>
      match lib.regexec rx text with
      | .ok pm =>
        if (pm 1).so ≠ -1 ∧ (pm 1).eo ≠ -1 ∧ (pm 2).so ≠ -1 ∧ (pm 2).eo ≠ -1 then do
          let name ← copyGroup text (pm 1)
          let value ← copyGroup text (pm 2)
          conf.add ⟨name, value, false⟩
        else .ok conf
      | _ => .ok conf

end Conf

namespace World

def onConf (g : Conf → Except Halt Conf) (w : World) : Except Halt (Unit × World) :=
  (g w.conf).map fun c => ((), { w with conf := c })

/-- A lookup whose result is dereferenced. -/
def derefParam (name : CStr) (w : World) : Except Halt (CStr × World) :=
  match w.conffileParam name with
  | none => .error .undefined
  | some v => .ok (v, w)

/-- A parameter that has to be there. -/
def require (name : CStr) (w : World) : Except Halt (Unit × World) :=
  match w.conffileParam name with
  | none => .error (.exit 4)
  | some _ => .ok ((), w)

/-- A parameter that has to be there and to have a value other than 0 as a number. -/
def requireInt (name : CStr) (w : World) : Except Halt (Unit × World) :=
  match w.conffileParam name with
  | none => .error (.exit 4)
  | some v => if atoi v = 0 then .error (.exit 4) else .ok ((), w)

/-- The part of `server_check` that reads the server definitions and finds the section. -/
def serverSection (lib : RegexLib) (serverdefs : CStr) (w : World) :
    Except Halt (Section × World) :=
  match apconfRead lib (w.fs.contents serverdefs) w.staticSection with
  | .error h => .error h
  | .ok (none, _) => .error (.exit 4)
  | .ok (some a, s) =>
    match w.conffileParam (cstr "server") with
    | none => .error .undefined
    | some server =>
      match apconfGetsec a server with
      | none => .error (.exit 4)
      | some sec => .ok (sec, { w with staticSection := s })

/-- Append a parameter whose name is a string literal; `strdup` reads through a `NULL`. -/
def addLiteral (name : CStr) (value : Option CStr) (w : World) : Except Halt (Unit × World) :=
  match value with
  | none => .error .undefined
  | some v => w.onConf (Conf.add ⟨name, v, true⟩)

/-- A parameter that has to be one of two. -/
def oneOf (name v₁ v₂ : CStr) (w : World) : Except Halt (Unit × World) :=
  match w.conffileParam name with
  | none => .error .undefined
  | some v => if strcmp v v₁ ≠ 0 ∧ strcmp v v₂ ≠ 0 then .error (.exit 4) else .ok ((), w)

/-- `free (param[i].name)`. What the library does when it is given a string literal, which
is undefined behaviour, is a parameter: nothing, or it stops the program. -/
def freeName (onLiteral : Except Halt Unit) (i : ℕ) (w : World) : Except Halt (Unit × World) :=
  match w.conf.param[i]? with
  | none => .error .undefined
  | some p => if p.literal then onLiteral.map (·, w) else .ok ((), w)

end World

def serverCheck (lib : RegexLib) : Prog World Unit := do
  let serverdefs ← attempt (World.derefParam (cstr "serverdefs"))
  let s ← attempt (World.serverSection lib serverdefs)
  attempt (World.addLiteral (cstr "order") s.order)
  attempt (World.addLiteral (cstr "match") s.pattern)
  attempt (World.oneOf (cstr "order") (cstr "username,address") (cstr "address,username"))
  attempt (World.oneOf (cstr "authtype") (cstr "db") (cstr "text"))

/-- `required_s` of `conffile_check`. -/
def requiredS : List CStr :=
  [cstr "pidfile", cstr "maillog", cstr "serverdefs", cstr "server", cstr "authfile",
    cstr "dumpfile", cstr "authtemp", cstr "logging", cstr "logfile"]

/-- `required_i` of `conffile_check`. -/
def requiredI : List CStr := [cstr "timeout", cstr "flush", cstr "suspicious"]

/-- `conffile_check` looks at the first six of `required_s`. -/
def conffileCheck (lib : RegexLib) : Prog World Unit := do
  (requiredS.take 6).forM fun name => attempt (World.require name)
  requiredI.forM fun name => attempt (World.requireInt name)
  serverCheck lib

/-- The loop of `conffile_read`, cut off after `n` rounds. -/
def conffileLines (lib : RegexLib) : ℕ → Reader → Prog World Unit
  | 0, _ => halt .diverged
  | n + 1, f =>
    match f.fgets 1023 with
    | (none, _) => pure ()
    | (some s, f) => do
      attempt (World.onConf (Conf.readLine lib s))
      conffileLines lib n f

def conffileRead (lib : RegexLib) : Prog World Unit := do
  let f ← read fun w => w.fs.contents w.conf.filename
  match f with
  | none => halt (.exit 5)
  | some text => conffileLines lib (text.length + 1) ⟨text, false⟩

/-- `conffile_free`. The values are blocks of their own, and freeing them does nothing that
the model shows. -/
def conffileFree (onLiteral : Except Halt Unit) : Prog World Unit := do
  let n ← read (·.conf.param.length + 1)
  loop (fun i w => i < w.conf.param.length) (fun i _ => attempt (World.freeName onLiteral i)) n 0 ()
  modify fun w => { w with conf := { w.conf with param := [] } }

def conffileReload (onLiteral : Except Halt Unit) (lib : RegexLib) : Prog World Unit := do
  conffileFree onLiteral
  conffileRead lib
  conffileCheck lib

/-- `main` up to `tail_open`, without the pid file and the log. -/
def start (lib : RegexLib) : Prog World Unit := do
  conffileRead lib
  conffileCheck lib
  matchInit lib
  authInit

end ExactDaemon
