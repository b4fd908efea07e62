import ExactDaemon.World

/-! # apconf.c

The scanner and the parser of the server definitions. The functions pass the open file
and the static section of `parse_rule_section` along. The block that `parse_rule_top`
allocates is taken to be a whole `apconf`, filled with zeros.
-/

namespace ExactDaemon

def sectionMax : ℕ := 16

inductive Token | server | order | pattern | close | comment | blank | eof | unknown
  deriving DecidableEq, Repr

/-- `token_string`, in the order in which `scan_string` tries them. -/
def tokenString : List (Token × CStr) :=
  [(.server, cstr "[ \t]*<[ \t]*server[ \t]+([^>\n]+)>\n"),
    (.order, cstr "[ \t]*order[ \t]+([^\n]+)[ \t]*\n"),
    (.pattern, cstr "[ \t]*match[ \t]+([^\n]+)[ \t]*\n"),
    (.close, cstr "[ \t]*<[ \t]*/[ \t]*server[ \t]*>[ \t]*\n"),
    (.comment, cstr "[ \t]*#.*\n"),
    (.blank, cstr "[ \t]*\n")]

/-- `compile_re` succeeds. -/
def compileRe (lib : RegexLib) : Bool := tokenString.all fun t => (lib.regcomp t.2 true).isSome

/-- What `scanner_text` holds after the text of the first group was copied into it. A text
that fills the array has no NUL there. -/
def scannerText (s : CStr) (m : Regmatch) : Except Halt CStr :=
  if 0 ≤ m.eo - m.so ∧ m.eo - m.so < 1024 then .ok (CStr.span s m) else .error .undefined

/-- `scan_string` returns the first token whose expression matches, and what it leaves
in `scanner_text`. -/
def scanString (lib : RegexLib) (s : CStr) : List (Token × CStr) → Except Halt (Token × CStr)
  | [] => .ok (.unknown, [])
  | (t, text) :: ts =>
    match lib.regcomp text true with
    | none => .error .undefined
    | some rx =>
      match lib.regexec rx s with
      | .ok r => (scannerText s (r 1)).map (t, ·)
      | _ => scanString lib s ts

def scan (lib : RegexLib) (f : Reader) : Except Halt ((Token × CStr) × Reader) :=
  match f.fgets 1024 with
  | (none, f) => .ok ((.eof, []), f)
  | (some s, f) => (scanString lib (s.takeWhile (· ≠ 0)) tokenString).map (·, f)

inductive ApcParam where
  | order (value : CStr)
  | pattern (value : CStr)
  | close
  deriving DecidableEq, Repr

/-- `parse_rule_apc_param`, with `none` for a parse error. -/
def parseRuleApcParam (lib : RegexLib) (f : Reader) : Except Halt (Option ApcParam × Reader) :=
  (scan lib f).map fun t =>
    match t.1.1 with
    | .pattern => (some (.pattern t.1.2), t.2)
    | .order => (some (.order t.1.2), t.2)
    | .close => (some .close, t.2)
    | _ => (none, t.2)

/-- The loop of `parse_rule_section`, cut off after `n` rounds. It reads through the `NULL`
that `parse_rule_apc_param` returns for an error. -/
def parseParams (lib : RegexLib) : ℕ → Reader → Section → Except Halt (Section × Reader)
  | 0, _, _ => .error .diverged
  | n + 1, f, s =>
    match parseRuleApcParam lib f with
    | .error h => .error h
    | .ok (none, _) => .error .undefined
    | .ok (some (.order v), f) => parseParams lib n f { s with order := some v }
    | .ok (some (.pattern v), f) => parseParams lib n f { s with pattern := some v }
    | .ok (some .close, f) => .ok (s, f)

/-- `parse_rule_section` returns the static section, or `none` for a parse error. -/
def parseRuleSection (lib : RegexLib) (f : Reader) (s : Section) :
    Except Halt (Option Section × Reader) :=
  match scan lib f with
  | .error h => .error h
  | .ok ((t, text), f) =>
    match t with
    | .comment | .blank => .ok (some { s with t := .ignore }, f)
    | .eof => .ok (some { s with t := .eof }, f)
    | .server =>
      (parseParams lib (f.rest.length + 1) f { s with t := .stanza, name := some text }).map
        fun r => (some r.1, r.2)
    | _ => .ok (none, f)

/-- The loop of `parse_rule_top`, cut off after `n` rounds, with the sections found so far.
It returns them, or `none`, and the static section. -/
def parseSections (lib : RegexLib) :
    ℕ → Reader → Section → List Section → Except Halt (Option (List Section) × Section)
  | 0, _, _, _ => .error .diverged
  | n + 1, f, s, a =>
    if f.eof then .ok (some a, s)
    else
      match parseRuleSection lib f s with
      | .error h => .error h
      | .ok (none, _) => .ok (none, s)
      | .ok (some s', f) =>
        match s'.t with
        | .eof => .ok (some a, s')
        | .stanza =>
          if a.length = sectionMax then .ok (none, s')
          else parseSections lib n f s' (a ++ [s'])
        | _ => parseSections lib n f s' a

/-- `apconf_read` of a file with these contents, or of none. -/
def apconfRead (lib : RegexLib) (text : Option Bytes) (s : Section) :
    Except Halt (Option (List Section) × Section) :=
  match text with
  | none => .ok (none, s)
  | some text =>
    if compileRe lib then parseSections lib (text.length + 2) ⟨text, false⟩ s []
    else .ok (none, s)

/-- `apconf_getsec`. -/
def apconfGetsec (a : List Section) (name : CStr) : Option Section :=
  a.find? fun s => strcmp name (s.name.getD []) = 0

end ExactDaemon
