import ExactDaemon.Lib.Rexp

/-! # The syntax of regular expressions

Basic and extended expressions without anchors, intervals, back references and repeated
groups. `RegexLib.posix` compiles them and matches as POSIX prescribes; an implementation
conforms if it does the same for every expression of this kind.
-/

namespace ExactDaemon

namespace Rexp

/-- The symbols of an expression, in either syntax. -/
inductive Symbol | openGroup | closeGroup | bar | star | plus | set (p : ByteSet)
  deriving DecidableEq, Repr

/-- The ranges of a bracket expression up to its end, cut off after `n` items; `first`
tells that a bracket would still stand for itself. -/
def bracketItems : ℕ → Bool → CStr → Option (List (UInt8 × UInt8) × CStr)
  | 0, _, _ => none
  | _ + 1, _, [] => none
  | n + 1, first, c :: t =>
    if c = 93 ∧ ¬ first then some ([], t)
    else
      match t with
      | 45 :: d :: t' =>
        if d = 93 then (bracketItems n false t).map fun r => ((c, c) :: r.1, r.2)
        else if c ≤ d then (bracketItems n false t').map fun r => ((c, d) :: r.1, r.2)
        else none
      | 46 :: _ | 58 :: _ | 61 :: _ =>
        if c = 91 then none
        else (bracketItems n false t).map fun r => ((c, c) :: r.1, r.2)
      | _ => (bracketItems n false t).map fun r => ((c, c) :: r.1, r.2)

/-- A bracket expression after its bracket. -/
def bracket (s : CStr) : Option (ByteSet × CStr) :=
  match s with
  | 94 :: t => (bracketItems (t.length + 1) true t).map fun r => (⟨r.1, true⟩, r.2)
  | t => (bracketItems (t.length + 1) true t).map fun r => (⟨r.1, false⟩, r.2)

/-- A symbol that is written as one byte. -/
def plain (extended : Bool) (c : UInt8) : Option Symbol :=
  if c = 46 then some (.set .any)
  else if c = 42 then some .star
  else if c = 94 ∨ c = 36 then none
  else if extended then
    if c = 40 then some .openGroup
    else if c = 41 then some .closeGroup
    else if c = 124 then some .bar
    else if c = 43 then some .plus
    else if c = 63 ∨ c = 123 then none
    else some (.set (.single c))
  else some (.set (.single c))

/-- A symbol that is written with a backslash: what stands for itself, also a bracket, and
a group in the basic syntax. -/
def escaped (extended : Bool) (c : UInt8) : Option Symbol :=
  if extended then
    if (cstr "^.[]$()|*+?\x7b\\").contains c then some (.set (.single c)) else none
  else
    if c = 40 then some .openGroup
    else if c = 41 then some .closeGroup
    else if (cstr "^.[]$*\\").contains c then some (.set (.single c))
    else none

/-- The symbols of an expression, cut off after `n`. A `]` and, in brackets, a backslash
stand for themselves. -/
def symbols (extended : Bool) : ℕ → CStr → Option (List Symbol)
  | 0, _ => none
  | _ + 1, [] => some []
  | n + 1, c :: t =>
    if c = 92 then
      match t with
      | [] => none
      | d :: t => do
        let x ← escaped extended d
        return x :: (← symbols extended n t)
    else if c = 91 then do
      let (p, t) ← bracket t
      return .set p :: (← symbols extended n t)
    else do
      let x ← plain extended c
      return x :: (← symbols extended n t)

/-- A group being read: its number, the alternatives before, and the parts of the current
one, the last one first. -/
structure Frame where
  num : ℕ
  alts : Option Rexp
  parts : List Rexp

def catAll : List Rexp → Rexp
  | [] => .empty
  | p :: ps => ps.foldl (fun acc q => .cat q acc) p

def Frame.rexp (f : Frame) : Rexp :=
  match f.alts with
  | none => catAll f.parts
  | some a => .alt a (catAll f.parts)

/-- The groups are numbered by their opening, from `n` on. -/
def build : List Symbol → List Frame → ℕ → Option Rexp
  | [], [f], _ => some f.rexp
  | .openGroup :: xs, st, n => build xs (⟨n, none, []⟩ :: st) (n + 1)
  | .closeGroup :: xs, f :: g :: st, n =>
    build xs ({ g with parts := .group f.num f.rexp :: g.parts } :: st) n
  | .bar :: xs, f :: st, n => build xs (⟨f.num, some f.rexp, []⟩ :: st) n
  | .star :: xs, f :: st, n =>
    match f.parts with
    | .set p :: ps => build xs ({ f with parts := .many p :: ps } :: st) n
    | _ => none
  | .plus :: xs, f :: st, n =>
    match f.parts with
    | .set p :: ps => build xs ({ f with parts := .many p :: .set p :: ps } :: st) n
    | _ => none
  | .set p :: xs, f :: st, n => build xs ({ f with parts := .set p :: f.parts } :: st) n
  | _, _, _ => none

/-- The expression that a text stands for. -/
def parse (extended : Bool) (text : CStr) : Option Rexp := do
  build (← symbols extended (text.length + 1) text) [⟨0, none, []⟩] 1

example : parse true (cstr "a([^b]+|c)") = some (.cat (.set (.single 97))
    (.group 1 (.alt (.cat (.set ⟨[(98, 98)], true⟩) (.many ⟨[(98, 98)], true⟩))
      (.set (.single 99))))) := by decide

end Rexp

/-- An implementation that knows the expressions above and no others. -/
def RegexLib.posix : RegexLib where
  regcomp text extended := if (Rexp.parse extended text).isSome then some ⟨text, extended⟩ else none
  regexec rx s :=
    match Rexp.parse rx.extended rx.text with
    | none => .other
    | some r => r.exec s

/-- The implementation compiles this expression and matches by the rule of POSIX. -/
structure RegexLib.ConformsTo (lib : RegexLib) (text : CStr) (extended : Bool) (r : Rexp) :
    Prop where
  regcomp : lib.regcomp text extended = some ⟨text, extended⟩
  regexec : ∀ s, 0 ∉ s → lib.regexec ⟨text, extended⟩ s = r.exec s

/-- The implementation compiles these expressions and matches by the rule of POSIX. -/
structure RegexLib.Conforms (lib : RegexLib) : Prop where
  regcomp : ∀ text extended r, Rexp.parse extended text = some r →
    lib.regcomp text extended = some ⟨text, extended⟩
  regexec : ∀ text extended r, Rexp.parse extended text = some r → ∀ s, 0 ∉ s →
    lib.regexec ⟨text, extended⟩ s = r.exec s

theorem RegexLib.Conforms.conformsTo {lib : RegexLib} (h : lib.Conforms) {text : CStr}
    {extended : Bool} {r : Rexp} (hp : Rexp.parse extended text = some r) :
    lib.ConformsTo text extended r :=
  ⟨h.regcomp text extended r hp, h.regexec text extended r hp⟩

theorem RegexLib.conforms_posix : RegexLib.posix.Conforms where
  regcomp text extended r h := by simp [posix, h]
  regexec text extended r h s _ := by simp [posix, h]

theorem RegexLib.groupsInside_posix : RegexLib.posix.GroupsInside := by
  intro rx s g n h
  unfold posix at h
  dsimp only at h
  split at h
  · cases h
  · exact Rexp.exec_inside h n

end ExactDaemon
