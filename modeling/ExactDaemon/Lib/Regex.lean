import ExactDaemon.Lib.CString

/-! # The regular expression interface

`regcomp` and `regexec` belong to the C library. A compiled expression is known
by its text and its syntax; what it matches is left to the implementation.
-/

namespace ExactDaemon

/-- A `regex_t` that `regcomp` has filled in. -/
structure Regex where
  text : CStr
  extended : Bool
  deriving DecidableEq, Repr

/-- A `regmatch_t`; an unmatched group has `-1` in both places. -/
structure Regmatch where
  so : ℤ
  eo : ℤ
  deriving DecidableEq, Repr

def Regmatch.unmatched : Regmatch := ⟨-1, -1⟩

inductive RegResult where
  | ok (groups : ℕ → Regmatch)
  | nomatch
  | espace
  | other

/-- The implementation: which expressions compile, and what they match. -/
structure RegexLib where
  regcomp : CStr → Bool → Option Regex
  regexec : Regex → CStr → RegResult

/-- The group spans bytes of a string of this length, or was not matched. -/
def Regmatch.Inside (len : ℕ) (m : Regmatch) : Prop :=
  m = .unmatched ∨ (0 ≤ m.so ∧ m.so ≤ m.eo ∧ m.eo ≤ len)

/-- A match reports groups that lie in the string. -/
def RegexLib.GroupsInside (lib : RegexLib) : Prop :=
  ∀ rx s g n, lib.regexec rx s = .ok g → (g n).Inside s.length

/-- The bytes of a string that a group spans. -/
def CStr.span (s : CStr) (m : Regmatch) : CStr :=
  (s.drop m.so.toNat).take (m.eo - m.so).toNat

/-- The bytes of a group's text. An unmatched group counts as empty. -/
def Regmatch.length (m : Regmatch) : ℕ := (m.eo - m.so).toNat

/-- The group has matched this part of the string. -/
structure Regmatch.Spans (m : Regmatch) (s text : CStr) : Prop where
  split : ∃ a c, s = a ++ (text ++ c) ∧ m.so = a.length ∧ m.eo = a.length + text.length

variable {m : Regmatch} {s text : CStr}

theorem Regmatch.Spans.length (h : m.Spans s text) :
    m.length = text.length := by
  obtain ⟨a, c, -, hso, heo⟩ := h.split
  rw [Regmatch.length, hso, heo]
  omega

theorem Regmatch.Spans.span (h : m.Spans s text) : CStr.span s m = text := by
  have hlen := h.length
  obtain ⟨a, c, rfl, hso, heo⟩ := h.split
  rw [Regmatch.length] at hlen
  rw [CStr.span, hlen, hso, Int.toNat_natCast, List.drop_left' rfl, List.take_left' rfl]

theorem Regmatch.Spans.matched (h : m.Spans s text) : m.so ≠ -1 ∧ m.eo ≠ -1 := by
  obtain ⟨a, c, -, hso, heo⟩ := h.split
  omega

end ExactDaemon
