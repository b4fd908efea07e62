import Mathlib.Data.List.Basic
import Mathlib.Data.Int.Order.Basic

/-! # C strings

A C string is the list of its bytes before the terminating NUL. The functions
carry the names and the documented behaviour of the C library's.
-/

namespace ExactDaemon

abbrev Bytes := List UInt8

/-- The bytes of a string before its NUL. -/
abbrev CStr := List UInt8

theorem forall_mem_of_all {l : Bytes} {p : UInt8 → Prop} [DecidablePred p]
    (h : (l.all fun c => decide (p c)) = true) : ∀ c ∈ l, p c := fun c hc =>
  of_decide_eq_true (List.all_eq_true.mp h c hc)

/-- A string literal. -/
def cstr (s : String) : CStr := s.toList.map fun c => UInt8.ofNat c.toNat

/-- The sign of the first difference, bytes compared as unsigned numbers. -/
def strcmp : CStr → CStr → ℤ
  | [], [] => 0
  | [], _ :: _ => -1
  | _ :: _, [] => 1
  | a :: s, b :: t => if a = b then strcmp s t else if a < b then -1 else 1

/-- What a buffer of `n` bytes holds after `strncpy (buf, s, n)`, read as a string
up to its end. The copy has no NUL of its own when it fills the buffer. -/
def strncpy (s : CStr) (n : ℕ) : CStr := s.take n

@[simp] theorem strcmp_self (s : CStr) : strcmp s s = 0 := by
  induction s with
  | nil => rfl
  | cons a s ih => simp [strcmp, ih]

theorem strcmp_eq_zero {s t : CStr} : strcmp s t = 0 ↔ s = t := by
  induction s generalizing t with
  | nil => cases t <;> simp [strcmp]
  | cons a s ih =>
    cases t with
    | nil => simp [strcmp]
    | cons b t =>
      by_cases h : a = b
      · simp [strcmp, h, ih]
      · simp only [strcmp, h, if_false, List.cons.injEq, false_and, iff_false]
        split <;> omega

theorem strcmp_neg (s t : CStr) : strcmp t s = - strcmp s t := by
  induction s generalizing t with
  | nil => cases t <;> simp [strcmp]
  | cons a s ih =>
    cases t with
    | nil => simp [strcmp]
    | cons b t =>
      by_cases h : a = b
      · simp [strcmp, h, ih]
      · have hlt : ¬ a < b ↔ b < a := by
          rw [UInt8.not_lt, UInt8.le_iff_lt_or_eq]
          exact or_iff_left (Ne.symm h)
        by_cases hab : a < b
        · have hba : ¬ b < a := fun hba => hlt.mpr hba hab
          simp [strcmp, h, Ne.symm h, hab, hba]
        · simp [strcmp, h, Ne.symm h, hab, hlt.mp hab]

theorem strcmp_neg_iff_cons {a b : UInt8} {s t : CStr} :
    strcmp (a :: s) (b :: t) < 0 ↔ a < b ∨ (a = b ∧ strcmp s t < 0) := by
  by_cases h : a = b
  · simp [strcmp, h]
  · by_cases hab : a < b <;> simp [strcmp, h, hab]

theorem strcmp_trans {s t u : CStr} (hst : strcmp s t < 0) (htu : strcmp t u < 0) :
    strcmp s u < 0 := by
  induction s generalizing t u with
  | nil =>
    cases u with
    | nil => cases t <;> simp [strcmp] at htu hst
    | cons => simp [strcmp]
  | cons a s ih =>
    cases t with
    | nil => simp [strcmp] at hst
    | cons b t =>
      cases u with
      | nil => simp [strcmp] at htu
      | cons c u =>
        rw [strcmp_neg_iff_cons] at hst htu ⊢
        rcases hst with hab | ⟨rfl, hst⟩ <;> rcases htu with hbc | ⟨rfl, htu⟩
        · exact Or.inl (UInt8.lt_trans hab hbc)
        · exact Or.inl hab
        · exact Or.inl hbc
        · exact Or.inr ⟨rfl, ih hst htu⟩

theorem strcmp_le_trans {s t u : CStr} (hst : strcmp s t ≤ 0) (htu : strcmp t u ≤ 0) :
    strcmp s u ≤ 0 := by
  rcases Int.le_iff_lt_or_eq.mp hst with h | h
  · rcases Int.le_iff_lt_or_eq.mp htu with h' | h'
    · exact Int.le_of_lt (strcmp_trans h h')
    · exact strcmp_eq_zero.mp h' ▸ hst
  · exact strcmp_eq_zero.mp h ▸ htu

theorem strncpy_of_length_le {s : CStr} {n : ℕ} (h : s.length ≤ n) : strncpy s n = s :=
  List.take_of_length_le h

/-! ### atoi -/

def isspace (b : UInt8) : Bool := b = 32 || (9 ≤ b && b ≤ 13)

def isdigit (b : UInt8) : Bool := 48 ≤ b && b ≤ 57

/-- The value of the leading digits. -/
def digits (s : CStr) : ℕ :=
  (s.takeWhile isdigit).foldl (fun n b => 10 * n + (b.toNat - 48)) 0

def intMax : ℤ := 2147483647
def longMax : ℤ := 9223372036854775807

/-- The number of values of an `unsigned int`. -/
def uintRange : ℕ := 4294967296

/-- `strtol (s, NULL, 10)` with a 64-bit `long`, which saturates. -/
def strtol (s : CStr) : ℤ :=
  let clamp (n : ℤ) : ℤ := max (-longMax - 1) (min longMax n)
  match s.dropWhile isspace with
  | 45 :: t => clamp (-(digits t : ℤ))
  | 43 :: t => clamp (digits t)
  | t => clamp (digits t)

/-- `atoi` is `strtol` converted to a 32-bit `int`. -/
def atoi (s : CStr) : ℤ := Int.bmod (strtol s) uintRange

example : atoi (cstr " -180s") = -180 := by decide

end ExactDaemon
