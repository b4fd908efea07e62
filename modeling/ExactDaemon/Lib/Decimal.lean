import Mathlib.Data.List.TakeWhile
import Mathlib.Data.Nat.Digits.Lemmas
import ExactDaemon.Lib.CString

/-! # Numbers in decimal

What `printf` writes for a number that is not negative, and that `atoi` reads it back.
-/

namespace ExactDaemon

def digitByte (d : ℕ) : UInt8 := UInt8.ofNat (48 + d)

/-- The bytes that `"%d"` stands for. -/
def decimal (n : ℕ) : CStr :=
  if n = 0 then [48] else (Nat.digits 10 n).reverse.map digitByte

variable {n d : ℕ}

theorem toNat_digitByte (h : d < 10) : (digitByte d).toNat = 48 + d := by
  rw [digitByte, UInt8.toNat_ofNat']
  omega

theorem isdigit_digitByte (h : d < 10) : isdigit (digitByte d) = true := by
  have hn := toNat_digitByte h
  simp only [isdigit, Bool.and_eq_true, decide_eq_true_eq, UInt8.le_iff_toNat_le, hn]
  constructor
  · exact Nat.le_add_right 48 d
  · change 48 + d ≤ 57
    omega

theorem digits_map_digitByte {l : List ℕ} (h : ∀ d ∈ l, d < 10) :
    digits (l.reverse.map digitByte) = Nat.ofDigits 10 l := by
  have hall : ∀ b ∈ l.reverse.map digitByte, isdigit b = true := by
    intro b hb
    obtain ⟨d, hd, rfl⟩ := List.mem_map.mp hb
    exact isdigit_digitByte (h d (List.mem_reverse.mp hd))
  rw [digits, List.takeWhile_eq_self_iff.mpr hall, List.foldl_map, List.foldl_reverse,
    Nat.ofDigits_eq_foldr]
  clear hall
  induction l with
  | nil => rfl
  | cons d l ih =>
    have hd := toNat_digitByte (h d List.mem_cons_self)
    rw [List.foldr_cons, List.foldr_cons, ih fun d' hd' => h d' (List.mem_cons_of_mem d hd'), hd]
    simp only [Nat.cast_id]
    omega

theorem strtol_digit {b : UInt8} {s : CStr} (hb : isdigit b = true) :
    strtol (b :: s) = max (-longMax - 1) (min longMax (digits (b :: s))) := by
  have hspace : isspace b = false := by
    simp only [isdigit, Bool.and_eq_true, decide_eq_true_eq, UInt8.le_iff_toNat_le] at hb
    simp only [isspace, Bool.or_eq_false_iff, Bool.and_eq_false_iff, decide_eq_false_iff_not,
      UInt8.le_iff_toNat_le, ← UInt8.toNat_inj]
    change 48 ≤ b.toNat ∧ b.toNat ≤ 57 at hb
    change ¬ b.toNat = 32 ∧ (¬ 9 ≤ b.toNat ∨ ¬ b.toNat ≤ 13)
    omega
  unfold strtol
  rw [List.dropWhile_cons_of_neg (by rw [hspace]; exact Bool.false_ne_true)]
  split
  · rename_i h
    obtain ⟨rfl, -⟩ := List.cons.inj h
    exact absurd hb (by decide)
  · rename_i h
    obtain ⟨rfl, -⟩ := List.cons.inj h
    exact absurd hb (by decide)
  · rfl

theorem decimal_ne_nil (n : ℕ) : decimal n ≠ [] := by
  unfold decimal
  split
  · exact List.cons_ne_nil _ _
  · rename_i h
    rw [Ne, List.map_eq_nil_iff, List.reverse_eq_nil_iff, Nat.digits_eq_nil_iff_eq_zero]
    exact h

theorem digits_decimal (n : ℕ) : digits (decimal n) = n := by
  unfold decimal
  split
  · rename_i h
    rw [h]
    decide
  · rw [digits_map_digitByte fun d hd => Nat.digits_lt_base (by decide) hd, Nat.ofDigits_digits]

theorem isdigit_of_mem_decimal {b : UInt8} (hb : b ∈ decimal n) : isdigit b = true := by
  unfold decimal at hb
  split at hb
  · rw [List.mem_singleton.mp hb]
    decide
  · obtain ⟨d, hd, rfl⟩ := List.mem_map.mp hb
    exact isdigit_digitByte (Nat.digits_lt_base (by decide) (List.mem_reverse.mp hd))

/-- A number that fits an `int` is read back. -/
theorem atoi_decimal (h : (n : ℤ) ≤ intMax) : atoi (decimal n) = n := by
  have hd := digits_decimal n
  cases hs : decimal n with
  | nil => exact absurd hs (decimal_ne_nil n)
  | cons b s =>
    have hb : isdigit b = true := isdigit_of_mem_decimal (hs ▸ List.mem_cons_self)
    rw [atoi, strtol_digit hb, ← hs, hd]
    unfold intMax at h
    unfold longMax uintRange
    rw [max_eq_right (by omega), min_eq_right (by omega)]
    exact Int.bmod_eq_of_le (by omega) (by omega)

end ExactDaemon
