import Mathlib.Data.List.Sort
import Mathlib.Data.Int.Order.Basic

/-! # Sorting and searching by a comparison function

The contract of the C library's `qsort` and `bsearch`: for a comparison function
that orders its arguments, `qsort` returns a sorted permutation and `bsearch`
finds an equal element of a sorted array when there is one. Nothing is said
about the order of equal elements, nor about searching an unsorted array.
-/

namespace ExactDaemon

variable {α : Type}

/-- The function orders its arguments, as `qsort` and `bsearch` require. -/
structure Comparison (cmp : α → α → ℤ) : Prop where
  flip : ∀ a b, cmp b a = - cmp a b
  trans : ∀ a b c, cmp a b ≤ 0 → cmp b c ≤ 0 → cmp a c ≤ 0

def Sorted (cmp : α → α → ℤ) (l : List α) : Prop := l.Pairwise fun a b => cmp a b ≤ 0

/-- Sorted, with no two equal elements. -/
def Ascending (cmp : α → α → ℤ) (l : List α) : Prop := l.Pairwise fun a b => cmp a b < 0

/-- No two elements are equal under the comparison. -/
def Distinct (cmp : α → α → ℤ) (l : List α) : Prop := l.Pairwise fun a b => cmp a b ≠ 0

/-- `qsort` and `bsearch` as the C standard specifies them. -/
structure Libc where
  qsort : {α : Type} → (α → α → ℤ) → List α → List α
  bsearch : {α : Type} → (α → α → ℤ) → α → List α → Option ℕ
  qsort_perm : ∀ {α : Type} (cmp : α → α → ℤ) (l : List α), (qsort cmp l).Perm l
  qsort_sorted : ∀ {α : Type} {cmp : α → α → ℤ} (l : List α),
    Comparison cmp → Sorted cmp (qsort cmp l)
  bsearch_some : ∀ {α : Type} {cmp : α → α → ℤ} {key : α} {l : List α} {i : ℕ},
    Comparison cmp → Sorted cmp l → bsearch cmp key l = some i →
      ∃ a, l[i]? = some a ∧ cmp key a = 0
  bsearch_none : ∀ {α : Type} {cmp : α → α → ℤ} {key : α} {l : List α},
    Comparison cmp → Sorted cmp l → bsearch cmp key l = none → ∀ a ∈ l, cmp key a ≠ 0

section

variable {cmp : α → α → ℤ} {l : List α}

theorem Ascending.sorted (h : Ascending cmp l) : Sorted cmp l :=
  List.Pairwise.imp (fun h => Int.le_of_lt h) h

theorem Ascending.distinct (h : Ascending cmp l) : Distinct cmp l :=
  List.Pairwise.imp (fun h => Int.ne_of_lt h) h

theorem Ascending.filter (q : α → Bool) (h : Ascending cmp l) : Ascending cmp (l.filter q) :=
  List.Pairwise.filter q h

theorem ascending_of_sorted_of_distinct (hs : Sorted cmp l) (hd : Distinct cmp l) :
    Ascending cmp l :=
  (hs.and hd).imp fun ⟨hle, hne⟩ => by omega

theorem Comparison.distinct_perm (hc : Comparison cmp) {l' : List α} (hp : l.Perm l')
    (h : Distinct cmp l) : Distinct cmp l' := by
  refine hp.pairwise h fun {a b} hab => ?_
  rw [hc.flip a b]; omega

/-- Sorting an array without equal elements makes it strictly ascending. -/
theorem Libc.ascending_qsort (libc : Libc) (hc : Comparison cmp) (h : Distinct cmp l) :
    Ascending cmp (libc.qsort cmp l) :=
  ascending_of_sorted_of_distinct (libc.qsort_sorted l hc)
    (hc.distinct_perm (libc.qsort_perm cmp l).symm h)

theorem Distinct.concat (h : Distinct cmp l) {a : α} (ha : ∀ b ∈ l, cmp b a ≠ 0) :
    Distinct cmp (l ++ [a]) := by
  refine List.pairwise_append.mpr ⟨h, List.pairwise_singleton _ _, fun b hb c hc => ?_⟩
  obtain rfl := List.mem_singleton.mp hc
  exact ha b hb

/-- `bsearch` on a strictly ascending array finds the one equal element. -/
theorem Libc.bsearch_isSome_iff (libc : Libc) (hc : Comparison cmp) (h : Ascending cmp l)
    (key : α) : (libc.bsearch cmp key l).isSome ↔ ∃ a ∈ l, cmp key a = 0 := by
  cases hb : libc.bsearch cmp key l with
  | none =>
    have hn := libc.bsearch_none hc h.sorted hb
    simpa using hn
  | some i =>
    obtain ⟨a, ha, hk⟩ := libc.bsearch_some hc h.sorted hb
    simpa using ⟨a, List.mem_of_getElem? ha, hk⟩

end

/-- A library that meets the contract by insertion sort and a scan. -/
def Libc.simple : Libc where
  qsort cmp l := l.insertionSort fun a b => cmp a b ≤ 0
  bsearch cmp key l := l.findIdx? fun a => cmp key a = 0
  qsort_perm cmp l := List.perm_insertionSort _ l
  qsort_sorted {α cmp} l hc := by
    have : Std.Total fun a b : α => cmp a b ≤ 0 := ⟨fun a b => by rw [hc.flip a b]; omega⟩
    have : IsTrans α fun a b => cmp a b ≤ 0 := ⟨hc.trans⟩
    exact List.pairwise_insertionSort _ l
  bsearch_some {α cmp key l i} _ _ h := by
    obtain ⟨hi, hk, -⟩ := List.findIdx?_eq_some_iff_getElem.mp h
    exact ⟨l[i], List.getElem?_eq_getElem hi, by simpa using hk⟩
  bsearch_none _ _ h a ha := by simpa using List.findIdx?_eq_none_iff.mp h a ha

end ExactDaemon
