import Mathlib.Data.List.Nodup
import Mathlib.Data.List.Perm.Basic
import Mathlib.Logic.Function.Basic

/-! # Finite maps kept as lists

A list of entries with distinct keys is a finite map. Reordering the list keeps
the map; appending, overwriting and filtering entries are the map's updates and
restrictions.
-/

namespace ExactDaemon

variable {ε κ τ : Type} [DecidableEq κ]

/-- The value that the list binds to the key. -/
def lookup (key : ε → κ) (val : ε → τ) (l : List ε) (k : κ) : Option τ :=
  (l.find? fun e => key e = k).map val

variable {key : ε → κ} {val : ε → τ} {l l' : List ε} {k : κ} {v : τ} {e : ε}

theorem lookup_eq_none_iff : lookup key val l k = none ↔ ∀ e ∈ l, key e ≠ k := by
  simp [lookup]

theorem lookup_eq_some_iff (hn : (l.map key).Nodup) :
    lookup key val l k = some v ↔ ∃ e ∈ l, key e = k ∧ val e = v := by
  constructor
  · intro h
    obtain ⟨e, he, hv⟩ := Option.map_eq_some_iff.mp h
    exact ⟨e, List.mem_of_find?_eq_some he, by simpa using List.find?_some he, hv⟩
  · rintro ⟨e, he, hk, hv⟩
    induction l with
    | nil => cases he
    | cons a l ih =>
      rw [List.map_cons, List.nodup_cons] at hn
      rcases List.mem_cons.mp he with rfl | he'
      · simp [lookup, hk, hv]
      · have hne : key a ≠ k := fun ha =>
          hn.1 (List.mem_map.mpr ⟨e, he', by rw [hk, ha]⟩)
        simpa [lookup, hne] using ih hn.2 he'

/-- The map is determined by the bindings. -/
theorem lookup_ext (hn : (l.map key).Nodup) {m : κ → Option τ}
    (h : ∀ k v, (∃ e ∈ l, key e = k ∧ val e = v) ↔ m k = some v) :
    lookup key val l = m := by
  funext k
  exact Option.ext fun v => (lookup_eq_some_iff hn).trans (h k v)

theorem lookup_perm (hp : l.Perm l') (hn : (l.map key).Nodup) :
    lookup key val l = lookup key val l' := by
  refine lookup_ext hn fun k v => ?_
  rw [lookup_eq_some_iff ((hp.map key).nodup_iff.mp hn)]
  simp only [hp.mem_iff]

theorem lookup_append_singleton (h : lookup key val l (key e) = none) :
    lookup key val (l ++ [e]) = Function.update (lookup key val l) (key e) (some (val e)) := by
  funext k
  by_cases hk : key e = k
  · subst hk
    have hn : l.find? (fun e' => key e' = key e) = none := by simpa [lookup] using h
    simp [lookup, List.find?_append, hn]
  · rw [Function.update_of_ne (Ne.symm hk)]
    cases hf : l.find? (fun e' => key e' = k) <;> simp [lookup, List.find?_append, hf, hk]

theorem lookup_set (hn : (l.map key).Nodup) {i : ℕ} {a : ε} (hi : l[i]? = some a)
    (hk : key e = key a) :
    lookup key val (l.set i e) = Function.update (lookup key val l) (key e) (some (val e)) := by
  induction l generalizing i with
  | nil => simp at hi
  | cons b l ih =>
    rw [List.map_cons, List.nodup_cons] at hn
    funext k
    cases i with
    | zero =>
      obtain rfl : b = a := by simpa using hi
      by_cases he : key e = k
      · subst he; simp [lookup]
      · have hb : key b ≠ k := hk ▸ he
        simp [lookup, he, hb, Function.update_of_ne (Ne.symm he)]
    | succ i =>
      have ha : l[i]? = some a := by simpa using hi
      have hba : key b ≠ key e := fun h =>
        hn.1 (List.mem_map.mpr ⟨a, List.mem_of_getElem? ha, by rw [h, hk]⟩)
      have ih' := congrFun (ih hn.2 ha) k
      by_cases hb : key b = k
      · have hek : k ≠ key e := hb ▸ hba
        simp [lookup, hb, Function.update_of_ne hek]
      · simp only [lookup] at ih'
        rw [lookup, List.set_cons_succ, List.find?_cons_of_neg (by simpa using hb), ih']
        by_cases hek : k = key e
        · subst hek; simp
        · rw [Function.update_of_ne hek, Function.update_of_ne hek]
          simp [lookup, hb]

theorem lookup_filter (hn : (l.map key).Nodup) (q : τ → Bool) :
    lookup key val (l.filter fun e => q (val e)) k = (lookup key val l k).filter q := by
  have hn' : ((l.filter fun e => q (val e)).map key).Nodup :=
    hn.sublist ((List.filter_sublist).map key)
  refine Option.ext fun v => ?_
  rw [lookup_eq_some_iff hn', Option.filter_eq_some_iff, lookup_eq_some_iff hn]
  simp only [List.mem_filter]
  constructor
  · rintro ⟨e, ⟨he, hq⟩, hk, rfl⟩; exact ⟨⟨e, he, hk, rfl⟩, hq⟩
  · rintro ⟨⟨e, he, hk, rfl⟩, hq⟩; exact ⟨e, ⟨he, hq⟩, hk, rfl⟩

end ExactDaemon
