import Mathlib.Data.List.AList
import Mathlib.Logic.Function.Basic

/-! # Databases with cursors

The interface of a library that keeps values under keys and visits the records with a cursor.
The library is a parameter; what its users rely on is a list of assumptions, in terms of what is
stored under each key and of what a cursor has still ahead of it.
-/

namespace ExactDaemon

/-- The operations: `next` visits a record, gives its key and an address at which its value can be
read then, and is told where the system has room for it; `cDel` deletes the record under the
cursor; `load` is what the memory holds. -/
structure CursorDb (δ κ K V : Type) where
  put : K → V → δ → δ
  cursor : δ → κ × δ
  next : (K → ℤ) → κ → δ → Option ((K × ℤ) × κ × δ)
  cDel : κ → δ → δ
  load : δ → ℤ → Option V

namespace CursorDb

variable {δ κ K V : Type} [DecidableEq K]

/-- What the users rely on. -/
structure Documented (lib : CursorDb δ κ K V) (stored : δ → K → Option V)
    (ahead : κ → δ → List K) : Prop where
  /-- `put` overwrites the value of a key. -/
  put : ∀ k v d, stored (lib.put k v d) = Function.update (stored d) k (some v)
  /-- A new cursor changes nothing and has every record ahead of it, each once. -/
  cursor_stored : ∀ d, stored (lib.cursor d).2 = stored d
  cursor_nodup : ∀ d, (ahead (lib.cursor d).1 (lib.cursor d).2).Nodup
  mem_cursor : ∀ d k, k ∈ ahead (lib.cursor d).1 (lib.cursor d).2 ↔ (stored d k).isSome
  /-- `next` visits what is ahead, and ends when there is nothing left. -/
  next_nil : ∀ address c d, ahead c d = [] → lib.next address c d = none
  next_cons : ∀ address c d k ks, ahead c d = k :: ks → ∃ c' d',
    lib.next address c d = some ((k, address k), c', d') ∧ ahead c' d' = ks ∧
      stored d' = stored d
  /-- The address that it gives is that of the stored value. -/
  next_data : ∀ address c d k a c' d', lib.next address c d = some ((k, a), c', d') →
    lib.load d' a = stored d' k
  /-- `cDel` deletes the record under the cursor. -/
  cDel : ∀ address c d k a c' d', lib.next address c d = some ((k, a), c', d') →
    stored (lib.cDel c' d') = Function.update (stored d') k none ∧
      ahead c' (lib.cDel c' d') = ahead c' d'

/-- The records are visited, and those whose address is chosen are deleted; cut off after `n`
rounds. -/
def sweep (lib : CursorDb δ κ K V) (address : K → ℤ) (drop : ℤ → Bool) : ℕ → κ → δ → Option δ
  | 0, _, _ => none
  | n + 1, c, d =>
    match lib.next address c d with
    | none => some d
    | some ((_, a), c', d') => sweep lib address drop n c' (if drop a then lib.cDel c' d' else d')

variable {lib : CursorDb δ κ K V} {stored : δ → K → Option V} {ahead : κ → δ → List K}
  {n : ℕ} {c : κ} {d : δ}

/-- A sweep deletes what is chosen of the records ahead, and nothing else. -/
theorem Documented.sweep (h : lib.Documented stored ahead) (address : K → ℤ) (drop : ℤ → Bool)
    (hn : (ahead c d).length < n) (hnodup : (ahead c d).Nodup) :
    ∃ d', lib.sweep address drop n c d = some d' ∧ ∀ k,
       stored d' k = if k ∈ ahead c d ∧ drop (address k) = true then none else stored d k := by
  induction n generalizing c d with
  | zero => cases hn
  | succ n ih =>
    unfold CursorDb.sweep
    cases hahead : ahead c d with
    | nil =>
      rw [h.next_nil address c d hahead]
      exact ⟨d, rfl, fun k => by rw [if_neg fun hk => List.not_mem_nil hk.1]⟩
    | cons k ks =>
      obtain ⟨c', d', hnext, hks, hstored⟩ := h.next_cons address c d k ks hahead
      rw [hnext]
      dsimp only
      rw [hahead, List.length_cons] at hn
      rw [hahead, List.nodup_cons] at hnodup
      obtain ⟨hdel, hdelks⟩ := h.cDel address c d k (address k) c' d' hnext
      by_cases hdrop : drop (address k) = true
      · rw [if_pos hdrop]
        obtain ⟨d'', hsweep, hd''⟩ := ih (c := c') (d := lib.cDel c' d')
          (by rw [hdelks, hks]; omega) (by rw [hdelks, hks]; exact hnodup.2)
        refine ⟨d'', hsweep, fun j => ?_⟩
        rw [hd'', hdelks, hks, hdel, hstored]
        by_cases hj : j = k
        · subst hj
          rw [Function.update_self, ite_self]
          exact (if_pos ⟨List.mem_cons_self, hdrop⟩).symm
        · rw [Function.update_of_ne hj]
          simp only [List.mem_cons, hj, false_or]
      · rw [if_neg hdrop]
        obtain ⟨d'', hsweep, hd''⟩ := ih (c := c') (d := d') (by rw [hks]; omega)
          (by rw [hks]; exact hnodup.2)
        refine ⟨d'', hsweep, fun j => ?_⟩
        rw [hd'', hks, hstored]
        by_cases hj : j = k
        · subst hj
          rw [if_neg fun hk => hdrop hk.2, if_neg fun hk => hdrop hk.2]
        · simp only [List.mem_cons, hj, false_or]

/-! ### A database in memory -/

/-- The records, and what was read last. -/
structure InMemory (K V : Type) where
  table : AList fun _ : K => V
  mem : ℤ → Option V

/-- A cursor is the key of the record under it and the keys ahead of it. -/
def inMemory (K V : Type) [DecidableEq K] : CursorDb (InMemory K V) (Option K × List K) K V where
  put k v d := { d with table := d.table.insert k v }
  cursor d := ((none, d.table.keys), d)
  next address c d :=
    match c.2 with
    | [] => none
    | k :: ks => some ((k, address k), (some k, ks),
        { d with mem := Function.update d.mem (address k) (d.table.lookup k) })
  cDel c d :=
    match c.1 with
    | none => d
    | some k => { d with table := d.table.erase k }
  load d a := d.mem a

theorem documented_inMemory (K V : Type) [DecidableEq K] :
    (inMemory K V).Documented (fun d k => d.table.lookup k) fun c _ => c.2 where
  put k v d := by
    funext j
    by_cases hj : j = k
    · subst hj
      rw [Function.update_self]
      exact AList.lookup_insert d.table
    · rw [Function.update_of_ne hj]
      exact AList.lookup_insert_ne hj
  cursor_stored _ := rfl
  cursor_nodup d := d.table.keys_nodup
  mem_cursor d k := by
    rw [AList.lookup_isSome]
    exact AList.mem_keys.symm
  next_nil address c d h := by
    obtain ⟨k, ks⟩ := c
    subst h
    rfl
  next_cons address c d k ks h := by
    obtain ⟨j, js⟩ := c
    subst h
    exact ⟨_, _, rfl, rfl, rfl⟩
  next_data address c d k a c' d' h := by
    obtain ⟨j, js⟩ := c
    cases js with
    | nil => cases h
    | cons i is =>
      cases h
      exact Function.update_self _ _ _
  cDel address c d k a c' d' h := by
    obtain ⟨j, js⟩ := c
    cases js with
    | nil => cases h
    | cons i is =>
      cases h
      refine ⟨?_, rfl⟩
      funext j
      by_cases hj : j = k
      · subst hj
        rw [Function.update_self]
        exact AList.lookup_erase j d.table
      · rw [Function.update_of_ne hj]
        exact AList.lookup_erase_ne hj

end CursorDb

end ExactDaemon
