import Mathlib.Data.List.TakeWhile
import ExactDaemon.Lib.CString
import ExactDaemon.Lib.Prog

/-! # Arrays of chars

An array has a fixed number of bytes, and a store outside of it is undefined. The string
in an array ends at its first NUL; without one, reading it runs out of the array.
-/

namespace ExactDaemon

structure CharArray (n : ℕ) where
  bytes : Bytes
  length_eq : bytes.length = n
  deriving DecidableEq

namespace CharArray

variable {n i k : ℕ}

/-- What a fresh array holds does not matter; here it is NULs. -/
def zeros (n : ℕ) : CharArray n := ⟨List.replicate n 0, List.length_replicate⟩

/-- `a[i]=c`. -/
def store (a : CharArray n) (i : ℕ) (c : UInt8) : Except Halt (CharArray n) :=
  if i < n then .ok ⟨a.bytes.set i c, by rw [List.length_set, a.length_eq]⟩
  else .error .undefined

/-- The stores of `strncpy` from the index `i` on, `k` of them. Behind its NUL the source
is not read any more. -/
def copyFrom (a : CharArray n) (src : Bytes) (i : ℕ) : ℕ → Except Halt (CharArray n)
  | 0 => .ok a
  | k + 1 =>
    match src with
    | [] | 0 :: _ => do (← a.store i 0).copyFrom [] (i + 1) k
    | c :: src => do (← a.store i c).copyFrom src (i + 1) k

/-- `strncpy (a, src, k)`. -/
def strncpy (a : CharArray n) (src : Bytes) (k : ℕ) : Except Halt (CharArray n) :=
  a.copyFrom src 0 k

/-- The string in the array. -/
def str (a : CharArray n) : Option CStr :=
  if 0 ∈ a.bytes then some (a.bytes.takeWhile (· ≠ 0)) else none

/-- What `strncpy` stores: the text up to its NUL, cut to `k` bytes and filled up with NULs. -/
def padded (src : Bytes) (k : ℕ) : Bytes :=
  let text := (src.takeWhile (· ≠ 0)).take k
  text ++ List.replicate (k - text.length) 0

theorem padded_nil (k : ℕ) : padded [] k = List.replicate k 0 := by simp [padded]

theorem padded_nul (src : Bytes) (k : ℕ) : padded (0 :: src) k = List.replicate k 0 := by
  simp [padded]

theorem padded_cons {c : UInt8} (hc : c ≠ 0) (src : Bytes) (k : ℕ) :
    padded (c :: src) (k + 1) = c :: padded src k := by
  simp [padded, hc]

theorem store_ok {a : CharArray n} (h : i < n) (c : UInt8) :
    ∃ a', a.store i c = .ok a' ∧ a'.bytes = a.bytes.set i c :=
  ⟨_, if_pos h, rfl⟩

theorem store_error {a : CharArray n} (h : n ≤ i) (c : UInt8) :
    a.store i c = .error .undefined :=
  if_neg (Nat.not_lt.mpr h)

theorem set_take_append {l : Bytes} {c : UInt8} {t : Bytes} (h : i < l.length) :
    (l.set i c).take (i + 1) ++ t = l.take i ++ c :: t := by
  rw [List.take_succ_eq_append_getElem (by simpa using h), List.getElem_set_self,
    List.take_set_of_le (Nat.le_refl i), List.append_assoc]
  rfl

/-- Copying inside the array replaces its bytes from `i` on by the padded text. -/
theorem copyFrom_ok (a : CharArray n) (src : Bytes) (h : i + k ≤ n) :
    ∃ a', a.copyFrom src i k = .ok a' ∧
      a'.bytes = a.bytes.take i ++ padded src k ++ a.bytes.drop (i + k) := by
  induction k generalizing a src i with
  | zero => exact ⟨a, rfl, by simp [padded]⟩
  | succ k ih =>
    have hlen : i < a.bytes.length := by rw [a.length_eq]; omega
    have hstep : ∀ (c : UInt8) (src' : Bytes), ∃ a', (do (← a.store i c).copyFrom src' (i + 1) k) =
        .ok a' ∧
      a'.bytes = a.bytes.take i ++ (c :: padded src' k) ++ a.bytes.drop (i + (k + 1)) := by
      intro c src'
      obtain ⟨b, hb, hbytes⟩ := store_ok (a := a) (by omega : i < n) c
      obtain ⟨a', ha', hcopy⟩ := ih (i := i + 1) b src' (by omega)
      refine ⟨a', by rw [hb]; exact ha', ?_⟩
      rw [hcopy, hbytes, set_take_append hlen, List.drop_set_of_lt (by omega)]
      congr 2
      omega
    cases src with
    | nil =>
      rw [padded_nil]
      have h0 := hstep 0 []
      rwa [padded_nil] at h0
    | cons c src =>
      by_cases hc : c = 0
      · subst hc
        rw [padded_nul]
        have h0 := hstep 0 []
        rwa [padded_nil] at h0
      · rw [padded_cons hc]
        have hmatch : a.copyFrom (c :: src) i (k + 1) =
            (do (← a.store i c).copyFrom src (i + 1) k) := by
          rw [copyFrom]
          exact fun h0 => hc h0
        rw [hmatch]
        exact hstep c src

theorem strncpy_ok (a : CharArray n) (src : Bytes) (h : k ≤ n) :
    ∃ a', a.strncpy src k = .ok a' ∧ a'.bytes = padded src k ++ a.bytes.drop k := by
  obtain ⟨a', ha', hb⟩ := copyFrom_ok (i := 0) (k := k) a src (by omega)
  exact ⟨a', ha', by simpa using hb⟩

theorem takeWhile_text {text : Bytes} (ht : 0 ∉ text) : text.takeWhile (· ≠ 0) = text := by
  refine List.takeWhile_eq_self_iff.mpr fun c hc => ?_
  simpa using fun he : c = 0 => ht (he ▸ hc)

theorem takeWhile_terminated {text : Bytes} (ht : 0 ∉ text) (rest : Bytes) :
    (text ++ 0 :: rest).takeWhile (· ≠ 0) = text := by
  rw [List.takeWhile_append_of_pos]
  · simp
  · intro c hc
    simpa using fun he : c = 0 => ht (he ▸ hc)

/-- A text with a NUL behind it is the string of the array. -/
theorem str_of_bytes {a : CharArray n} {text : Bytes} (rest : Bytes)
    (h : a.bytes = text ++ 0 :: rest) (ht : 0 ∉ text) : a.str = some text := by
  have h0 : (0 : UInt8) ∈ a.bytes := by simp [h]
  rw [str, if_pos h0, h, takeWhile_terminated ht]

/-- Where a string was found there is a NUL behind it. -/
theorem bytes_of_str {a : CharArray n} {text : CStr} (h : a.str = some text) :
    0 ∉ text ∧ ∃ rest, a.bytes = text ++ 0 :: rest := by
  unfold str at h
  split at h
  · rename_i h0
    obtain rfl := Option.some.inj h
    refine ⟨fun hm => by simpa using List.mem_takeWhile_imp hm, ?_⟩
    have hsplit := List.takeWhile_append_dropWhile (p := (· ≠ 0)) (l := a.bytes)
    cases hd : a.bytes.dropWhile (· ≠ 0) with
    | nil =>
      rw [List.dropWhile_eq_nil_iff] at hd
      simpa using hd 0 h0
    | cons c rest =>
      have hc := List.head_dropWhile_not (· ≠ 0) (l := a.bytes)
        (by rw [hd]; exact List.cons_ne_nil c rest)
      simp only [hd, List.head_cons] at hc
      obtain rfl : c = 0 := by simpa using hc
      exact ⟨rest, by rw [← hd, hsplit]⟩
  · cases h

/-- `strncpy` of a text and a NUL behind it, as long as there is room for the NUL. -/
theorem strncpy_store {a : CharArray n} {src : Bytes} (hsrc : 0 ∉ src) (hk : k ≤ src.length)
    (hn : k < n) : ∃ a', (do (← a.strncpy src k).store k 0) = .ok a' ∧
      a'.str = some (src.take k) := by
  obtain ⟨b, hb, hbytes⟩ := strncpy_ok a src hn.le
  obtain ⟨a', ha', hset⟩ := store_ok (a := b) hn 0
  have hlen : (src.take k).length = k := by simp [hk]
  have hpad : padded src k = src.take k := by
    rw [padded, takeWhile_text hsrc, hlen]
    simp
  have hlt : k < a.bytes.length := a.length_eq.symm ▸ hn
  refine ⟨a', by rw [hb]; exact ha', str_of_bytes (a.bytes.drop (k + 1)) ?_
    fun h => hsrc (List.mem_of_mem_take h)⟩
  rw [hset, hbytes, hpad, List.drop_eq_getElem_cons hlt, List.set_append_right _ _ hlen.le, hlen,
    Nat.sub_self]
  rfl

/-- The NUL of a text that is as long as the array falls outside of it. -/
theorem strncpy_store_full (a : CharArray n) (src : Bytes) :
    (do (← a.strncpy src n).store n 0) = .error .undefined := by
  obtain ⟨b, hb, -⟩ := strncpy_ok a src le_rfl
  rw [hb]
  exact store_error le_rfl 0

/-- A copy of a whole array holds the same string, whatever the destination held. -/
theorem str_strncpy_array {m : ℕ} (a : CharArray n) {b : CharArray m} {text : CStr}
    (h : b.str = some text) (hn : text.length < n) :
    ∃ a', a.strncpy b.bytes n = .ok a' ∧ a'.str = some text := by
  obtain ⟨h0, rest, hb⟩ := bytes_of_str h
  obtain ⟨a', ha', hbytes⟩ := strncpy_ok a b.bytes le_rfl
  obtain ⟨j, hj⟩ : ∃ j, n - text.length = j + 1 := ⟨n - text.length - 1, by omega⟩
  refine ⟨a', ha', str_of_bytes (List.replicate j 0) ?_ h0⟩
  rw [hbytes, List.drop_eq_nil_of_le a.length_eq.le, List.append_nil, padded, hb,
    takeWhile_terminated h0, List.take_of_length_le hn.le, hj, List.replicate_succ]

/-- The string of an array is shorter than the array. -/
theorem length_lt_of_str {a : CharArray n} {text : CStr} (h : a.str = some text) :
    text.length < n := by
  obtain ⟨-, rest, hb⟩ := bytes_of_str h
  have hl := a.length_eq
  rw [hb, List.length_append, List.length_cons] at hl
  omega

end CharArray

end ExactDaemon
