import ExactDaemon.Lib.Lines
import ExactDaemon.Lib.Posix

/-! # The pieces of a text

A program that calls `fgets` until the end of a file gets the text in pieces: a line that
does not fit into the array comes in several of them.
-/

namespace ExactDaemon

/-- The byte that ends a line. -/
def newline (c : UInt8) : Bool := c = 10

/-- What the calls of `fgets` return for an array of `m + 2` bytes. -/
def pieces (m : ℕ) (t : Bytes) : List Bytes :=
  if h : t = [] then []
  else
    let s := (firstLine t).take (m + 1)
    s :: pieces m (t.drop s.length)
termination_by t.length
decreasing_by
  have hpos : 0 < t.length := List.length_pos_iff.mpr h
  have hline : 0 < (firstLine t).length := List.length_pos_iff.mpr (firstLine_ne_nil h)
  rw [List.length_drop, List.length_take]
  omega

/-- A line, and what ends it: a newline or the end of the text. -/
structure LineEnd (w e : Bytes) : Prop where
  unbroken : Unbroken newline w
  ending : e = [10] ∨ e = []

variable {m : ℕ} {t w e l : Bytes} {f : Reader}

theorem pieces_nil (m : ℕ) : pieces m [] = [] := by
  rw [pieces, dif_pos rfl]

theorem pieces_of_ne_nil (h : t ≠ []) :
    pieces m t = (firstLine t).take (m + 1) ::
      pieces m (t.drop ((firstLine t).take (m + 1)).length) := by
  rw [pieces, dif_neg h]

theorem length_of_mem_pieces {s : Bytes} (h : s ∈ pieces m t) : s.length ≤ m + 1 := by
  induction t using pieces.induct m with
  | case1 =>
    rw [pieces_nil] at h
    cases h
  | case2 t hne s' ih =>
    rw [pieces_of_ne_nil hne] at h
    rcases List.mem_cons.mp h with rfl | h
    · exact List.length_take_le _ _
    · exact ih h

theorem fgets_pieces (h : f.rest ≠ []) : ∃ eof, f.fgets (m + 2) =
    (some ((firstLine f.rest).take (m + 1)),
      ⟨f.rest.drop ((firstLine f.rest).take (m + 1)).length, eof⟩) := by
  unfold Reader.fgets
  rw [if_neg h]
  exact ⟨_, rfl⟩

theorem firstLine_unbroken (h : Unbroken newline w) : firstLine w = w := by
  induction w with
  | nil => rfl
  | cons c w ih =>
    have hc : c ≠ 10 := by simpa [newline] using h c List.mem_cons_self
    rw [firstLine, if_neg hc, ih fun a ha => h a (List.mem_cons_of_mem c ha)]

theorem firstLine_line (h : Unbroken newline w) (l : Bytes) :
    firstLine (w ++ 10 :: l) = w ++ [10] := by
  induction w with
  | nil => rfl
  | cons c w ih =>
    have hc : c ≠ 10 := by simpa [newline] using h c List.mem_cons_self
    rw [List.cons_append, firstLine, if_neg hc, ih fun a ha => h a (List.mem_cons_of_mem c ha)]
    rfl

theorem Unbroken.drop (h : Unbroken newline w) (n : ℕ) : Unbroken newline (w.drop n) :=
  fun c hc => h c (List.mem_of_mem_drop hc)

theorem LineEnd.firstLine (h : LineEnd w e) : firstLine (w ++ e) = w ++ e := by
  rcases h.ending with rfl | rfl
  · exact firstLine_line h.unbroken []
  · rw [List.append_nil, firstLine_unbroken h.unbroken]

/-- What is left of a line. -/
theorem LineEnd.drop (h : LineEnd w e) (n : ℕ) :
    ∃ w' e', (w ++ e).drop n = w' ++ e' ∧ LineEnd w' e' := by
  refine ⟨w.drop n, e.drop (n - w.length), List.drop_append, h.unbroken.drop n, ?_⟩
  rcases h.ending with rfl | rfl
  · cases n - w.length with
    | zero => exact .inl rfl
    | succ k => exact .inr (List.drop_nil)
  · exact .inr List.drop_nil

/-- The pieces of one line. -/
theorem LineEnd.pieces (h : LineEnd w e) (hne : w ++ e ≠ []) :
    pieces m (w ++ e) = (w ++ e).take (m + 1) :: pieces m ((w ++ e).drop (m + 1)) := by
  rw [pieces_of_ne_nil hne, h.firstLine]
  rcases Nat.le_total (w ++ e).length (m + 1) with hle | hle
  · rw [List.take_of_length_le hle, List.drop_length, List.drop_of_length_le hle]
  · rw [List.length_take_of_le hle]

/-- A line is read to its end before the next one. -/
theorem pieces_append (h : Unbroken newline w) (l : Bytes) :
    pieces m (w ++ 10 :: l) = pieces m (w ++ [10]) ++ pieces m l := by
  induction hn : w.length using Nat.strongRecOn generalizing w with
  | _ n ih =>
    have hne : w ++ 10 :: l ≠ [] := by simp
    have hend : LineEnd w [10] := ⟨h, .inl rfl⟩
    rw [pieces_of_ne_nil hne, firstLine_line h, hend.pieces (by simp), List.cons_append]
    congr 1
    rw [show w ++ 10 :: l = (w ++ [10]) ++ l by simp]
    rcases Nat.lt_or_ge m w.length with hlt | hge
    · have hlen : m + 1 ≤ (w ++ [10]).length := by
        rw [List.length_append, List.length_singleton]
        omega
      rw [List.length_take_of_le hlen, List.drop_append_of_le_length hlen,
        List.drop_append_of_le_length hlt, List.append_assoc, List.singleton_append]
      exact ih (w.drop (m + 1)).length (by rw [List.length_drop]; omega) (h.drop _) rfl
    · have hle : (w ++ [10]).length ≤ m + 1 := by
        rw [List.length_append, List.length_singleton]
        omega
      rw [List.take_of_length_le hle, List.drop_left' rfl, List.drop_of_length_le hle, pieces_nil,
        List.nil_append]

end ExactDaemon
