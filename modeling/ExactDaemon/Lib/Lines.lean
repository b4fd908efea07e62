import Mathlib.Data.List.Basic
import Mathlib.Data.List.Flatten

/-! # Lines of a stream

A stream is cut into lines by the elements that satisfy `p`. `lines p l` are the
complete lines of `l`, without their terminators, and `rest p l` is what follows
the last terminator. Reading a stream piece by piece gives the lines of the
whole exactly when each piece that ends a line also begins one.
-/

namespace ExactDaemon

variable {α : Type} {p : α → Bool}

/-- The complete lines of a list, each without its terminator. -/
def lines (p : α → Bool) : List α → List (List α)
  | [] => []
  | a :: l =>
    if p a then [] :: lines p l
    else match lines p l with
      | [] => []
      | w :: ws => (a :: w) :: ws

/-- What follows the last terminator of a list. -/
def rest (p : α → Bool) : List α → List α
  | [] => []
  | a :: l => if p a then rest p l else if lines p l = [] then a :: l else rest p l

/-- A list without terminators. -/
def Unbroken (p : α → Bool) (l : List α) : Prop := ∀ a ∈ l, p a = false

theorem lines_unbroken {l : List α} (h : Unbroken p l) : lines p l = [] := by
  induction l with
  | nil => rfl
  | cons a l ih =>
    have ha : p a = false := h a (by simp)
    simp [lines, ha, ih fun b hb => h b (by simp [hb])]

theorem rest_unbroken {l : List α} (h : Unbroken p l) : rest p l = l := by
  cases l with
  | nil => rfl
  | cons a l =>
    have ha : p a = false := h a (by simp)
    have hl : lines p l = [] := lines_unbroken fun b hb => h b (by simp [hb])
    simp [rest, ha, hl]

theorem lines_append_cons {w l : List α} {a : α} (hw : Unbroken p w) (ha : p a = true) :
    lines p (w ++ a :: l) = w :: lines p l := by
  induction w with
  | nil => simp [lines, ha]
  | cons b w ih =>
    have hb : p b = false := hw b (by simp)
    simp [lines, hb, ih fun c hc => hw c (by simp [hc])]

theorem rest_append_cons {w l : List α} {a : α} (hw : Unbroken p w) (ha : p a = true) :
    rest p (w ++ a :: l) = rest p l := by
  induction w with
  | nil => simp [rest, ha]
  | cons b w ih =>
    have hb : p b = false := hw b (by simp)
    have hw' : Unbroken p w := fun c hc => hw c (by simp [hc])
    simp [rest, hb, lines_append_cons hw' ha, ih hw']

/-- A list is unbroken, or it starts with a line. -/
theorem unbroken_or_line (l : List α) :
    Unbroken p l ∨ ∃ w a l', l = w ++ a :: l' ∧ Unbroken p w ∧ p a = true := by
  induction l with
  | nil => exact Or.inl fun a ha => absurd ha List.not_mem_nil
  | cons b l ih =>
    cases hb : p b with
    | true => exact Or.inr ⟨[], b, l, rfl, fun a ha => absurd ha List.not_mem_nil, hb⟩
    | false =>
      rcases ih with h | ⟨w, a, l', rfl, hw, ha⟩
      · exact Or.inl (List.forall_mem_cons.mpr ⟨hb, h⟩)
      · exact Or.inr ⟨b :: w, a, l', rfl, List.forall_mem_cons.mpr ⟨hb, hw⟩, ha⟩

/-- Induction line by line. -/
theorem lines_induction {motive : List α → Prop}
    (unbroken : ∀ l, Unbroken p l → motive l)
    (line : ∀ w a l, Unbroken p w → p a = true → motive l → motive (w ++ a :: l))
    (l : List α) : motive l := by
  induction hn : l.length using Nat.strongRecOn generalizing l with
  | _ n ih =>
    rcases unbroken_or_line (p := p) l with h | ⟨w, a, l', rfl, hw, ha⟩
    · exact unbroken l h
    · refine line w a l' hw ha (ih _ ?_ l' rfl)
      simp at hn; omega

theorem lines_eq_nil_iff {l : List α} : lines p l = [] ↔ Unbroken p l := by
  refine ⟨fun h => ?_, lines_unbroken⟩
  rcases unbroken_or_line (p := p) l with hl | ⟨w, a, l', rfl, hw, ha⟩
  · exact hl
  · rw [lines_append_cons hw ha] at h
    cases h

theorem lines_append (xs ys : List α) :
    lines p (xs ++ ys) = lines p xs ++ lines p (rest p xs ++ ys) := by
  induction xs using lines_induction (p := p) with
  | unbroken l h => simp [lines_unbroken h, rest_unbroken h]
  | line w a l hw ha ih =>
    rw [List.append_assoc, List.cons_append, lines_append_cons hw ha, ih,
      lines_append_cons hw ha, rest_append_cons hw ha, List.cons_append]

theorem rest_append (xs ys : List α) : rest p (xs ++ ys) = rest p (rest p xs ++ ys) := by
  induction xs using lines_induction (p := p) with
  | unbroken l h => rw [rest_unbroken h]
  | line w a l hw ha ih =>
    rw [List.append_assoc, List.cons_append, rest_append_cons hw ha, ih,
      rest_append_cons hw ha]

theorem unbroken_rest (l : List α) : Unbroken p (rest p l) := by
  induction l using lines_induction (p := p) with
  | unbroken l h => rwa [rest_unbroken h]
  | line w a l hw ha ih => rwa [rest_append_cons hw ha]

theorem Unbroken.append {l l' : List α} (h : Unbroken p l) (h' : Unbroken p l') :
    Unbroken p (l ++ l') := by
  intro a ha
  rcases List.mem_append.mp ha with ha | ha
  · exact h a ha
  · exact h' a ha

theorem length_lines_append {r : List α} (hr : Unbroken p r) (l : List α) :
    (lines p (r ++ l)).length = (lines p l).length := by
  rcases unbroken_or_line (p := p) l with h | ⟨w, a, l', rfl, hw, ha⟩
  · rw [lines_unbroken h, lines_unbroken (hr.append h)]
  · rw [← List.append_assoc, lines_append_cons (hr.append hw) ha, lines_append_cons hw ha]
    simp

theorem lines_append_eq_iff {r : List α} (hr : Unbroken p r) (l : List α) :
    lines p l = lines p (r ++ l) ↔ (¬ Unbroken p l → r = []) := by
  rcases unbroken_or_line (p := p) l with h | ⟨w, a, l', rfl, hw, ha⟩
  · simp [lines_unbroken h, lines_unbroken (hr.append h), h]
  · have hb : ¬ Unbroken p (w ++ a :: l') := fun h => by
      have := h a (by simp)
      simp [ha] at this
    rw [← List.append_assoc, lines_append_cons (hr.append hw) ha, lines_append_cons hw ha]
    simp [hb]

theorem unbroken_of_mem_lines {l w : List α} (h : w ∈ lines p l) : Unbroken p w := by
  induction l using lines_induction (p := p) with
  | unbroken l hl =>
    rw [lines_unbroken hl] at h
    cases h
  | line v a l hv ha ih =>
    rw [lines_append_cons hv ha] at h
    rcases List.mem_cons.mp h with rfl | h
    · exact hv
    · exact ih h

/-- Lines that are written one after the other are found again. -/
theorem lines_written {ws : List (List α)} {a : α} (ha : p a = true)
    (h : ∀ w ∈ ws, Unbroken p w) :
    lines p (ws.flatMap (· ++ [a])) = ws ∧ rest p (ws.flatMap (· ++ [a])) = [] := by
  induction ws with
  | nil => exact ⟨rfl, rfl⟩
  | cons w ws ih =>
    obtain ⟨hw, hws⟩ := List.forall_mem_cons.mp h
    obtain ⟨hlines, hrest⟩ := ih hws
    rw [List.flatMap_cons, List.append_assoc, List.singleton_append, lines_append_cons hw ha,
      rest_append_cons hw ha, hlines, hrest]
    exact ⟨rfl, rfl⟩

/-- Each piece that ends a line begins one, when `r` is left over from before. -/
def Aligned (p : α → Bool) : List α → List (List α) → Prop
  | _, [] => True
  | r, b :: bs => (¬ Unbroken p b → r = []) ∧ Aligned p (rest p (r ++ b)) bs

theorem flatMap_lines_eq_iff {r : List α} (hr : Unbroken p r) (bs : List (List α)) :
    bs.flatMap (lines p) = lines p (r ++ bs.flatten) ↔ Aligned p r bs := by
  induction bs generalizing r with
  | nil => simp [Aligned, lines_unbroken hr]
  | cons b bs ih =>
    rw [List.flatMap_cons, List.flatten_cons, ← List.append_assoc, lines_append, Aligned,
      ← lines_append_eq_iff hr, ← ih (unbroken_rest _)]
    constructor
    · intro h
      exact List.append_inj h (length_lines_append hr b).symm
    · rintro ⟨h, h'⟩
      rw [h', ← h]

theorem aligned_iff {r : List α} (hr : Unbroken p r) (bs : List (List α)) :
    Aligned p r bs ↔ ∀ pre b post, bs = pre ++ b :: post → ¬ Unbroken p b →
      rest p (r ++ pre.flatten) = [] := by
  induction bs generalizing r with
  | nil => simp [Aligned]
  | cons b bs ih =>
    rw [Aligned, ih (unbroken_rest _)]
    constructor
    · rintro ⟨hb, hbs⟩ pre b' post he hb'
      cases pre with
      | nil =>
        obtain ⟨rfl, rfl⟩ := List.cons.inj he
        simpa [rest_unbroken hr] using hb hb'
      | cons c pre =>
        obtain ⟨rfl, rfl⟩ := List.cons.inj he
        rw [List.flatten_cons, ← List.append_assoc, rest_append]
        exact hbs pre b' post rfl hb'
    · intro h
      constructor
      · intro hb
        simpa [rest_unbroken hr] using h [] b bs rfl hb
      · intro pre b' post he hb'
        rw [← rest_append, List.append_assoc, ← List.flatten_cons]
        exact h (b :: pre) b' post (by rw [he]; rfl) hb'

/-- Pieces read one by one have the lines of the whole exactly when each piece
that ends a line begins where a line begins. -/
theorem flatMap_lines_flatten_iff (bs : List (List α)) :
    bs.flatMap (lines p) = lines p bs.flatten ↔
      ∀ pre b post, bs = pre ++ b :: post → ¬ Unbroken p b → rest p pre.flatten = [] := by
  have hn : Unbroken p ([] : List α) := fun a ha => absurd ha List.not_mem_nil
  rw [← List.nil_append bs.flatten, flatMap_lines_eq_iff hn, aligned_iff hn]
  simp only [List.nil_append]

end ExactDaemon
