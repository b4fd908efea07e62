import Mathlib.Algebra.Order.Group.Nat
import ExactDaemon.Lib.Posix

/-! # Writes that are cut short

A stream on a device that may fill up: of the bytes that stdio hands on, the last ones
may be lost. What is left of a text after a series of writes is the text itself exactly
if no write that had something to hand on has lost a byte.
-/

namespace ExactDaemon

/-- One call: the bytes it appends to the buffer, how many of the buffered bytes are then
handed on, and how many of these are lost. -/
structure WriteOut where
  bytes : Bytes
  taken : ℕ
  lost : ℕ
  deriving DecidableEq, Repr

namespace WriteOut

/-- What is in the file and what is in the buffer after one call. -/
def step (x : Bytes × Bytes) (o : WriteOut) : Bytes × Bytes :=
  let out := (x.2 ++ o.bytes).take o.taken
  (x.1 ++ out.take (out.length - o.lost), (x.2 ++ o.bytes).drop o.taken)

/-- What is in the file and what is in the buffer after these calls. -/
def drafted (os : List WriteOut) : Bytes × Bytes := os.foldl step ([], [])

/-- The bytes that were to be written. -/
def text (os : List WriteOut) : Bytes := os.flatMap WriteOut.bytes

/-- What is in the file when the last write, at the `fclose`, has lost `c` bytes. -/
def survivors (os : List WriteOut) (c : ℕ) : Bytes :=
  (drafted os).1 ++ (drafted os).2.take ((drafted os).2.length - c)

/-- A write that has something to hand on loses nothing. -/
def Whole (o : WriteOut) : Prop := o.taken = 0 ∨ o.lost = 0

/-- No write is cut short, the last one at the `fclose` included. -/
structure Lossless (os : List WriteOut) (c : ℕ) : Prop where
  prints : ∀ o ∈ os, o.Whole
  close : (drafted os).2 = [] ∨ c = 0

variable {os : List WriteOut} {o : WriteOut} {x : Bytes × Bytes} {c : ℕ}

theorem step_whole (h : o.Whole) :
    (step x o).1 ++ (step x o).2 = x.1 ++ x.2 ++ o.bytes := by
  unfold step
  rcases h with h | h
  · simp [h]
  · simp only [h, Nat.sub_zero, List.take_length, List.append_assoc, List.take_append_drop]

theorem length_step_le (x : Bytes × Bytes) (o : WriteOut) :
    (step x o).1.length + (step x o).2.length ≤ x.1.length + x.2.length + o.bytes.length := by
  simp only [step, List.length_append, List.length_take, List.length_drop]
  omega

theorem length_step_lt (x : Bytes × Bytes) (ho : o.bytes ≠ []) (h : ¬ o.Whole) :
    (step x o).1.length + (step x o).2.length < x.1.length + x.2.length + o.bytes.length := by
  have hpos := List.length_pos_iff.mpr ho
  simp only [Whole, not_or] at h
  simp only [step, List.length_append, List.length_take, List.length_drop]
  omega

theorem foldl_whole (h : ∀ o ∈ os, o.Whole) (x : Bytes × Bytes) :
    (os.foldl step x).1 ++ (os.foldl step x).2 = x.1 ++ x.2 ++ text os := by
  induction os generalizing x with
  | nil => exact (List.append_nil _).symm
  | cons o os ih =>
    have h' := ih (fun o' ho => h o' (List.mem_cons_of_mem o ho)) (step x o)
    rw [List.foldl_cons, h', step_whole (h o List.mem_cons_self), text, text, List.flatMap_cons,
      List.append_assoc _ o.bytes]

theorem length_foldl_le (os : List WriteOut) (x : Bytes × Bytes) :
    (os.foldl step x).1.length + (os.foldl step x).2.length ≤
      x.1.length + x.2.length + (text os).length := by
  induction os generalizing x with
  | nil => exact le_rfl
  | cons o os ih =>
    have h := ih (step x o)
    have hs := length_step_le x o
    simp only [text, List.foldl_cons, List.flatMap_cons, List.length_append] at h ⊢
    omega

theorem length_foldl_lt (hne : ∀ o ∈ os, o.bytes ≠ []) (h : ∃ o ∈ os, ¬ o.Whole)
    (x : Bytes × Bytes) : (os.foldl step x).1.length + (os.foldl step x).2.length <
      x.1.length + x.2.length + (text os).length := by
  induction os generalizing x with
  | nil =>
    obtain ⟨o, ho, -⟩ := h
    cases ho
  | cons o os ih =>
    simp only [text, List.foldl_cons, List.flatMap_cons, List.length_append]
    by_cases ho : o.Whole
    · obtain ⟨o', hmem, ho'⟩ := h
      have hne' : o' ≠ o := fun he => ho' (he ▸ ho)
      have hmem' := (List.mem_cons.mp hmem).resolve_left hne'
      have hlt := ih (fun o'' ho'' => hne o'' (List.mem_cons_of_mem o ho''))
        ⟨o', hmem', ho'⟩ (step x o)
      have hs := length_step_le x o
      simp only [text] at hlt
      omega
    · have hle := length_foldl_le os (step x o)
      have hs := length_step_lt x (hne o List.mem_cons_self) ho
      simp only [text] at hle
      omega

/-- The whole text is in the file exactly if nothing was cut short. -/
theorem survivors_eq_iff (hne : ∀ o ∈ os, o.bytes ≠ []) :
    survivors os c = text os ↔ Lossless os c := by
  constructor
  · intro h
    have hlen := congrArg List.length h
    simp only [survivors, List.length_append, List.length_take] at hlen
    constructor
    · by_contra hn
      push Not at hn
      have hlt := length_foldl_lt hne hn ([], [])
      simp only [List.length_nil, Nat.zero_add] at hlt
      unfold drafted at hlen
      omega
    · by_contra hn
      rw [not_or] at hn
      have hpos := List.length_pos_iff.mpr hn.1
      have hle := length_foldl_le os ([], [])
      simp only [List.length_nil, Nat.zero_add] at hle
      unfold drafted at hlen hpos
      omega
  · intro h
    have hall := foldl_whole h.prints ([], [])
    unfold survivors drafted
    rcases h.close with hb | rfl
    · unfold drafted at hb
      simp only [hb, List.append_nil, List.take_nil] at hall ⊢
      exact hall
    · rw [Nat.sub_zero, List.take_length]
      exact hall

end WriteOut

namespace Fs

/-- Hand the first `k` buffered bytes to the kernel, which loses the last `lost` of them. -/
def flushCut (fd k lost : ℕ) (fs : Fs) : Fs :=
  let s := fs.stream fd
  let out := s.buf.take k
  let bs := out.take (out.length - lost)
  { fs with
    data := Function.update fs.data s.ino (overwrite (fs.data s.ino) s.pos bs)
    stream := Function.update fs.stream fd ⟨s.ino, s.pos + bs.length, s.buf.drop k⟩ }

def putCut (fd : ℕ) (bs : Bytes) (k lost : ℕ) (fs : Fs) : Fs :=
  let s := fs.stream fd
  flushCut fd k lost
    { fs with stream := Function.update fs.stream fd { s with buf := s.buf ++ bs } }

def closeCut (fd lost : ℕ) (fs : Fs) : Fs := flushCut fd (fs.stream fd).buf.length lost fs

variable {fs : Fs} {fd i : ℕ} {x : Bytes × Bytes}

theorem flushCut_zero (fd k : ℕ) (fs : Fs) : fs.flushCut fd k 0 = fs.flush fd k := by
  simp only [flushCut, flush, Nat.sub_zero, List.take_length]

theorem putCut_zero (fd : ℕ) (bs : Bytes) (k : ℕ) (fs : Fs) :
    fs.putCut fd bs k 0 = fs.put fd bs k := flushCut_zero fd k _

theorem closeCut_zero (fd : ℕ) (fs : Fs) : fs.closeCut fd 0 = fs.close fd := flushCut_zero fd _ fs

/-- The stream has this in its file, and it is at its end, and that in its buffer. -/
structure Holding (fs : Fs) (fd i : ℕ) (x : Bytes × Bytes) : Prop where
  ino : (fs.stream fd).ino = i
  pos : (fs.stream fd).pos = (fs.data i).length
  data : fs.data i = x.1
  buf : (fs.stream fd).buf = x.2

theorem Holding.putCut (h : fs.Holding fd i x) (o : WriteOut) :
    (fs.putCut fd o.bytes o.taken o.lost).Holding fd i (o.step x) := by
  obtain ⟨rfl, hpos, hdata, hbuf⟩ := h
  constructor
  · simp [Fs.putCut, flushCut]
  · simp [Fs.putCut, flushCut, hpos, overwrite_end]
  · simp [Fs.putCut, flushCut, hpos, overwrite_end, hbuf, hdata, WriteOut.step]
  · simp [Fs.putCut, flushCut, hbuf, WriteOut.step]

theorem Holding.data_closeCut (h : fs.Holding fd i x) (c : ℕ) :
    (fs.closeCut fd c).data i = x.1 ++ x.2.take (x.2.length - c) := by
  obtain ⟨rfl, hpos, hdata, hbuf⟩ := h
  simp [closeCut, flushCut, hpos, overwrite_end, hdata, hbuf]

theorem data_putCut_of_ne {j k lost : ℕ} {bs : Bytes} (h : j ≠ (fs.stream fd).ino) :
    (fs.putCut fd bs k lost).data j = fs.data j := by
  simp [putCut, flushCut, Function.update_of_ne h]

theorem data_closeCut_of_ne {j c : ℕ} (h : j ≠ (fs.stream fd).ino) :
    (fs.closeCut fd c).data j = fs.data j := by
  simp [closeCut, flushCut, Function.update_of_ne h]

end Fs

end ExactDaemon
