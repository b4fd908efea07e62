import Mathlib.Data.List.Basic
import Mathlib.Data.Int.Order.Basic
import Mathlib.Logic.Function.Basic
import ExactDaemon.Lib.CString

/-! # Files and streams

Names lead to inodes, inodes hold bytes, and an open stream follows its inode
wherever the names go. A stream opened for writing keeps a buffer that stdio may
write out at any time and writes out at the latest when it is closed.
-/

namespace ExactDaemon

/-- An open stream: its inode, its position, and what it has not yet written. -/
structure Stream where
  ino : ℕ
  pos : ℕ
  buf : Bytes
  deriving DecidableEq, Repr

/-- The names, the inodes' contents, the open streams, and the names that may be
opened for writing. Inodes from `nextIno` and descriptors from `nextFd` on are unused. -/
structure Fs where
  dir : CStr → Option ℕ
  data : ℕ → Bytes
  stream : ℕ → Stream
  nextIno : ℕ
  nextFd : ℕ
  writable : CStr → Bool

/-- The name that leads from everywhere to where this one leads from the root directory. -/
def absolute : CStr → CStr
  | [] => []
  | c :: x => if c = 47 then c :: x else 47 :: c :: x

/-- The files as a process finds them that has moved to the root directory. -/
def Fs.fromRoot (fs : Fs) : Fs :=
  { fs with
    dir := fun x => fs.dir (absolute x)
    writable := fun x => fs.writable (absolute x) }

inductive Whence | set | fromEnd
  deriving DecidableEq, Repr

/-- Write `bs` over `d` from position `pos` on, filling a hole with NULs. A write of no
bytes fills no hole. -/
def overwrite (d : Bytes) (pos : ℕ) (bs : Bytes) : Bytes :=
  if bs = [] then d
  else d.take pos ++ List.replicate (pos - d.length) 0 ++ bs ++ d.drop (pos + bs.length)

@[simp] theorem overwrite_nil_right (d : Bytes) (pos : ℕ) : overwrite d pos [] = d := rfl

theorem overwrite_end (d bs : Bytes) : overwrite d d.length bs = d ++ bs := by
  by_cases h : bs = []
  · rw [h, overwrite_nil_right, List.append_nil]
  · simp [overwrite, h]

namespace Fs

/-- The contents of the file with this name. -/
def contents (fs : Fs) (path : CStr) : Option Bytes := (fs.dir path).map fs.data

/-- The names lead to inodes in use. -/
def WellFormed (fs : Fs) : Prop := ∀ path i, fs.dir path = some i → i < fs.nextIno

/-- `fopen (path, "r")`. -/
def openRead (path : CStr) (fs : Fs) : Option (ℕ × Fs) :=
  (fs.dir path).map fun i =>
    (fs.nextFd, { fs with
      stream := Function.update fs.stream fs.nextFd ⟨i, 0, []⟩
      nextFd := fs.nextFd + 1 })

/-- The inode `fopen (path, "w")` truncates or creates. -/
def target (path : CStr) (fs : Fs) : ℕ := (fs.dir path).getD fs.nextIno

/-- The file system after `fopen (path, "w")`. -/
def truncated (path : CStr) (fs : Fs) : Fs where
  dir := Function.update fs.dir path (some (fs.target path))
  data := Function.update fs.data (fs.target path) []
  stream := Function.update fs.stream fs.nextFd ⟨fs.target path, 0, []⟩
  nextIno := if fs.dir path = none then fs.nextIno + 1 else fs.nextIno
  nextFd := fs.nextFd + 1
  writable := fs.writable

/-- `fopen (path, "w")`. -/
def openWrite (path : CStr) (fs : Fs) : Option (ℕ × Fs) :=
  if fs.writable path then some (fs.nextFd, fs.truncated path) else none

/-- `fseek`: a position before the start of the file is refused. -/
def seek (fd : ℕ) (off : ℤ) (whence : Whence) (fs : Fs) : Option Fs :=
  let s := fs.stream fd
  let pos : ℤ := match whence with
    | .set => off
    | .fromEnd => (fs.data s.ino).length + off
  if pos < 0 then none
  else some { fs with stream := Function.update fs.stream fd { s with pos := pos.toNat } }

/-- The stream at another position of the same file. -/
def seeked (fd q : ℕ) (fs : Fs) : Fs :=
  { fs with stream := Function.update fs.stream fd { fs.stream fd with pos := q } }

theorem seek_set (fd q : ℕ) (fs : Fs) : fs.seek fd q .set = some (fs.seeked fd q) := by
  have h : ¬ (q : ℤ) < 0 := by omega
  simp [seek, seeked, h]

theorem seek_fromEnd (fd : ℕ) (fs : Fs) :
    fs.seek fd 0 .fromEnd = some (fs.seeked fd (fs.data (fs.stream fd).ino).length) := by
  have h : ¬ ((fs.data (fs.stream fd).ino).length : ℤ) < 0 := by omega
  simp [seek, seeked, h]

theorem writable_seek {fs fs' : Fs} {fd : ℕ} {off : ℤ} {whence : Whence}
    (h : fs.seek fd off whence = some fs') : fs'.writable = fs.writable := by
  have hs := (Option.ite_none_left_eq_some.mp h).2
  obtain rfl := Option.some.inj hs
  rfl

/-- `ftell`. -/
def tell (fd : ℕ) (fs : Fs) : ℤ := (fs.stream fd).pos

/-- `fread` of at most `n` bytes. -/
def get (fd n : ℕ) (fs : Fs) : Bytes × Fs :=
  let s := fs.stream fd
  let bs := ((fs.data s.ino).drop s.pos).take n
  (bs, { fs with stream := Function.update fs.stream fd { s with pos := s.pos + bs.length } })

/-- Hand the first `k` buffered bytes to the kernel. -/
def flush (fd k : ℕ) (fs : Fs) : Fs :=
  let s := fs.stream fd
  let bs := s.buf.take k
  { fs with
    data := Function.update fs.data s.ino (overwrite (fs.data s.ino) s.pos bs)
    stream := Function.update fs.stream fd ⟨s.ino, s.pos + bs.length, s.buf.drop k⟩ }

/-- `fprintf`: the bytes enter the buffer, of which stdio writes out `k`. -/
def put (fd : ℕ) (bs : Bytes) (k : ℕ) (fs : Fs) : Fs :=
  let s := fs.stream fd
  flush fd k
    { fs with stream := Function.update fs.stream fd { s with buf := s.buf ++ bs } }

/-- `fclose` writes out the rest of the buffer. -/
def close (fd : ℕ) (fs : Fs) : Fs := flush fd (fs.stream fd).buf.length fs

/-- `rename`, which does nothing when both names lead to the same inode. -/
def rename (old new : CStr) (fs : Fs) : Option Fs :=
  match fs.dir old with
  | none => none
  | some i =>
    if fs.dir new = some i then some fs
    else some { fs with
      dir := Function.update (Function.update fs.dir new (some i)) old none }

/-- `unlink`. -/
def unlink (path : CStr) (fs : Fs) : Fs :=
  { fs with dir := Function.update fs.dir path none }

/-- Closing a stream with nothing to write out changes no file. -/
theorem close_reading {fs : Fs} {fd : ℕ} (h : (fs.stream fd).buf = []) : fs.close fd = fs := by
  have hs : (⟨(fs.stream fd).ino, (fs.stream fd).pos, []⟩ : Stream) = fs.stream fd := by rw [← h]
  simp only [close, flush, h, List.length_nil, List.take_nil, List.drop_nil, Nat.add_zero,
    overwrite_nil_right, hs, Function.update_eq_self]

/-! ### Frames -/

section Frame

variable (fs : Fs) (fd k : ℕ) (bs : Bytes)

@[simp] theorem dir_flush : (fs.flush fd k).dir = fs.dir := rfl
@[simp] theorem dir_put : (fs.put fd bs k).dir = fs.dir := rfl
@[simp] theorem dir_close : (fs.close fd).dir = fs.dir := rfl
@[simp] theorem writable_put : (fs.put fd bs k).writable = fs.writable := rfl
@[simp] theorem writable_close : (fs.close fd).writable = fs.writable := rfl
@[simp] theorem nextIno_put : (fs.put fd bs k).nextIno = fs.nextIno := rfl
@[simp] theorem nextIno_close : (fs.close fd).nextIno = fs.nextIno := rfl

@[simp] theorem ino_flush : ((fs.flush fd k).stream fd).ino = (fs.stream fd).ino := by
  simp [flush]

@[simp] theorem ino_put : ((fs.put fd bs k).stream fd).ino = (fs.stream fd).ino := by
  simp [put]

theorem data_flush_of_ne {i : ℕ} (h : i ≠ (fs.stream fd).ino) :
    (fs.flush fd k).data i = fs.data i := by
  simp [flush, Function.update_of_ne h]

theorem data_put_of_ne {i : ℕ} (h : i ≠ (fs.stream fd).ino) :
    (fs.put fd bs k).data i = fs.data i := by
  rw [put, data_flush_of_ne _ _ _ (by simpa using h)]

theorem data_close_of_ne {i : ℕ} (h : i ≠ (fs.stream fd).ino) :
    (fs.close fd).data i = fs.data i :=
  data_flush_of_ne fs fd _ h

end Frame

/-! ### Writing a file from its start -/

/-- The stream has written part of `bs` to its inode, which holds nothing else, and
keeps the rest. -/
structure Writing (fs : Fs) (fd i : ℕ) (bs : Bytes) : Prop where
  ino : (fs.stream fd).ino = i
  pos : (fs.stream fd).pos = (fs.data i).length
  bytes : fs.data i ++ (fs.stream fd).buf = bs

section Writing

variable {fs fs' : Fs} {fd i : ℕ} {bs : Bytes} {path old new : CStr}

theorem writing_truncated (path : CStr) (fs : Fs) :
    (fs.truncated path).Writing fs.nextFd (fs.target path) [] := by
  constructor <;> simp [truncated]

theorem Writing.flush (h : fs.Writing fd i bs) (k : ℕ) : (fs.flush fd k).Writing fd i bs := by
  obtain ⟨rfl, hp, rfl⟩ := h
  constructor
  · simp
  · simp [Fs.flush, hp, overwrite_end]
  · simp [Fs.flush, hp, overwrite_end]

theorem Writing.put (h : fs.Writing fd i bs) (x : Bytes) (k : ℕ) :
    (fs.put fd x k).Writing fd i (bs ++ x) := by
  refine Writing.flush ⟨by simp [h.ino], by simp [h.pos], ?_⟩ k
  simp [← h.bytes]

theorem Writing.data_close (h : fs.Writing fd i bs) : (fs.close fd).data i = bs := by
  obtain ⟨rfl, hp, rfl⟩ := h
  simp [close, Fs.flush, hp, overwrite_end]

/-- After a successful `rename` the new name has the contents of the old. -/
theorem contents_rename (h : fs.rename old new = some fs') :
    fs'.contents new = fs.contents old := by
  unfold rename at h
  cases hd : fs.dir old with
  | none => simp [hd] at h
  | some i =>
    simp only [hd] at h
    split at h
    · rename_i hn
      obtain rfl := Option.some.inj h
      simp [contents, hd, hn]
    · rename_i hn
      have hne : new ≠ old := fun he => hn (he ▸ hd)
      obtain rfl := Option.some.inj h
      simp [contents, hd, Function.update_of_ne hne]

theorem rename_of_dir_ne {j : ℕ} (hd : fs.dir old = some j) (hn : fs.dir new ≠ some j) :
    fs.rename old new = some { fs with
      dir := Function.update (Function.update fs.dir new (some j)) old none } := by
  simp [rename, hd, hn]

theorem rename_none (h : fs.dir old = none) : fs.rename old new = none := by
  simp [rename, h]

theorem rename_isSome (h : fs.dir old ≠ none) : ∃ fs', fs.rename old new = some fs' := by
  obtain ⟨j, hj⟩ := Option.ne_none_iff_exists'.mp h
  by_cases hn : fs.dir new = some j
  · exact ⟨fs, by simp [rename, hj, hn]⟩
  · exact ⟨_, rename_of_dir_ne hj hn⟩

theorem writable_rename (h : fs.rename old new = some fs') : fs'.writable = fs.writable := by
  unfold rename at h
  split at h
  · cases h
  · split at h <;> · obtain rfl := Option.some.inj h; rfl

end Writing

end Fs

/-! ### Reading line by line -/

/-- A stream over a file that does not change while it is read: the bytes still to come,
and whether the end of the file was hit. -/
structure Reader where
  rest : Bytes
  eof : Bool
  deriving DecidableEq, Repr

/-- The bytes up to and including the first newline. -/
def firstLine : Bytes → Bytes
  | [] => []
  | c :: l => if c = 10 then [c] else c :: firstLine l

theorem firstLine_ne_nil {l : Bytes} (h : l ≠ []) : firstLine l ≠ [] := by
  cases l with
  | nil => exact absurd rfl h
  | cons c l =>
    unfold firstLine
    split <;> exact List.cons_ne_nil _ _

theorem firstLine_subset (l : Bytes) : firstLine l ⊆ l := by
  induction l with
  | nil => exact List.Subset.refl []
  | cons c l ih =>
    unfold firstLine
    split
    · exact List.cons_subset_cons c (List.nil_subset l)
    · exact List.cons_subset_cons c ih

/-- `fgets` into an array of `n` bytes. -/
def Reader.fgets (n : ℕ) (f : Reader) : Option Bytes × Reader :=
  if f.rest = [] then (none, { f with eof := true })
  else
    let s := (firstLine f.rest).take (n - 1)
    (some s, ⟨f.rest.drop s.length, f.eof || (s.length < n - 1 && s.getLast? ≠ some 10)⟩)

end ExactDaemon
