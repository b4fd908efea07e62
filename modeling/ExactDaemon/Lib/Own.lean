import Mathlib.Data.Nat.Basic
import Mathlib.Order.Basic
import ExactDaemon.Lib.Posix

/-! # Files of one's own

A process that writes only under some names of its own leaves the rest of the file system as it
is, as long as no other name leads to one of its files.
-/

namespace ExactDaemon.Fs

variable {own : CStr → Prop} {fs fs' fs'' : Fs} {path old new : CStr} {i fd k : ℕ} {bs : Bytes}

theorem ne_of_own {x : CStr} (hx : ¬ own x) (hp : own path) : x ≠ path := by
  rintro rfl
  exact hx hp

/-- A name that is not one's own leads to the inode. -/
def Foreign (own : CStr → Prop) (fs : Fs) (i : ℕ) : Prop := ∃ x, ¬ own x ∧ fs.dir x = some i

/-- The names lead to inodes in use, and no own name to one that a foreign name leads to. -/
structure Divided (own : CStr → Prop) (fs : Fs) : Prop where
  wellFormed : fs.WellFormed
  apart : ∀ x i, own x → fs.dir x = some i → ¬ fs.Foreign own i

/-- What the foreign names lead to. -/
def outside (own : CStr → Prop) (fs : Fs) : {x // ¬ own x} → Option (ℕ × Bytes) :=
  fun x => (fs.dir x).map fun i => (i, fs.data i)

/-- An open stream that may be written to. -/
structure Mine (own : CStr → Prop) (fs : Fs) (fd : ℕ) : Prop where
  lt : fd < fs.nextFd
  spare : ¬ fs.Foreign own (fs.stream fd).ino

/-- Only files under own names differ. -/
structure Changes (own : CStr → Prop) (fs fs' : Fs) : Prop where
  dir : ∀ x, ¬ own x → fs'.dir x = fs.dir x
  data : ∀ i, fs.Foreign own i → fs'.data i = fs.data i
  divided : fs'.Divided own

namespace Changes

theorem foreign_iff (h : fs.Changes own fs') (i : ℕ) : fs'.Foreign own i ↔ fs.Foreign own i :=
  exists_congr fun x => and_congr_right fun hx => by rw [h.dir x hx]

theorem outside_eq (h : fs.Changes own fs') : fs'.outside own = fs.outside own := by
  funext x
  unfold outside
  rw [h.dir x x.2]
  cases hd : fs.dir x with
  | none => rfl
  | some i => exact congrArg (fun d => some (i, d)) (h.data i ⟨x, x.2, hd⟩)

theorem refl (h : fs.Divided own) : fs.Changes own fs := ⟨fun _ _ => rfl, fun _ _ => rfl, h⟩

end Changes

theorem Divided.not_foreign_target (h : fs.Divided own) (hp : own path) :
    ¬ fs.Foreign own (fs.target path) := by
  unfold target
  cases hd : fs.dir path with
  | some i => exact h.apart path i hp hd
  | none =>
    rintro ⟨x, -, hx⟩
    exact absurd (h.wellFormed x _ hx) (lt_irrefl _)

/-! ### The operations -/

/-- Names and inodes as before, with other contents of an own file. -/
theorem Divided.of_same (h : fs.Divided own) (hd : fs'.dir = fs.dir)
    (hn : fs.nextIno ≤ fs'.nextIno) : fs'.Divided own where
  wellFormed x i hx := (h.wellFormed x i (hd ▸ hx)).trans_le hn
  apart x i hx hi := by
    rintro ⟨y, hy, hyi⟩
    exact h.apart x i hx (hd ▸ hi) ⟨y, hy, hd ▸ hyi⟩

theorem changes_flush (h : fs.Divided own) (hm : ¬ fs.Foreign own (fs.stream fd).ino) (k : ℕ) :
    fs.Changes own (fs.flush fd k) where
  dir _ _ := rfl
  data i hi := by
    have hne : i ≠ (fs.stream fd).ino := by
      rintro rfl
      exact hm hi
    exact data_flush_of_ne fs fd k hne
  divided := h.of_same rfl le_rfl

theorem changes_put (h : fs.Divided own) (hm : ¬ fs.Foreign own (fs.stream fd).ino) (bs : Bytes)
    (k : ℕ) : fs.Changes own (fs.put fd bs k) where
  dir _ _ := rfl
  data i hi := by
    have hne : i ≠ (fs.stream fd).ino := by
      rintro rfl
      exact hm hi
    exact data_put_of_ne fs fd k bs hne
  divided := h.of_same rfl le_rfl

/-- Another inode for an own name. -/
theorem Divided.update (h : fs.Divided own) (hp : own path) (hi : ¬ fs.Foreign own i)
    (hd : fs'.dir = Function.update fs.dir path (some i)) (hlt : i < fs'.nextIno)
    (hn : fs.nextIno ≤ fs'.nextIno) : fs'.Divided own := by
  have hforeign : ∀ j, fs'.Foreign own j → fs.Foreign own j := by
    rintro j ⟨y, hy, hyj⟩
    rw [hd, Function.update_of_ne (ne_of_own hy hp)] at hyj
    exact ⟨y, hy, hyj⟩
  constructor
  · intro x j hx
    rw [hd] at hx
    by_cases hxp : x = path
    · rw [hxp, Function.update_self] at hx
      rwa [← Option.some.inj hx]
    · rw [Function.update_of_ne hxp] at hx
      exact (h.wellFormed x j hx).trans_le hn
  · intro x j hx hj hf
    rw [hd] at hj
    by_cases hxp : x = path
    · rw [hxp, Function.update_self] at hj
      exact hi (Option.some.inj hj ▸ hforeign j hf)
    · rw [Function.update_of_ne hxp] at hj
      exact h.apart x j hx hj (hforeign j hf)

/-- An own name that leads nowhere. -/
theorem Divided.remove (h : fs.Divided own)
    (hd : fs'.dir = Function.update fs.dir path none) (hn : fs.nextIno ≤ fs'.nextIno) :
    fs'.Divided own := by
  have hdir : ∀ x j, fs'.dir x = some j → fs.dir x = some j := by
    intro x j hx
    by_cases hxp : x = path
    · rw [hd, hxp, Function.update_self] at hx
      cases hx
    · rwa [hd, Function.update_of_ne hxp] at hx
  constructor
  · exact fun x j hx => (h.wellFormed x j (hdir x j hx)).trans_le hn
  · rintro x j hx hj ⟨y, hy, hyj⟩
    exact h.apart x j hx (hdir x j hj) ⟨y, hy, hdir y j hyj⟩

theorem target_lt (h : fs.WellFormed) (path : CStr) :
    fs.target path < (fs.truncated path).nextIno := by
  unfold target truncated
  cases hd : fs.dir path with
  | some i => exact h path i hd
  | none => exact Nat.lt_succ_self _

theorem changes_truncated (h : fs.Divided own) (hp : own path) :
    fs.Changes own (fs.truncated path) where
  dir x hx := Function.update_of_ne (ne_of_own hx hp) _ _
  data i hi := by
    have hne : i ≠ fs.target path := by
      rintro rfl
      exact h.not_foreign_target hp hi
    exact Function.update_of_ne hne _ _
  divided := by
    refine h.update hp (h.not_foreign_target hp) rfl (target_lt h.wellFormed path) ?_
    unfold truncated
    dsimp only
    split
    · exact Nat.le_succ _
    · exact le_rfl

theorem mine_truncated (h : fs.Divided own) (hp : own path) :
    (fs.truncated path).Mine own fs.nextFd where
  lt := Nat.lt_succ_self _
  spare := by
    rw [(changes_truncated h hp).foreign_iff]
    change ¬ fs.Foreign own (Function.update fs.stream fs.nextFd ⟨_, 0, []⟩ fs.nextFd).ino
    rw [Function.update_self]
    exact h.not_foreign_target hp

theorem changes_rename (h : fs.Divided own) (ho : own old) (hn : own new)
    (hr : fs.rename old new = some fs') : fs.Changes own fs' := by
  unfold rename at hr
  split at hr
  · cases hr
  · next i hi =>
    split at hr
    · cases hr
      exact .refl h
    · cases hr
      refine ⟨fun x hx => ?_, fun _ _ => rfl, ?_⟩
      · exact (Function.update_of_ne (ne_of_own hx ho) _ _).trans
          (Function.update_of_ne (ne_of_own hx hn) _ _)
      · have hmoved : ({ fs with dir := Function.update fs.dir new (some i) } : Fs).Divided own :=
          h.update hn (h.apart old i ho hi) rfl (h.wellFormed old i hi) le_rfl
        exact hmoved.remove rfl le_rfl

theorem changes_unlink (h : fs.Divided own) (hp : own path) : fs.Changes own (fs.unlink path) where
  dir _ hx := Function.update_of_ne (ne_of_own hx hp) _ _
  data _ _ := rfl
  divided := h.remove rfl le_rfl

/-- A new file under an own name. -/
theorem changes_create (h : fs.Divided own) (hp : own path)
    (hd : fs'.dir = Function.update fs.dir path (some fs.nextIno))
    (hdata : fs'.data = Function.update fs.data fs.nextIno bs)
    (hn : fs'.nextIno = fs.nextIno + 1) : fs.Changes own fs' := by
  have hnew : ¬ fs.Foreign own fs.nextIno := by
    rintro ⟨x, -, hx⟩
    exact absurd (h.wellFormed x _ hx) (lt_irrefl _)
  refine ⟨fun x hx => ?_, fun i hi => ?_, ?_⟩
  · rw [hd, Function.update_of_ne (ne_of_own hx hp)]
  · have hne : i ≠ fs.nextIno := by
      rintro rfl
      exact hnew hi
    rw [hdata, Function.update_of_ne hne]
  · exact h.update hp hnew hd (hn ▸ Nat.lt_succ_self _) (hn ▸ Nat.le_succ _)

/-! ### What others may do -/

/-- The open streams are left alone, and none that may be written to gets a foreign name. -/
structure Others (own : CStr → Prop) (fs fs' : Fs) : Prop where
  nextFd : fs.nextFd ≤ fs'.nextFd
  stream : ∀ fd < fs.nextFd, fs'.stream fd = fs.stream fd
  spare : ∀ fd < fs.nextFd, ¬ fs.Foreign own (fs.stream fd).ino →
    ¬ fs'.Foreign own (fs'.stream fd).ino

namespace Others

theorem refl (fs : Fs) : fs.Others own fs := ⟨le_rfl, fun _ _ => rfl, fun _ _ h => h⟩

theorem trans (h : fs.Others own fs') (h' : fs'.Others own fs'') : fs.Others own fs'' where
  nextFd := h.nextFd.trans h'.nextFd
  stream fd hfd := (h'.stream fd (hfd.trans_le h.nextFd)).trans (h.stream fd hfd)
  spare fd hfd hs := h'.spare fd (hfd.trans_le h.nextFd) (h.spare fd hfd hs)

theorem mine (h : fs.Others own fs') (hm : fs.Mine own fd) : fs'.Mine own fd :=
  ⟨hm.lt.trans_le h.nextFd, h.spare fd hm.lt hm.spare⟩

end Others

/-- A change of own files that leaves these streams alone. -/
theorem Changes.others (h : fs'.Changes own fs'') (ho : fs.Others own fs')
    (hn : fs'.nextFd ≤ fs''.nextFd) (hs : ∀ fd < fs.nextFd, fs''.stream fd = fs'.stream fd) :
    fs.Others own fs'' where
  nextFd := ho.nextFd.trans hn
  stream fd hfd := (hs fd hfd).trans (ho.stream fd hfd)
  spare fd hfd hsp := by
    rw [h.foreign_iff, hs fd hfd]
    exact ho.spare fd hfd hsp

/-! ### Moving to the root directory -/

/-- With a name the absolute one is one's own, and the other way round. -/
def Rooted (own : CStr → Prop) : Prop := ∀ x, own (absolute x) ↔ own x

theorem Foreign.of_fromRoot (hown : Rooted own) (h : fs.fromRoot.Foreign own i) :
    fs.Foreign own i := by
  obtain ⟨x, hx, hi⟩ := h
  exact ⟨absolute x, mt (hown x).mp hx, hi⟩

theorem Divided.fromRoot (hown : Rooted own) (h : fs.Divided own) : fs.fromRoot.Divided own where
  wellFormed x := h.wellFormed (absolute x)
  apart x i hx hi hf := h.apart (absolute x) i ((hown x).mpr hx) hi (hf.of_fromRoot hown)

theorem stream_flush_of_ne {fd' : ℕ} (hne : fd' ≠ fd) (k : ℕ) :
    (fs.flush fd k).stream fd' = fs.stream fd' := Function.update_of_ne hne _ _

theorem stream_put_of_ne {fd' : ℕ} (hne : fd' ≠ fd) (bs : Bytes) (k : ℕ) :
    (fs.put fd bs k).stream fd' = fs.stream fd' :=
  (stream_flush_of_ne hne k).trans (Function.update_of_ne hne _ _)

theorem Mine.flush (h : fs.Mine own fd) (hd : fs.Divided own) (k : ℕ) :
    (fs.flush fd k).Mine own fd :=
  ⟨h.lt, by rw [(changes_flush hd h.spare k).foreign_iff, ino_flush]; exact h.spare⟩

theorem Mine.put (h : fs.Mine own fd) (hd : fs.Divided own) (bs : Bytes) (k : ℕ) :
    (fs.put fd bs k).Mine own fd :=
  ⟨h.lt, by rw [(changes_put hd h.spare bs k).foreign_iff, ino_put]; exact h.spare⟩

end ExactDaemon.Fs
