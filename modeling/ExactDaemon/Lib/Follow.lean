import Mathlib.Data.List.Flatten
import Mathlib.Data.List.Nodup
import Mathlib.Data.List.Range
import ExactDaemon.Lib.Posix

/-! # Following a name through a succession of files

Others append to the file that has a name, move it away, and create an empty file in
its place. A reader has read the first of these files to their ends, holds one open
at a position, and has the later ones still ahead. `Upto` says that what it got is
what the files hold up to there. It survives every move of the others except one: to
move away a file with bytes in it that the reader has not opened.
-/

namespace ExactDaemon

/-- What is on disk, apart from who has it open. -/
structure Disk where
  dir : CStr → Option ℕ
  data : ℕ → Bytes
  nextIno : ℕ

def Fs.disk (fs : Fs) : Disk := ⟨fs.dir, fs.data, fs.nextIno⟩

def Fs.withDisk (fs : Fs) (d : Disk) : Fs :=
  { fs with dir := d.dir, data := d.data, nextIno := d.nextIno }

/-- What others do around a file that is followed by its name. -/
inductive LogMove where
  | append (bs : Bytes)
  | rotate (away : CStr)
  | create
  | tick (n : ℕ)
  deriving DecidableEq, Repr

def LogMove.ticks : LogMove → ℕ
  | tick n => n
  | _ => 0

/-- A file as its follower finds it: its inode, what it holds, and the first inode
not in use. -/
structure Origin where
  ino : ℕ
  before : Bytes
  next : ℕ
  ino_lt : ino < next

/-- The files that have had the name, in order: only a new file takes a new inode. -/
def Origin.files (o : Origin) (d : Disk) : List ℕ :=
  o.ino :: List.range' o.next (d.nextIno - o.next)

namespace Disk

/-- One move. Appends go to the file that has the name at that moment. -/
def move (log : CStr) (d : Disk) : LogMove → Disk
  | .append bs =>
    match d.dir log with
    | none => d
    | some i => { d with data := Function.update d.data i (d.data i ++ bs) }
  | .rotate away =>
    match d.dir log with
    | none => d
    | some i =>
      { d with dir := Function.update (Function.update d.dir away (some i)) log none }
  | .create =>
    match d.dir log with
    | none =>
      { dir := Function.update d.dir log (some d.nextIno)
        data := Function.update d.data d.nextIno []
        nextIno := d.nextIno + 1 }
    | some _ => d
  | .tick _ => d

/-- The file with the name is moved away only while the reader holds it, or empty. -/
def Spares (log : CStr) (d : Disk) (held : Option ℕ) : LogMove → Prop
  | .rotate _ => ∀ j, d.dir log = some j → held = some j ∨ d.data j = []
  | _ => True

/-- The successive files: those read to the end, the one held, and those not opened
yet, of which only the one with the name can hold anything. -/
structure Split (log : CStr) (o : Origin) (d : Disk) (done : List ℕ) (held : Option ℕ)
    (ahead : List ℕ) : Prop where
  files : o.files d = done ++ (held.toList ++ ahead)
  named : ∀ j, d.dir log = some j → (held.toList ++ ahead).getLast? = some j
  empty : ∀ j ∈ ahead, d.dir log = some j ∨ d.data j = []
  nextIno : o.next ≤ d.nextIno

/-- What the held file holds up to the position. -/
def taken (d : Disk) : Option (ℕ × ℕ) → Bytes
  | none => []
  | some (i, p) => (d.data i).take p

/-- A reader that stands at `cur` got what the successive files hold up to there. -/
structure Upto (log : CStr) (o : Origin) (d : Disk) (cur : Option (ℕ × ℕ)) (got : Bytes) :
    Prop where
  le_length : ∀ i p, cur = some (i, p) → p ≤ (d.data i).length
  split : ∃ done ahead, Split log o d done (cur.map Prod.fst) ahead ∧
    o.before ++ got = done.flatMap d.data ++ d.taken cur

variable {log : CStr} {o : Origin} {d : Disk} {done ahead : List ℕ} {held : Option ℕ}
  {cur : Option (ℕ × ℕ)} {got : Bytes} {i j p q : ℕ}

/-! ### The moves, by whether a file has the name -/

section Move

variable {bs : Bytes} {away : CStr}

theorem move_append_none (h : d.dir log = none) : d.move log (.append bs) = d := by
  simp [move, h]

theorem move_append_some (h : d.dir log = some j) :
    d.move log (.append bs) =
      { d with data := Function.update d.data j (d.data j ++ bs) } := by
  simp [move, h]

theorem move_rotate_none (h : d.dir log = none) : d.move log (.rotate away) = d := by
  simp [move, h]

theorem move_rotate_some (h : d.dir log = some j) :
    d.move log (.rotate away) =
      { d with dir := Function.update (Function.update d.dir away (some j)) log none } := by
  simp [move, h]

theorem move_create_none (h : d.dir log = none) :
    d.move log .create =
      { dir := Function.update d.dir log (some d.nextIno)
        data := Function.update d.data d.nextIno []
        nextIno := d.nextIno + 1 } := by
  simp [move, h]

theorem move_create_some (h : d.dir log = some j) : d.move log .create = d := by
  simp [move, h]

theorem data_rotate : (d.move log (.rotate away)).data = d.data := by
  cases h : d.dir log with
  | none => rw [move_rotate_none h]
  | some j => rw [move_rotate_some h]

/-- No file is named where one was moved away. -/
theorem dir_rotate : (d.move log (.rotate away)).dir log = none := by
  cases h : d.dir log with
  | none => rw [move_rotate_none h, h]
  | some j => simp [move_rotate_some h]

theorem nextIno_move (d : Disk) (m : LogMove) : d.nextIno ≤ (d.move log m).nextIno := by
  unfold move
  split <;> try split
  all_goals simp

/-- No move changes what a file in use holds, but for what is appended. -/
theorem data_move (hi : i < d.nextIno) (m : LogMove) :
    d.data i <+: (d.move log m).data i := by
  cases m with
  | tick n => exact List.prefix_refl _
  | rotate away => simp [data_rotate]
  | append bs =>
    cases h : d.dir log with
    | none => simp [move_append_none h]
    | some j =>
      rw [move_append_some h]
      by_cases hij : i = j
      · subst hij
        simp
      · simp [Function.update_of_ne hij]
  | create =>
    cases h : d.dir log with
    | none =>
      rw [move_create_none h]
      simp [Function.update_of_ne hi.ne]
    | some j => simp [move_create_some h]

end Move

theorem nodup_files (o : Origin) (d : Disk) : (o.files d).Nodup := by
  rw [Origin.files, List.nodup_cons]
  refine ⟨fun h => ?_, List.nodup_range'⟩
  have hle := (List.mem_range'_1.mp h).1
  have hlt := o.ino_lt
  omega

theorem mem_files_lt (h : o.next ≤ d.nextIno) (hj : j ∈ o.files d) : j < d.nextIno := by
  rcases List.mem_cons.mp hj with rfl | hj
  · exact lt_of_lt_of_le o.ino_lt h
  · have hlt := (List.mem_range'_1.mp hj).2
    omega

namespace Split

theorem nodup (h : Split log o d done held ahead) :
    (done ++ (held.toList ++ ahead)).Nodup := h.files ▸ nodup_files o d

theorem named_not_mem_done (h : Split log o d done held ahead) (hj : d.dir log = some j) :
    j ∉ done := by
  intro hm
  exact List.disjoint_of_nodup_append h.nodup hm (List.mem_of_getLast? (h.named j hj))

theorem held_not_mem_ahead (h : Split log o d done (some i) ahead) : i ∉ ahead := by
  have hn := (List.nodup_append.mp h.nodup).2.1
  exact (List.nodup_cons.mp hn).1

theorem append (h : Split log o d done held ahead) (bs : Bytes) :
    Split log o (d.move log (.append bs)) done held ahead := by
  cases hd : d.dir log with
  | none => rwa [move_append_none hd]
  | some j =>
    rw [move_append_some hd]
    refine ⟨h.files, h.named, fun k hk => ?_, h.nextIno⟩
    rcases h.empty k hk with hn | he
    · exact Or.inl hn
    · by_cases hkj : k = j
      · exact Or.inl (hkj ▸ hd)
      · exact Or.inr ((Function.update_of_ne hkj _ _).trans he)

theorem rotate (h : Split log o d done held ahead) {away : CStr}
    (hs : d.Spares log held (.rotate away)) :
    Split log o (d.move log (.rotate away)) done held ahead := by
  cases hd : d.dir log with
  | none => rwa [move_rotate_none hd]
  | some j =>
    rw [move_rotate_some hd]
    refine ⟨h.files, fun k hk => ?_, fun k hk => ?_, h.nextIno⟩
    · simp at hk
    · refine Or.inr ?_
      rcases h.empty k hk with hn | he
      · rcases hs k hn with rfl | he
        · exact absurd hk h.held_not_mem_ahead
        · exact he
      · exact he

theorem create (h : Split log o d done held ahead) :
    ∃ ahead', Split log o (d.move log .create) done held ahead' := by
  cases hd : d.dir log with
  | some j => exact ⟨ahead, by rwa [move_create_some hd]⟩
  | none =>
    rw [move_create_none hd]
    have hn : d.nextIno + 1 - o.next = (d.nextIno - o.next) + 1 := by
      have := h.nextIno
      omega
    refine ⟨ahead ++ [d.nextIno], ?_, fun k hk => ?_, fun k hk => ?_, Nat.le_succ_of_le h.nextIno⟩
    · have hf := h.files
      simp only [Origin.files] at hf ⊢
      rw [hn, List.range'_concat, ← List.cons_append, hf, Nat.one_mul,
        Nat.add_sub_cancel' h.nextIno]
      simp
    · obtain rfl : d.nextIno = k := by simpa using hk
      simp
    · rcases List.mem_append.mp hk with hk | hk
      · refine Or.inr ?_
        by_cases hkn : k = d.nextIno
        · simp [hkn]
        · rcases h.empty k hk with hn' | he
          · rw [hd] at hn'
            cases hn'
          · exact (Function.update_of_ne hkn _ _).trans he
      · obtain rfl := List.mem_singleton.mp hk
        exact Or.inl (Function.update_self _ _ _)

end Split

theorem flatMap_update_of_not_mem {l : List ℕ} {f : ℕ → Bytes} {bs : Bytes} (h : j ∉ l) :
    l.flatMap (Function.update f j bs) = l.flatMap f := by
  refine List.flatMap_congr fun k hk => Function.update_of_ne ?_ _ _
  rintro rfl
  exact h hk

/-- Whoever reads on after a move of the others has still got what precedes its position. -/
theorem Upto.move (h : Upto log o d cur got) {m : LogMove}
    (hs : d.Spares log (cur.map Prod.fst) m) : Upto log o (d.move log m) cur got := by
  obtain ⟨hp, done, ahead, hd, hg⟩ := h
  cases m with
  | tick n => exact ⟨hp, done, ahead, hd, hg⟩
  | rotate away =>
    refine ⟨fun i p hc => ?_, done, ahead, hd.rotate hs, ?_⟩
    · rw [data_rotate]
      exact hp i p hc
    rw [hg]
    cases cur <;> simp only [taken, data_rotate]
  | append bs =>
    have hsplit := hd.append bs
    cases hn : d.dir log with
    | none =>
      rw [move_append_none hn]
      exact ⟨hp, done, ahead, hd, hg⟩
    | some j =>
      rw [move_append_some hn] at hsplit ⊢
      have hpre : ∀ i p, cur = some (i, p) →
          d.data i <+: Function.update d.data j (d.data j ++ bs) i := by
        rintro i p rfl
        have hi : i < d.nextIno := mem_files_lt hd.nextIno (by rw [hd.files]; simp)
        have hm : d.data i <+: (d.move log (.append bs)).data i := data_move hi _
        rwa [move_append_some hn] at hm
      refine ⟨fun i p hc => (hp i p hc).trans (hpre i p hc).length_le, done, ahead, hsplit, ?_⟩
      rw [hg, flatMap_update_of_not_mem (hd.named_not_mem_done hn)]
      cases cur with
      | none => rfl
      | some c =>
        obtain ⟨i, p⟩ := c
        obtain ⟨t, ht⟩ := hpre i p rfl
        simp only [taken]
        rw [← ht, List.take_append_of_le_length (hp i p rfl)]
  | create =>
    obtain ⟨ahead', hsplit⟩ := hd.create
    cases hn : d.dir log with
    | some j =>
      rw [move_create_some hn]
      exact ⟨hp, done, ahead, hd, hg⟩
    | none =>
      rw [move_create_none hn] at hsplit ⊢
      have hlt : ∀ i ∈ o.files d, i ≠ d.nextIno := fun i hi => (mem_files_lt hd.nextIno hi).ne
      have hheld : ∀ i p, cur = some (i, p) → i ≠ d.nextIno := by
        rintro i p rfl
        exact hlt i (by rw [hd.files]; simp)
      refine ⟨fun i p hc => ?_, done, ahead', hsplit, ?_⟩
      · simpa only [Function.update_of_ne (hheld i p hc)] using hp i p hc
      · have hdone : d.nextIno ∉ done := fun hm =>
          hlt _ (by rw [hd.files]; exact List.mem_append_left _ hm) rfl
        rw [hg, flatMap_update_of_not_mem hdone]
        cases cur with
        | none => rfl
        | some c => simp only [taken, Function.update_of_ne (hheld c.1 c.2 rfl)]

/-! ### The reader's own steps -/

/-- Reading on in the held file. -/
theorem Upto.read (h : Upto log o d (some (i, p)) got) (hpq : p ≤ q)
    (hq : q ≤ (d.data i).length) :
    Upto log o d (some (i, q)) (got ++ ((d.data i).take q).drop p) := by
  obtain ⟨-, done, ahead, hd, hg⟩ := h
  refine ⟨?_, done, ahead, hd, ?_⟩
  · rintro _ _ ⟨⟩
    exact hq
  · rw [← List.append_assoc, hg, List.append_assoc]
    congr 1
    have ht : (d.data i).take p = ((d.data i).take q).take p := by
      rw [List.take_take, Nat.min_eq_left hpq]
    rw [taken, ht, List.take_append_drop]
    rfl

/-- A file that was read to its end is left for the one with the name, if any. -/
theorem Upto.leave (h : Upto log o d cur got)
    (hend : ∀ i p, cur = some (i, p) → p = (d.data i).length ∧ d.dir log ≠ some i) :
    Upto log o d ((d.dir log).map (·, 0)) got := by
  obtain ⟨-, done, ahead, hd, hg⟩ := h
  have hfull : o.before ++ got = (done ++ (cur.map Prod.fst).toList).flatMap d.data := by
    rw [hg]
    cases cur with
    | none => simp [taken]
    | some c =>
      obtain ⟨i, p⟩ := c
      obtain ⟨rfl, -⟩ := hend i p rfl
      simp [taken]
  cases hn : d.dir log with
  | none =>
    have hempty : ahead.flatMap d.data = [] := by
      refine List.flatMap_eq_nil_iff.mpr fun k hk => ?_
      rcases hd.empty k hk with hk' | hk'
      · rw [hn] at hk'
        cases hk'
      · exact hk'
    refine ⟨nofun, done ++ ((cur.map Prod.fst).toList ++ ahead), [],
      ⟨?_, ?_, nofun, hd.nextIno⟩, ?_⟩
    · simpa using hd.files
    · rw [hn]
      exact nofun
    · simp [hfull, hempty, taken]
  | some j =>
    have hlast := hd.named j hn
    have hmem : ahead.getLast? = some j := by
      cases cur with
      | none => simpa using hlast
      | some c =>
        have hne : ahead ≠ [] := by
          rintro rfl
          obtain rfl : c.1 = j := by simpa using hlast
          exact (hend c.1 c.2 rfl).2 hn
        have hl : (c.1 :: ahead).getLast? = some j := hlast
        rwa [List.getLast?_cons_of_ne_nil hne] at hl
    obtain ⟨mid, rfl⟩ := List.getLast?_eq_some_iff.mp hmem
    have hmid : mid.flatMap d.data = [] := by
      refine List.flatMap_eq_nil_iff.mpr fun k hk => ?_
      rcases hd.empty k (List.mem_append_left _ hk) with hk' | hk'
      · obtain rfl := Option.some.inj (hn.symm.trans hk')
        have hnd := (List.nodup_append.mp (List.nodup_append.mp hd.nodup).2.1).2.1
        exact absurd (List.mem_singleton_self _) (List.disjoint_of_nodup_append hnd hk)
      · exact hk'
    refine ⟨?_, done ++ ((cur.map Prod.fst).toList ++ mid), [], ⟨?_, ?_, nofun, hd.nextIno⟩, ?_⟩
    · rintro _ _ ⟨⟩
      exact Nat.zero_le _
    · simpa using hd.files
    · rintro k hk
      rw [hn] at hk
      simpa using hk
    · simp [hfull, hmid, taken]

/-- At the end of the file with the name, or where no file has it, all has been read. -/
theorem Upto.complete (h : Upto log o d cur got)
    (hend : ∀ i p, cur = some (i, p) → p = (d.data i).length)
    (hnamed : d.dir log = none ∨ d.dir log = cur.map Prod.fst) :
    o.before ++ got = (o.files d).flatMap d.data := by
  obtain ⟨-, done, ahead, hd, hg⟩ := h
  have hempty : ahead.flatMap d.data = [] := by
    refine List.flatMap_eq_nil_iff.mpr fun k hk => ?_
    rcases hd.empty k hk with hk' | hk'
    · rcases hnamed with hn | hn
      · rw [hn] at hk'
        cases hk'
      · rw [hn] at hk'
        rw [hk'] at hd
        exact absurd hk hd.held_not_mem_ahead
    · exact hk'
  rw [hg, hd.files, List.flatMap_append, List.flatMap_append, hempty]
  cases cur with
  | none => simp [taken]
  | some c =>
    obtain ⟨i, p⟩ := c
    obtain rfl := hend i p rfl
    simp [taken]

/-- Where no further file was created, what was read is from the first one. -/
theorem Upto.single (h : Upto log o d (some (i, p)) got) (hn : d.nextIno = o.next) :
    o.before ++ got = (d.data i).take p := by
  obtain ⟨-, done, ahead, hd, hg⟩ := h
  have hf := hd.files
  rw [Origin.files, hn, Nat.sub_self, List.range'_zero] at hf
  cases done with
  | nil => exact hg
  | cons j done => simp at hf

/-- What the reader got is the beginning of what was written. -/
theorem Upto.prefix_files (h : Upto log o d cur got) :
    o.before ++ got <+: (o.files d).flatMap d.data := by
  obtain ⟨-, done, ahead, hd, hg⟩ := h
  rw [hg, hd.files, List.flatMap_append, List.flatMap_append]
  refine (List.prefix_append_right_inj _).mpr ?_
  cases cur with
  | none => exact List.nil_prefix
  | some c =>
    refine List.IsPrefix.trans ?_ (List.prefix_append _ _)
    simpa [taken] using List.take_prefix _ _

end Disk

end ExactDaemon
