import ExactDaemon.Lib.Follow
import ExactDaemon.Lib.Weave
import ExactDaemon.Tail.Tail

/-! # One poll under interference

Between any two statements of `tail_open` and `tail_read` others may append to the
log, move it away, create it anew, or let time pass. As long as every step is benign,
`tail_read` returns, and the stream's position stays what has been delivered.
-/

namespace ExactDaemon

open Prog

namespace World

def disk (w : World) : Disk := w.fs.disk

/-- The inode and the position of the stream that `f` points to. -/
def cur (w : World) : Option (ℕ × ℕ) :=
  w.tail.f.map fun fd => ((w.fs.stream fd).ino, (w.fs.stream fd).pos)

/-- The inode of the stream that `f` points to. -/
def held (w : World) : Option ℕ := w.cur.map Prod.fst

/-- A move of the others. -/
def others (log : CStr) (w : World) (m : LogMove) : World :=
  { w with fs := w.fs.withDisk (w.disk.move log m), clock := w.clock + m.ticks }

def seeked (w : World) (fd q : ℕ) : World := { w with fs := w.fs.seeked fd q }

theorem fseek_set (w : World) (fd q : ℕ) : w.fseek fd q .set = (0, w.seeked fd q) := by
  rw [fseek, Fs.seek_set]
  rfl

theorem fseek_fromEnd (w : World) (fd : ℕ) :
    w.fseek fd 0 .fromEnd = (0, w.seeked fd (w.disk.data (w.fs.stream fd).ino).length) := by
  rw [fseek, Fs.seek_fromEnd]
  rfl

end World

/-- What the others do between two statements. -/
def others (log : CStr) : List LogMove → Prog World Unit
  | [] => pure ()
  | m :: ms => do
    modify (·.others log m)
    others log ms

/-- A poll, with what the others do before each of its statements. -/
def poll (log : CStr) (ms : List (List LogMove)) : Prog World Unit :=
  weave (ms.map (others log)) tailRead

/-- The stream with which a poll began in `w` is never moved so far that an `unsigned`
cannot count the bytes passed together with a NUL. -/
def FewFound (w t : World) : Prop :=
  ∀ fd ∈ w.tail.f, (t.fs.stream fd).pos + 1 < (w.fs.stream fd).pos + uintRange

instance (w t : World) : Decidable (FewFound w t) :=
  inferInstanceAs (Decidable (∀ fd ∈ w.tail.f, _ < _))

/-- What a step from `s` to `t`, during a poll that began in `w`, must not do: find
too many new bytes; move away a file with bytes in it that is not held; leave a held
file that has lost the name before its end; find another file at least as long as the
position in the old one. -/
structure Benign (log : CStr) (w s t : World) : Prop where
  few : FewFound w t
  spares : ∀ j ∈ s.disk.dir log, t.disk.dir log ≠ some j →
    s.held = some j ∨ s.disk.data j = []
  drained : ∀ x ∈ s.cur, t.tail.f ≠ s.tail.f → s.disk.dir log ≠ some x.1 →
    x.2 = (s.disk.data x.1).length
  shorter : ∀ x ∈ w.cur, ∀ y ∈ t.cur, t.tail.f ≠ w.tail.f → y.1 ≠ x.1 → s.cur ≠ t.cur →
    x.2 = 0 ∨ y.2 < x.2

instance (log : CStr) (w s t : World) : Decidable (Benign log w s t) :=
  have : Decidable
      ((∀ x ∈ s.cur, t.tail.f ≠ s.tail.f → s.disk.dir log ≠ some x.1 →
        x.2 = (s.disk.data x.1).length) ∧
      ∀ x ∈ w.cur, ∀ y ∈ t.cur, t.tail.f ≠ w.tail.f → y.1 ≠ x.1 → s.cur ≠ t.cur →
        x.2 = 0 ∨ y.2 < x.2) := inferInstance
  decidable_of_iff
    ((FewFound w t ∧
      ∀ j ∈ s.disk.dir log, t.disk.dir log ≠ some j → s.held = some j ∨ s.disk.data j = []) ∧
      (∀ x ∈ s.cur, t.tail.f ≠ s.tail.f → s.disk.dir log ≠ some x.1 →
        x.2 = (s.disk.data x.1).length) ∧
      ∀ x ∈ w.cur, ∀ y ∈ t.cur, t.tail.f ≠ w.tail.f → y.1 ≠ x.1 → s.cur ≠ t.cur →
        x.2 = 0 ∨ y.2 < x.2)
    ⟨fun ⟨⟨h₁, h₂⟩, h₃, h₄⟩ => ⟨h₁, h₂, h₃, h₄⟩, fun ⟨h₁, h₂, h₃, h₄⟩ => ⟨⟨h₁, h₂⟩, h₃, h₄⟩⟩

/-- What a run of polls is about: the log and what it was at first, the timeout, and
what the moves of the others keep besides. -/
structure Watch where
  log : CStr
  origin : Origin
  suspicious : ℤ
  keep : Disk → ℤ → Option ℕ → Prop

/-- Moves of the kind `P` keep what the watch says, and so does opening the log. -/
structure Watch.Kept (W : Watch) (P : LogMove → Prop) : Prop where
  move : ∀ d c held m, P m → W.keep d c held → W.keep (d.move W.log m) (c + m.ticks) held
  reopen : ∀ d c held, W.keep d c held → W.keep d c (d.dir W.log)

/-- The state between two polls, when `got` has been delivered. -/
structure Follows (W : Watch) (got : Bytes) (w : World) : Prop where
  maillog : w.conffileParam (cstr "maillog") = some W.log
  suspicious : w.conffileParamInt (cstr "suspicious") = .ok W.suspicious
  buff : ∃ b, w.tail.tailBuff = some b ∧ b ≠ []
  last_le : w.tail.last ≤ w.clock
  fd_lt : ∀ fd, w.tail.f = some fd → fd < w.fs.nextFd ∧ (w.fs.stream fd).buf = []
  upto : w.disk.Upto W.log W.origin w.cur got
  keep : W.keep w.disk w.clock w.held

/-- The state within a poll, when the stream may have been moved to `q` although only
the bytes before `p` have been delivered. -/
structure Midway (W : Watch) (got : Bytes) (fd i p q : ℕ) (w : World) : Prop where
  maillog : w.conffileParam (cstr "maillog") = some W.log
  suspicious : w.conffileParamInt (cstr "suspicious") = .ok W.suspicious
  buff : ∃ b, w.tail.tailBuff = some b ∧ b ≠ []
  last_le : w.tail.last ≤ w.clock
  f : w.tail.f = some fd
  fd_lt : fd < w.fs.nextFd
  stream : w.fs.stream fd = ⟨i, q, []⟩
  le_length : q ≤ (w.disk.data i).length
  upto : w.disk.Upto W.log W.origin (some (i, p)) got
  keep : W.keep w.disk w.clock (some i)

/-- What holds in every state of a poll. -/
structure Sound (W : Watch) (w : World) : Prop where
  keep : W.keep w.disk w.clock w.held
  within : ∀ i p, w.cur = some (i, p) →
    i < w.disk.nextIno ∧ p ≤ (w.disk.data i).length

/-- What the daemon can rely on across moves of the others. -/
structure Around (W : Watch) (s t : World) : Prop where
  conf : t.conf = s.conf
  tail : t.tail = s.tail
  stream : t.fs.stream = s.fs.stream
  nextFd : t.fs.nextFd = s.fs.nextFd
  clock : s.clock ≤ t.clock
  nextIno : s.disk.nextIno ≤ t.disk.nextIno
  data : ∀ i < s.disk.nextIno, s.disk.data i <+: t.disk.data i
  upto : ∀ cur got, cur.map Prod.fst = s.held → s.disk.Upto W.log W.origin cur got →
    t.disk.Upto W.log W.origin cur got
  keep : W.keep s.disk s.clock s.held → W.keep t.disk t.clock s.held

variable {W : Watch} {P : LogMove → Prop} {A : World → World → Prop} {w s t : World}
  {got : Bytes} {fd i p q : ℕ}

/-! ### Moves of the others -/

namespace Around

theorem refl (W : Watch) (s : World) : Around W s s :=
  ⟨rfl, rfl, rfl, rfl, le_rfl, le_rfl, fun _ _ => List.prefix_refl _, fun _ _ _ h => h, id⟩

theorem cur (h : Around W s t) : t.cur = s.cur := by
  simp only [World.cur, h.tail, h.stream]

theorem held (h : Around W s t) : t.held = s.held := by
  rw [World.held, h.cur, World.held]

theorem last (h : Around W s t) : t.tail.last = s.tail.last := by rw [h.tail]

theorem trans {u : World} (h : Around W s t) (h' : Around W t u) : Around W s u where
  conf := h'.conf.trans h.conf
  tail := h'.tail.trans h.tail
  stream := h'.stream.trans h.stream
  nextFd := h'.nextFd.trans h.nextFd
  clock := h.clock.trans h'.clock
  nextIno := h.nextIno.trans h'.nextIno
  data i hi := (h.data i hi).trans (h'.data i (lt_of_lt_of_le hi h.nextIno))
  upto c got hc hu := h'.upto c got (hc.trans h.held.symm) (h.upto c got hc hu)
  keep hk := h.held ▸ h'.keep (h.held.symm ▸ h.keep hk)

theorem sound (h : Around W s t) (hs : Sound W s) : Sound W t where
  keep := h.held ▸ h.keep hs.keep
  within i p hc := by
    obtain ⟨hi, hp⟩ := hs.within i p (h.cur ▸ hc)
    exact ⟨lt_of_lt_of_le hi h.nextIno, hp.trans (h.data i hi).length_le⟩

theorem conffileParam (h : Around W s t) (name : CStr) :
    t.conffileParam name = s.conffileParam name :=
  congrFun (World.conffileParam_congr h.conf) name

theorem conffileParamInt (h : Around W s t) (name : CStr) :
    t.conffileParamInt name = s.conffileParamInt name := by
  simp only [World.conffileParamInt, h.conffileParam]

/-- One move. -/
theorem others (hK : W.Kept P) {m : LogMove} (hm : P m)
    (hs : s.disk.Spares W.log s.held m) : Around W s (s.others W.log m) where
  conf := rfl
  tail := rfl
  stream := rfl
  nextFd := rfl
  clock := Int.le_add_of_nonneg_right (Int.natCast_nonneg _)
  nextIno := Disk.nextIno_move s.disk m
  data _ hi := Disk.data_move hi m
  upto _ _ hc hu := hu.move (hc ▸ hs)
  keep hk := hK.move _ _ _ m hm hk

end Around

/-- A benign move spares the files the reader has not opened. -/
theorem Benign.spares_move {m : LogMove} (h : Benign W.log w s (s.others W.log m)) :
    s.disk.Spares W.log s.held m := by
  cases m with
  | rotate away => exact fun j hj => h.spares j hj (Disk.dir_rotate ▸ nofun)
  | _ => trivial

/-- The moves of the others are finished before the next statement, and the daemon can
rely on what follows from their sparing the files it has not opened. -/
theorem run_others (hK : W.Kept P)
    (hA : ∀ s m, P m → W.keep s.disk s.clock s.held →
      W.keep (s.others W.log m).disk (s.others W.log m).clock s.held →
      A s (s.others W.log m) → s.disk.Spares W.log s.held m)
    {ms : List LogMove} (hms : ∀ m ∈ ms, P m) (hs : Sound W s)
    (hc : ((others W.log ms).trace s).IsChain A) :
    ∃ s', (others W.log ms).run s = .done () s' ∧ Around W s s' ∧
      ∀ t ∈ (others W.log ms).trace s, Sound W t := by
  induction ms generalizing s with
  | nil => exact ⟨s, rfl, Around.refl W s, List.forall_mem_singleton.mpr hs⟩
  | cons m ms ih =>
    have hm := hms m List.mem_cons_self
    obtain ⟨ha, hc⟩ := isChain_trace_step.mp hc
    have hk := hK.move _ _ _ m hm hs.keep
    have har := Around.others hK hm (hA s m hm hs.keep hk ha)
    obtain ⟨s', hr, hs', ht⟩ :=
      ih (fun m' hm' => hms m' (List.mem_cons_of_mem m hm')) (har.sound hs) hc
    exact ⟨s', hr, har.trans hs', List.forall_mem_cons.mpr ⟨hs, ht⟩⟩

/-! ### Assertions between statements -/

theorem Upto.lt_nextIno {log : CStr} {o : Origin} {d : Disk}
    (h : d.Upto log o (some (i, p)) got) : i < d.nextIno := by
  obtain ⟨-, done, ahead, hd, -⟩ := h
  exact Disk.mem_files_lt hd.nextIno (by rw [hd.files]; simp)

namespace Follows

theorem around (h : Follows W got s) (ha : Around W s t) : Follows W got t where
  maillog := (ha.conffileParam _).trans h.maillog
  suspicious := (ha.conffileParamInt _).trans h.suspicious
  buff := ha.tail ▸ h.buff
  last_le := ha.last.le.trans (h.last_le.trans ha.clock)
  fd_lt fd hf := by
    rw [ha.nextFd, ha.stream]
    exact h.fd_lt fd (ha.tail ▸ hf)
  upto := ha.cur ▸ ha.upto _ _ rfl h.upto
  keep := ha.held ▸ ha.keep h.keep

theorem sound (h : Follows W got s) : Sound W s where
  keep := h.keep
  within i p hc := by
    have hu := hc ▸ h.upto
    exact ⟨Upto.lt_nextIno hu, hu.le_length i p rfl⟩

theorem midway (h : Follows W got s) (hf : s.tail.f = some fd) (hc : s.cur = some (i, p)) :
    Midway W got fd i p p s where
  maillog := h.maillog
  suspicious := h.suspicious
  buff := h.buff
  last_le := h.last_le
  f := hf
  fd_lt := (h.fd_lt fd hf).1
  stream := by
    have hb := (h.fd_lt fd hf).2
    simp only [World.cur, hf, Option.map_some, Option.some.injEq, Prod.mk.injEq] at hc
    cases hs : s.fs.stream fd
    simp_all
  le_length := (hc ▸ h.upto).le_length i p rfl
  upto := hc ▸ h.upto
  keep := by
    have hk := h.keep
    rwa [World.held, hc] at hk

/-- Statements about anything but `f` and the block that `tail_buff` points to. -/
theorem onTail (h : Follows W got s) {g : Tail → Tail} (hf : (g s.tail).f = s.tail.f)
    (hb : ∃ b, (g s.tail).tailBuff = some b ∧ b ≠ []) (hl : (g s.tail).last ≤ s.clock) :
    Follows W got (s.onTail g) where
  maillog := h.maillog
  suspicious := h.suspicious
  buff := hb
  last_le := hl
  fd_lt fd hfd := h.fd_lt fd (hf ▸ hfd)
  upto := by
    have hc : (s.onTail g).cur = s.cur := by simp only [World.cur, World.onTail, hf]
    exact hc ▸ h.upto
  keep := by
    have hc : (s.onTail g).held = s.held := by simp only [World.held, World.cur, World.onTail, hf]
    exact hc ▸ h.keep

end Follows

namespace Midway

theorem cur (h : Midway W got fd i p q s) : s.cur = some (i, q) := by
  simp [World.cur, h.f, h.stream]

theorem held (h : Midway W got fd i p q s) : s.held = some i := by
  simp [World.held, h.cur]

theorem around (h : Midway W got fd i p q s) (ha : Around W s t) : Midway W got fd i p q t where
  maillog := (ha.conffileParam _).trans h.maillog
  suspicious := (ha.conffileParamInt _).trans h.suspicious
  buff := ha.tail ▸ h.buff
  last_le := ha.last.le.trans (h.last_le.trans ha.clock)
  f := ha.tail ▸ h.f
  fd_lt := ha.nextFd ▸ h.fd_lt
  stream := ha.stream ▸ h.stream
  le_length := h.le_length.trans (ha.data i (Upto.lt_nextIno h.upto)).length_le
  upto := ha.upto _ _ h.held.symm h.upto
  keep := by
    have hk := h.keep
    rw [← h.held] at hk ⊢
    exact ha.keep hk

theorem length_le (h : Midway W got fd i p q s) (ha : Around W s t) :
    (s.disk.data i).length ≤ (t.disk.data i).length :=
  (ha.data i (Upto.lt_nextIno h.upto)).length_le

theorem sound (h : Midway W got fd i p q s) : Sound W s where
  keep := h.held ▸ h.keep
  within j r hc := by
    obtain ⟨rfl, rfl⟩ := Prod.mk.inj (Option.some.inj (h.cur.symm.trans hc))
    exact ⟨Upto.lt_nextIno h.upto, h.le_length⟩

/-- Between polls the stream stands where the delivered bytes end. -/
theorem follows (h : Midway W got fd i p p s) : Follows W got s where
  maillog := h.maillog
  suspicious := h.suspicious
  buff := h.buff
  last_le := h.last_le
  fd_lt fd' hf := by
    obtain rfl := Option.some.inj (h.f.symm.trans hf)
    exact ⟨h.fd_lt, by rw [h.stream]⟩
  upto := h.cur ▸ h.upto
  keep := h.held ▸ h.keep

theorem seeked (h : Midway W got fd i p q s) {r : ℕ} (hr : r ≤ (s.disk.data i).length) :
    Midway W got fd i p r (s.seeked fd r) where
  maillog := h.maillog
  suspicious := h.suspicious
  buff := h.buff
  last_le := h.last_le
  f := h.f
  fd_lt := h.fd_lt
  stream := by simp [World.seeked, Fs.seeked, h.stream]
  le_length := hr
  upto := h.upto
  keep := h.keep

theorem onTail (h : Midway W got fd i p q s) {g : Tail → Tail} (hf : (g s.tail).f = s.tail.f)
    (hb : ∃ b, (g s.tail).tailBuff = some b ∧ b ≠ []) (hl : (g s.tail).last ≤ s.clock) :
    Midway W got fd i p q (s.onTail g) where
  maillog := h.maillog
  suspicious := h.suspicious
  buff := hb
  last_le := hl
  f := hf.trans h.f
  fd_lt := h.fd_lt
  stream := h.stream
  le_length := h.le_length
  upto := h.upto
  keep := h.keep

theorem fseek_fromEnd (h : Midway W got fd i p q s) :
    s.fseek fd 0 .fromEnd = (0, s.seeked fd (s.disk.data i).length) := by
  rw [World.fseek_fromEnd, h.stream]

theorem tell (h : Midway W got fd i p q s) : s.fs.tell fd = q := by
  simp [Fs.tell, h.stream]

variable {α : Type} {Q : α → World → Prop}

/-- A statement within a poll, executed after any moves of the others. -/
theorem rely_act (h : Midway W got fd i p q s) {f : World → α × World}
    (hf : ∀ s', Midway W got fd i p q s' → Around W s s' → A s' (f s').2 →
      Sound W (f s').2 ∧ Q (f s').1 (f s').2) :
    rely (Around W) A (Sound W) (act f) Q s :=
  fun _ ha hA => hf _ (h.around ha) ha hA

theorem rely_read (h : Midway W got fd i p q s) {f : World → α}
    (hf : ∀ s', Midway W got fd i p q s' → Around W s s' → Q (f s') s') :
    rely (Around W) A (Sound W) (read f) Q s :=
  fun _ ha _ => ⟨(h.around ha).sound, hf _ (h.around ha) ha⟩

end Midway

end ExactDaemon
