import Mathlib.Algebra.Order.Group.Int
import ExactDaemon.Tail.Quiet

/-! # What tail_read measures

`tail_read` takes the difference of two positions for a number of bytes. From any
position and any end of the file: when it reopens the log, when it takes exactly what is
there, and when the difference wraps around.
-/

namespace ExactDaemon

open Prog

variable {w s t : World} {log : CStr} {suspicious : ℤ} {fd i p q n : ℕ} {b : Bytes}

/-- Between two polls the daemon knows its log and its timeout, has a buffer, and only
reads from the stream it holds. -/
structure World.Polling (log : CStr) (suspicious : ℤ) (w : World) : Prop where
  maillog : w.conffileParam (cstr "maillog") = some log
  suspicious : w.conffileParamInt (cstr "suspicious") = .ok suspicious
  buff : ∃ b, w.tail.tailBuff = some b ∧ b ≠ []
  reading : ∀ fd, w.tail.f = some fd → (w.fs.stream fd).buf = []

/-- The current position of a stream. -/
def World.current (w : World) (fd : ℕ) : ℕ := (w.fs.stream fd).pos

/-- Where the file of a stream ends. -/
def World.eof (w : World) (fd : ℕ) : ℕ := (w.fs.data (w.fs.stream fd).ino).length

/-- The log has been opened anew, and nothing was read. -/
structure Reopened (log : CStr) (w t : World) : Prop where
  f : t.tail.f = (w.fs.openRead log).map Prod.fst
  bufflen : t.tail.tailBufflen = 0

/-- All bytes between the position and the end have been read, with a NUL behind them. -/
structure TookAll (fd : ℕ) (w t : World) : Prop where
  bufflen : (t.tail.tailBufflen : ℤ) = max 0 ((w.eof fd : ℤ) - w.current fd)
  buff : ∃ b, t.tail.tailBuff = some b ∧ t.tail.tailBufflen < b.length ∧
    b[t.tail.tailBufflen]? = some 0
  delivered : t.delivered = (w.fs.data (w.fs.stream fd).ino).drop (w.current fd)

/-- `tail_read` returns, and measured right. -/
def Measures (log : CStr) (w : World) : Prop :=
  (tailRead.run w).Returns fun _ t =>
    Reopened log w t ∨ ∃ fd, w.tail.f = some fd ∧ TookAll fd w t

/-! ### Reopening -/

theorem World.Polling.closeLog (h : w.Polling log suspicious) : w.closeLog = w := by
  unfold World.closeLog
  cases hf : w.tail.f with
  | none => rfl
  | some fd => exact congrArg (fun fs => { w with fs := fs }) (Fs.close_reading (h.reading fd hf))

theorem World.Polling.onTail (h : w.Polling log suspicious) {g : Tail → Tail}
    (hf : (g w.tail).f = w.tail.f) (hb : ∃ b, (g w.tail).tailBuff = some b ∧ b ≠ []) :
    (w.onTail g).Polling log suspicious :=
  ⟨h.maillog, h.suspicious, hb, fun fd hfd => h.reading fd (hf ▸ hfd)⟩

theorem World.Polling.noteGrowth (h : w.Polling log suspicious) (c eof : ℤ) :
    (w.noteGrowth c eof).Polling log suspicious := by
  unfold World.noteGrowth
  split
  · exact h.onTail rfl h.buff
  · exact h

/-- What follows a reopen leaves the stream and the buffer. -/
theorem World.Polling.run_reopen (h : w.Polling log suspicious) (c : ℕ) :
    ∃ t, (tailReopen c >>= fun _ => do
        modify fun w => w.onTail ({ · with last := w.clock })
        modify (·.onTail ({ · with tailBufflen := 0 }))).run w = .done () t ∧
      Reopened log w t ∧ t.Polling log suspicious := by
  have hreopen : ∃ s, (tailReopen c).run w = .done () s ∧
      s.tail.f = (w.fs.openRead log).map Prod.fst ∧ s.Polling log suspicious := by
    unfold tailReopen
    rw [run_bind, run_modify, Outcome.bind_done, h.closeLog, run_bind]
    cases hd : w.fs.dir log with
    | none =>
      rw [run_attempt_ok (World.openLog_none h.maillog hd)]
      refine ⟨_, rfl, ?_, h.maillog, h.suspicious, h.buff, nofun⟩
      rw [Fs.openRead, hd]
      rfl
    | some j =>
      rw [run_attempt_ok (World.openLog_some h.maillog hd)]
      refine ⟨_, run_tailReposition (w.opened j) w.fs.nextFd c, ?_, h.maillog, h.suspicious,
        h.buff, fun fd hfd => ?_⟩
      · rw [Fs.openRead, hd]
        rfl
      · obtain rfl := Option.some.inj hfd
        simp [World.seeked, Fs.seeked, World.opened]
  obtain ⟨s, hs, hf, hp⟩ := hreopen
  rw [run_bind, hs, Outcome.bind_done, run_bind, run_modify, Outcome.bind_done, run_modify]
  exact ⟨_, rfl, ⟨hf, rfl⟩, (hp.onTail rfl hp.buff).onTail rfl hp.buff⟩

/-! ### Reading -/

/-- A new pause leaves the buffer. -/
theorem run_paws (g g' : Tail → ℕ) (w : World) :
    ∃ t, Prog.run (do
        Prog.modify (·.onTail fun t => { t with paws := g t })
        Prog.modify (·.onTail fun t => { t with paws := g' t })) w = .done () t ∧
      t.tail.tailBuff = w.tail.tailBuff ∧ t.tail.tailBufflen = w.tail.tailBufflen ∧
      ∀ log suspicious, w.Polling log suspicious → t.Polling log suspicious := by
  rw [run_bind, run_modify, Outcome.bind_done, run_modify]
  exact ⟨_, rfl, rfl, rfl, fun _ _ h => (h.onTail rfl h.buff).onTail rfl h.buff⟩

theorem run_tailPause (w : World) : ∃ t, tailPause.run w = .done () t ∧
    t.tail.tailBuff = w.tail.tailBuff ∧ t.tail.tailBufflen = w.tail.tailBufflen ∧
    ∀ log suspicious, w.Polling log suspicious → t.Polling log suspicious := by
  unfold tailPause
  rw [run_bind, run_read, Outcome.bind_done]
  -- whatever the number of lines
  generalize linecount _ _ = lines
  split
  · exact run_paws _ _ w
  · exact run_paws _ _ w

theorem World.Polling.freadTail (h : w.Polling log suspicious) (hf : w.tail.f = some fd)
    (hn : w.tail.tailBufflen = n) (hb : w.tail.tailBuff = some b) {bs : Bytes}
    (hbs : ((w.fs.data (w.fs.stream fd).ino).drop (w.current fd)).take n = bs)
    (hlen : bs.length = n) (hlt : n < b.length) :
    ∃ s, w.freadTail fd = (n, s) ∧ s.tail.tailBuff = some (bs ++ b.drop n) ∧
      s.tail.tailBufflen = n ∧ s.Polling log suspicious := by
  unfold World.current at hbs
  refine ⟨(w.freadTail fd).2, Prod.ext ?_ rfl, ?_, hn, ?_⟩
  · simp only [World.freadTail, Fs.get, hn, hbs, hlen]
  · simp only [World.freadTail, Fs.get, hn, hbs, hlen, hb, Option.map_some]
  · refine ⟨h.maillog, h.suspicious, ⟨bs ++ b.drop n, ?_, ?_⟩, fun fd' hfd' => ?_⟩
    · simp only [World.freadTail, Fs.get, hn, hbs, hlen, hb, Option.map_some]
    · refine List.append_ne_nil_of_right_ne_nil _ ?_
      rw [Ne, List.drop_eq_nil_iff]
      omega
    · obtain rfl : fd = fd' := Option.some.inj (hf.symm.trans hfd')
      simp only [World.freadTail, Fs.get, Function.update_self]
      exact h.reading fd hf

/-- `fread` gets what it asks for, and the NUL fits. -/
theorem World.Polling.run_tailFill (h : w.Polling log suspicious) (hf : w.tail.f = some fd)
    (hn : w.tail.tailBufflen = n) (hb : w.tail.tailBuff = some b) (hlt : n < b.length)
    {bs : Bytes} (hbs : ((w.fs.data (w.fs.stream fd).ino).drop (w.current fd)).take n = bs)
    (hlen : bs.length = n) :
    ∃ t, (tailFill fd).run w = .done () t ∧ t.tail.tailBufflen = n ∧
      (∃ b', t.tail.tailBuff = some b' ∧ n < b'.length ∧ b'[n]? = some 0) ∧
      t.delivered = bs ∧ t.Polling log suspicious := by
  obtain ⟨s, hs, hbuff, hlen', hp⟩ := h.freadTail hf hn hb hbs hlen hlt
  have hroom : n < (bs ++ b.drop n).length := by
    rw [List.length_append, List.length_drop, hlen]
    omega
  have hroom' : n < ((bs ++ b.drop n).set n 0).length := by rwa [List.length_set]
  have hterm : s.terminateTail = .ok ((), s.onTail
      ({ · with tailBuff := some ((bs ++ b.drop n).set n 0) })) := by
    simp only [World.terminateTail, hbuff, hlen', if_pos hroom]
  have hpt := hp.onTail (g := ({ · with tailBuff := some ((bs ++ b.drop n).set n 0) })) rfl
    ⟨_, rfl, List.ne_nil_of_length_pos (by omega)⟩
  obtain ⟨t, ht, hbt, hnt, hpt'⟩ := run_tailPause
    (s.onTail ({ · with tailBuff := some ((bs ++ b.drop n).set n 0) }))
  have hbufflen : t.tail.tailBufflen = n := hnt.trans hlen'
  refine ⟨t, ?_, hbufflen, ⟨_, hbt, hroom', List.getElem?_set_self hroom⟩, ?_, hpt' _ _ hpt⟩
  · unfold tailFill
    rw [run_bind, run_act, hs, Outcome.bind_done, run_bind, run_read, Outcome.bind_done, hlen',
      if_neg (not_not_intro rfl), run_bind, run_attempt_ok hterm, Outcome.bind_done]
    exact ht
  · have hbt' : t.tail.tailBuff = some ((bs ++ b.drop n).set n 0) := hbt
    rw [World.delivered, hbt', hbufflen, Option.getD_some, List.take_set_of_le (Nat.le_refl n),
      List.take_left' hlen]

/-- What `tail_bufflen` is set to. -/
def wrapped (p q : ℕ) : ℕ := (((q : ℤ) - p) % uintRange).toNat

theorem wrapped_of_le (hpq : p ≤ q) (hfew : (q : ℤ) - p < uintRange - 1) :
    wrapped p q = q - p := by
  unfold wrapped
  rw [Int.emod_eq_of_lt (by omega) (by omega)]
  omega

theorem wrapped_of_dvd (h : (uintRange : ℤ) ∣ (p : ℤ) - q) : wrapped p q = 0 := by
  have h' : (uintRange : ℤ) ∣ (q : ℤ) - p := by
    rw [← Int.neg_sub]
    exact (Int.dvd_neg).mpr h
  rw [wrapped, Int.emod_eq_zero_of_dvd h']
  rfl

theorem wrapped_pos (h : ¬ (uintRange : ℤ) ∣ (p : ℤ) - q) : 0 < wrapped p q := by
  have hne : ((q : ℤ) - p) % uintRange ≠ 0 := fun h0 => h <| by
    rw [← Int.neg_sub]
    exact Int.dvd_neg.mpr (Int.dvd_of_emod_eq_zero h0)
  have hnn : 0 ≤ ((q : ℤ) - p) % uintRange := Int.emod_nonneg _ (by decide)
  unfold wrapped
  omega

/-- The buffer after its growth has room for `n` bytes and a NUL. -/
theorem World.Polling.grown (h : w.Polling log suspicious) (hn : w.tail.tailBufflen = n)
    (hlt : n + 1 < uintRange) :
    (∃ b, (growBuff w.tail).tailBuff = some b ∧ n < b.length) ∧
      (growBuff w.tail).tailBufflen = n ∧ (w.onTail growBuff).Polling log suspicious := by
  obtain ⟨b, hb, hne⟩ := h.buff
  obtain ⟨b', hb', hroom, hlen, hf, -⟩ := growBuff_spec hb hne (by omega)
  rw [hn] at hroom
  have hne : b' ≠ [] := List.ne_nil_of_length_pos (by omega)
  exact ⟨⟨b', hb', hroom⟩, hlen.trans hn, h.onTail hf ⟨b', hb', hne⟩⟩

/-- `tail_read` takes `n` bytes, if so many are there. -/
theorem World.Polling.run_tailTake (h : w.Polling log suspicious) (hf : w.tail.f = some fd)
    (hn : wrapped p q = n) (hlt : n + 1 < uintRange) {bs : Bytes}
    (hbs : ((w.fs.data (w.fs.stream fd).ino).drop (w.current fd)).take n = bs)
    (hlen : bs.length = n) :
    ∃ t, (tailTake fd p q).run w = .done () t ∧ t.tail.tailBufflen = n ∧
      (∃ b', t.tail.tailBuff = some b' ∧ n < b'.length ∧ b'[n]? = some 0) ∧
      t.delivered = bs ∧ t.Polling log suspicious := by
  have h₁ := h.onTail (g := ({ · with tailBufflen := n })) rfl h.buff
  obtain ⟨⟨b, hb, hroom⟩, hlen₂, h₂⟩ := h₁.grown (n := n) rfl hlt
  have hf₂ : ((w.onTail ({ · with tailBufflen := n })).onTail growBuff).tail.f = some fd := by
    change (growBuff _).f = _
    unfold growBuff
    split <;> exact hf
  obtain ⟨t, ht, hrest⟩ := h₂.run_tailFill hf₂ hlen₂ hb hroom hbs hlen
  refine ⟨t, ?_, hrest⟩
  have hne : ((w.onTail ({ · with tailBufflen := n })).onTail growBuff).tail.tailBuff ≠ none :=
    hb.trans_ne (Option.some_ne_none b)
  unfold wrapped at hn
  unfold tailTake
  rw [run_bind, run_modify, Outcome.bind_done, hn, run_bind, run_modify, Outcome.bind_done,
    run_bind, run_read, Outcome.bind_done, if_neg hne]
  exact ht

/-- From behind the end of the file nothing can be read. -/
theorem run_tailTake_beyond (hbeyond : w.eof fd < w.current fd) (hpos : 0 < wrapped p q) :
    ∃ e s, (tailTake fd p q).run w = .halted (.exit e) s ∧ (e = 30 ∨ e = 31) := by
  obtain ⟨n, hn⟩ : ∃ n, wrapped p q = n := ⟨_, rfl⟩
  rw [hn] at hpos
  unfold wrapped at hn
  unfold tailTake
  rw [run_bind, run_modify, Outcome.bind_done, hn, run_bind, run_modify, Outcome.bind_done,
    run_bind, run_read, Outcome.bind_done]
  by_cases hb : ((w.onTail ({ · with tailBufflen := n })).onTail growBuff).tail.tailBuff = none
  · rw [if_pos hb]
    exact ⟨30, _, rfl, Or.inl rfl⟩
  · rw [if_neg hb]
    have hlen :
        ((w.onTail ({ · with tailBufflen := n })).onTail growBuff).tail.tailBufflen = n := by
      change (growBuff _).tailBufflen = n
      unfold growBuff
      split <;> rfl
    generalize hv : (w.onTail ({ · with tailBufflen := n })).onTail growBuff = v at hlen
    have hfs : v.fs = w.fs := by rw [← hv]; rfl
    have hnone : (v.fs.data (v.fs.stream fd).ino).drop (v.fs.stream fd).pos = [] := by
      rw [hfs, List.drop_eq_nil_iff]
      exact hbeyond.le
    have hread : v.freadTail fd = (0, (v.freadTail fd).2) := by
      refine Prod.ext ?_ rfl
      simp only [World.freadTail, Fs.get, hnone, List.take_nil, List.length_nil]
    have hlen' : (v.freadTail fd).2.tail.tailBufflen = n := hlen
    refine ⟨31, (v.freadTail fd).2, ?_, Or.inr rfl⟩
    unfold tailFill
    change Prog.run (_ >>= _) v = _
    rw [run_bind, run_act, hread, Outcome.bind_done, run_bind, run_read, Outcome.bind_done, hlen',
      if_pos (by omega)]
    rfl

/-! ### One poll -/

theorem World.Polling.run_tailRead (h : w.Polling log suspicious) (hf : w.tail.f = some fd) :
    tailRead.run w =
      if w.clock - (w.noteGrowth (w.current fd) (w.eof fd)).tail.last > suspicious then
        (tailReopen (w.current fd) >>= fun _ => do
          modify fun w => w.onTail ({ · with last := w.clock })
          modify (·.onTail ({ · with tailBufflen := 0 }))).run
            (w.noteGrowth (w.current fd) (w.eof fd))
      else
        (tailTake fd (w.current fd) (w.eof fd)).run (w.noteGrowth (w.current fd) (w.eof fd)) :=
  run_tailRead_open hf h.suspicious rfl rfl

theorem World.fs_noteGrowth (w : World) (c eof : ℤ) : (w.noteGrowth c eof).fs = w.fs := by
  unfold World.noteGrowth
  split <;> rfl

theorem World.current_noteGrowth (w : World) (c eof : ℤ) (fd : ℕ) :
    (w.noteGrowth c eof).current fd = w.current fd := by
  unfold World.noteGrowth
  split <;> rfl

theorem World.eof_noteGrowth (w : World) (c eof : ℤ) (fd : ℕ) :
    (w.noteGrowth c eof).eof fd = w.eof fd := by
  unfold World.noteGrowth
  split <;> rfl

theorem World.f_noteGrowth (w : World) (c eof : ℤ) : (w.noteGrowth c eof).tail.f = w.tail.f := by
  unfold World.noteGrowth
  split <;> rfl

/-- A poll reopens the log. -/
theorem World.Polling.run_reopening (h : w.Polling log suspicious) (hf : w.tail.f = some fd)
    (hlate : w.clock - (w.noteGrowth (w.current fd) (w.eof fd)).tail.last > suspicious) :
    ∃ t, tailRead.run w = .done () t ∧ Reopened log w t ∧ t.Polling log suspicious := by
  obtain ⟨t, ht, hr, hp⟩ := (h.noteGrowth (w.current fd) (w.eof fd)).run_reopen (w.current fd)
  refine ⟨t, ?_, ⟨?_, hr.bufflen⟩, hp⟩
  · rw [h.run_tailRead hf, if_pos hlate]
    exact ht
  · rw [hr.f, World.fs_noteGrowth]

/-- A poll takes what is there. -/
theorem World.Polling.run_taking (h : w.Polling log suspicious) (hf : w.tail.f = some fd)
    (hearly : ¬ w.clock - (w.noteGrowth (w.current fd) (w.eof fd)).tail.last > suspicious)
    (hn : wrapped (w.current fd) (w.eof fd) = w.eof fd - w.current fd)
    (hlt : w.eof fd - w.current fd + 1 < uintRange) :
    ∃ t, tailRead.run w = .done () t ∧ TookAll fd w t ∧ t.Polling log suspicious := by
  have hlen : ((w.fs.data (w.fs.stream fd).ino).drop (w.current fd)).length =
      w.eof fd - w.current fd := List.length_drop
  have hbs : (((w.noteGrowth (w.current fd) (w.eof fd)).fs.data
      ((w.noteGrowth (w.current fd) (w.eof fd)).fs.stream fd).ino).drop
      ((w.noteGrowth (w.current fd) (w.eof fd)).current fd)).take (w.eof fd - w.current fd) =
      (w.fs.data (w.fs.stream fd).ino).drop (w.current fd) := by
    rw [World.current_noteGrowth, World.fs_noteGrowth]
    exact List.take_of_length_le hlen.le
  obtain ⟨t, ht, hlen', hbuff, hdel, hp⟩ :=
    (h.noteGrowth (w.current fd) (w.eof fd)).run_tailTake
      ((w.f_noteGrowth _ _).trans hf) hn hlt hbs hlen
  refine ⟨t, ?_, ⟨?_, hlen' ▸ hbuff, hdel⟩, hp⟩
  · rw [h.run_tailRead hf, if_neg hearly]
    exact ht
  · rw [hlen']
    omega

theorem World.Polling.run_closed (h : w.Polling log suspicious) (hf : w.tail.f = none) :
    ∃ t, tailRead.run w = .done () t ∧ Reopened log w t ∧ t.Polling log suspicious := by
  obtain ⟨t, ht, hr, hp⟩ := h.run_reopen 0
  refine ⟨t, ?_, hr, hp⟩
  unfold tailRead
  rw [run_bind, run_read, Outcome.bind_done, hf]
  exact ht

/-- The position is not behind the end of the file, or the poll reopens the log, or what
is missing is a multiple of the range of `tail_bufflen`. -/
def Measurable (suspicious : ℤ) (w : World) : Prop :=
  ∀ fd, w.tail.f = some fd → w.current fd ≤ w.eof fd ∨ suspicious < w.clock - w.tail.last ∨
    (uintRange : ℤ) ∣ (w.current fd : ℤ) - w.eof fd

theorem last_noteGrowth_of_le (w : World) {c eof : ℕ} (h : eof ≤ c) :
    (w.noteGrowth c eof).tail.last = w.tail.last := by
  rw [World.noteGrowth, if_neg (by omega)]

theorem World.Polling.run_measurable (h : w.Polling log suspicious)
    (hfew : ∀ fd, w.tail.f = some fd → (w.eof fd : ℤ) - w.current fd < uintRange - 1)
    (hm : Measurable suspicious w) :
    ∃ t, tailRead.run w = .done () t ∧
      (Reopened log w t ∨ ∃ fd, w.tail.f = some fd ∧ TookAll fd w t) ∧
      t.Polling log suspicious := by
  cases hf : w.tail.f with
  | none =>
    obtain ⟨t, ht, hr, hp⟩ := h.run_closed hf
    exact ⟨t, ht, Or.inl hr, hp⟩
  | some fd =>
    by_cases hlate : w.clock - (w.noteGrowth (w.current fd) (w.eof fd)).tail.last > suspicious
    · obtain ⟨t, ht, hr, hp⟩ := h.run_reopening hf hlate
      exact ⟨t, ht, Or.inl hr, hp⟩
    · have hfew' := hfew fd hf
      have hn : wrapped (w.current fd) (w.eof fd) = w.eof fd - w.current fd ∧
          w.eof fd - w.current fd + 1 < uintRange := by
        by_cases hle : w.current fd ≤ w.eof fd
        · exact ⟨wrapped_of_le hle hfew', by omega⟩
        · rw [last_noteGrowth_of_le w (Nat.le_of_not_le hle)] at hlate
          rcases hm fd hf with hc | hc | hc
          · exact absurd hc hle
          · exact absurd hc hlate
          · rw [wrapped_of_dvd hc]
            exact ⟨by omega, by rw [Nat.sub_eq_zero_of_le (by omega)]; decide⟩
      obtain ⟨t, ht, htook, hp⟩ := h.run_taking hf hlate hn.1 hn.2
      exact ⟨t, ht, Or.inr ⟨fd, rfl, htook⟩, hp⟩

theorem World.Polling.not_measures (h : w.Polling log suspicious) (hf : w.tail.f = some fd)
    (hlt : w.eof fd < w.current fd) (hearly : w.clock - w.tail.last ≤ suspicious)
    (hdvd : ¬ (uintRange : ℤ) ∣ (w.current fd : ℤ) - w.eof fd) : ¬ Measures log w := by
  have hbeyond : (w.noteGrowth (w.current fd) (w.eof fd)).eof fd <
      (w.noteGrowth (w.current fd) (w.eof fd)).current fd := by
    rwa [World.eof_noteGrowth, World.current_noteGrowth]
  obtain ⟨e, s, hs, -⟩ := run_tailTake_beyond hbeyond (wrapped_pos hdvd)
  rw [Measures, h.run_tailRead hf, last_noteGrowth_of_le w hlt.le, if_neg (not_lt.mpr hearly), hs]
  exact not_false

/-- `tail_read` measures right exactly in these states. -/
theorem measures_iff (h : w.Polling log suspicious)
    (hfew : ∀ fd, w.tail.f = some fd → (w.eof fd : ℤ) - w.current fd < uintRange - 1) :
    Measures log w ↔ Measurable suspicious w := by
  constructor
  · intro hr fd hf
    by_contra hn
    push Not at hn
    exact h.not_measures hf hn.1 hn.2.1 hn.2.2 hr
  · intro hm
    obtain ⟨t, ht, hmeasured, -⟩ := h.run_measurable hfew hm
    rw [Measures, ht]
    exact hmeasured

def logParam : List Param :=
  [⟨cstr "maillog", cstr "log", false⟩, ⟨cstr "suspicious", cstr "60", false⟩]

/-- A daemon that has read its log up to `p`, and what the log holds. -/
def World.reading (p : ℕ) (bs : Bytes) : World :=
  { (World.boot logParam).withFile (cstr "log") bs with
    tail := ⟨some 3, pawsMax, 0, some [0], 0⟩ }.seeked 3 p

theorem polling_reading (p : ℕ) (bs : Bytes) :
    (World.reading p bs).Polling (cstr "log") 60 where
  maillog := by
    change (World.boot logParam).conffileParam (cstr "maillog") = _
    decide
  suspicious := by
    change (World.boot logParam).conffileParamInt (cstr "suspicious") = _
    decide
  buff := ⟨[0], rfl, List.cons_ne_nil 0 []⟩
  reading fd hf := by
    obtain rfl := Option.some.inj hf
    rfl

theorem measures_iff_appended : Measures (cstr "log") (World.reading 1 (cstr "ab")) :=
  (measures_iff (polling_reading 1 (cstr "ab")) fun fd hf => by
      obtain rfl := Option.some.inj hf
      decide).mpr fun fd hf => Or.inl <| by
    obtain rfl := Option.some.inj hf
    decide

/-- A log truncated in place below the position ends the daemon. -/
theorem measures_broken : ¬ Measures (cstr "log") (World.reading 5 (cstr "ab")) :=
  (polling_reading 5 (cstr "ab")).not_measures rfl (by decide) (by decide) (by decide)

/-! ### Polls one after the other -/

/-- What others do between two polls: the globals and the streams of the daemon stay. -/
structure World.Elsewhere (w v : World) : Prop where
  conf : v.conf = w.conf
  tail : v.tail = w.tail
  stream : v.fs.stream = w.fs.stream

theorem World.Polling.elsewhere (h : w.Polling log suspicious) {v : World} (he : w.Elsewhere v) :
    v.Polling log suspicious where
  maillog := by rw [conffileParam, he.conf]; exact h.maillog
  suspicious := by rw [conffileParamInt, conffileParam, he.conf]; exact h.suspicious
  buff := by rw [he.tail]; exact h.buff
  reading fd hf := by rw [he.stream]; exact h.reading fd (he.tail ▸ hf)

/-- Polls, each after some change elsewhere. -/
def pollsAmid : List (World → World) → Prog World Unit
  | [] => pure ()
  | g :: gs => do
    modify g
    tailRead
    pollsAmid gs

/-- Every poll begins in a state that meets `C`. -/
def EachPoll (C : World → Prop) : List (World → World) → World → Prop
  | [], _ => True
  | g :: gs, w => C (g w) ∧ ∀ t, tailRead.run (g w) = .done () t → EachPoll C gs t

theorem polling_tailOpen (hm : w.conffileParam (cstr "maillog") = some log)
    (hs : w.conffileParamInt (cstr "suspicious") = .ok suspicious) (hd : w.fs.dir log = some i) :
    ∃ t, tailOpen.run w = .done true t ∧ t.Polling log suspicious := by
  unfold tailOpen
  rw [run_bind, run_attempt_ok (World.openLog_some hm hd), Outcome.bind_done, run_bind, run_modify,
    Outcome.bind_done, run_bind, run_modify, Outcome.bind_done]
  change ∃ t, Prog.run (_ >>= _) _ = _ ∧ _
  rw [run_bind, run_act, World.fseek_fromEnd, Outcome.bind_done, run_bind, run_modify]
  have hne : List.replicate 1024 (0 : UInt8) ≠ [] :=
    List.ne_nil_of_length_pos (by rw [List.length_replicate]; decide)
  have hstream : (w.opened i).fs.stream w.fs.nextFd = ⟨i, 0, []⟩ := Function.update_self _ _ _
  refine ⟨_, rfl, hm, hs, ⟨_, rfl, hne⟩, fun fd hf => ?_⟩
  obtain rfl := Option.some.inj hf
  change (Function.update (w.opened i).fs.stream w.fs.nextFd
    { (w.opened i).fs.stream w.fs.nextFd with pos := _ } w.fs.nextFd).buf = []
  rw [Function.update_self, hstream]

/-- From `tail_open` on, whatever happens elsewhere, the polls measure right as long as each
begins in such a state. -/
theorem measures_pollsAmid {gs : List (World → World)} (h : w.Polling log suspicious)
    (hg : ∀ g ∈ gs, ∀ v, World.Elsewhere v (g v))
    (hm : EachPoll (fun v => Measurable suspicious v ∧ ∀ fd, v.tail.f = some fd →
      (v.eof fd : ℤ) - v.current fd < uintRange - 1) gs w) :
    (∃ t, (pollsAmid gs).run w = .done () t) ∧ EachPoll (Measures log) gs w := by
  induction gs generalizing w with
  | nil => exact ⟨⟨w, rfl⟩, trivial⟩
  | cons g gs ih =>
    obtain ⟨⟨hmeas, hfew⟩, hrest⟩ := hm
    obtain ⟨t, ht, hmeasured, hp⟩ :=
      (h.elsewhere (hg g List.mem_cons_self w)).run_measurable hfew hmeas
    obtain ⟨⟨u, hu⟩, heach⟩ := ih hp (fun g' hg' => hg g' (List.mem_cons_of_mem g hg')) (hrest t ht)
    refine ⟨⟨u, ?_⟩, ?_, fun t' ht' => ?_⟩
    · rw [pollsAmid, run_bind, run_modify, Outcome.bind_done, run_bind, ht, Outcome.bind_done, hu]
    · rw [Measures, ht]
      exact hmeasured
    · obtain rfl : t = t' := (Outcome.done.inj (ht.symm.trans ht')).2
      exact heach

end ExactDaemon
