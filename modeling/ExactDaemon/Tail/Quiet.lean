import Mathlib.Algebra.GroupWithZero.Nat
import ExactDaemon.Tail.Read

/-! # Polls in a quiet time

When nobody touches the log, a poll either reads the held file to its end or, after
the timeout, opens whatever has the name. From this follows what a sequence of quiet
polls comes to.
-/

namespace ExactDaemon

open Prog

variable {W : Watch} {w s t u : World} {got got' : Bytes} {fd i n p q c : ℕ}

/-! ### One undisturbed poll -/

namespace World

@[simp] theorem seeked_seeked (w : World) (fd q r : ℕ) :
    (w.seeked fd q).seeked fd r = w.seeked fd r := by
  simp [seeked, Fs.seeked]

theorem seeked_self {fd q : ℕ} (h : (w.fs.stream fd).pos = q) : w.seeked fd q = w := by
  subst h
  simp [seeked, Fs.seeked]

theorem tell_seeked (w : World) (fd q : ℕ) : (w.seeked fd q).fs.tell fd = q := by
  simp [seeked, Fs.seeked, Fs.tell]

end World

/-- `tail_reopen` goes back to the start of a file shorter than the old position. -/
theorem run_tailReposition (s : World) (fd c : ℕ) :
    (tailReposition fd c).run s = .done () (s.seeked fd
      (if (s.disk.data (s.fs.stream fd).ino).length < c then 0 else c)) := by
  have h0 : ¬ (0 : ℤ) = -1 := by decide
  have hback : ∀ r : ℕ, (act (·.fseek fd r .set) >>= fun r =>
      if r = -1 then halt (.exit 71) else pure ()).run
        (s.seeked fd (s.disk.data (s.fs.stream fd).ino).length) = .done () (s.seeked fd r) := by
    intro r
    rw [run_bind, run_act, World.fseek_set, Outcome.bind_done, if_neg h0, World.seeked_seeked]
    rfl
  unfold tailReposition
  rw [run_bind, run_act, World.fseek_fromEnd, Outcome.bind_done, run_bind, run_read,
    Outcome.bind_done, World.tell_seeked]
  by_cases hlt : (s.disk.data (s.fs.stream fd).ino).length < c
  · rw [if_pos (Int.ofNat_lt.mpr hlt), if_pos hlt]
    exact hback 0
  · rw [if_neg (mt Int.ofNat_lt.mp hlt), if_neg hlt]
    exact hback c

/-- `tail_reopen` leads to the file with the name, or to none. -/
theorem Follows.run_tailReopen (h : Follows W got w) (c : ℕ) :
    ∃ t, (tailReopen c).run w = .done () t ∧ t.disk = w.disk ∧ t.clock = w.clock ∧
      t.held = w.disk.dir W.log := by
  unfold tailReopen
  rw [run_bind, run_modify, Outcome.bind_done, h.closeLog, run_bind]
  cases hd : w.disk.dir W.log with
  | none =>
    rw [run_attempt_ok (World.openLog_none h.maillog hd)]
    exact ⟨_, rfl, rfl, rfl, rfl⟩
  | some j =>
    rw [run_attempt_ok (World.openLog_some h.maillog hd)]
    refine ⟨_, run_tailReposition (w.opened j) w.fs.nextFd c, rfl, rfl, ?_⟩
    simp [World.held, World.cur, World.seeked, Fs.seeked, World.opened]

/-- The watch of an undisturbed poll: nothing changes. -/
def Watch.still (W : Watch) (d : Disk) (c : ℤ) : Watch :=
  { W with keep := fun d' c' _ => d' = d ∧ c' = c }

theorem Midway.still (h : Midway W got fd i p q w) :
    Midway (W.still w.disk w.clock) got fd i p q w :=
  { h with keep := ⟨rfl, rfl⟩ }

theorem Midway.run_tailTake (h : Midway W got fd i p p w) (hpq : p ≤ q)
    (hq : q ≤ (w.disk.data i).length) (hfew : q + 1 < p + uintRange) :
    ∃ t, (tailTake fd p q).run w = .done () t ∧ Took (W.still w.disk w.clock) got fd i q w t := by
  have hr := h.still.rely_tailTake (A := fun _ _ => True) hpq hq hfew
  obtain ⟨_, t, ht, htook, -⟩ := rely.run_weave (Around.refl _) h.still.sound
    (List.forall_mem_nil _) hr (List.pairwise_of_forall fun _ _ => trivial).isChain
  rw [weave_nil] at ht
  exact ⟨t, ht, htook⟩

/-- What an undisturbed poll does to the position: it opens what has the name, at
leisure if nothing is held, or reads to the end. -/
inductive AfterPoll (W : Watch) (w t : World) : Prop where
  | reopened (held : t.held = w.disk.dir W.log)
      (late : ∀ i p, w.cur = some (i, p) → W.suspicious <
        w.clock - (w.noteGrowth p (w.disk.data i).length).tail.last)
  | read (i p : ℕ) (cur : w.cur = some (i, p)) (cur' : t.cur = some (i, (w.disk.data i).length))
      (last : t.tail.last = (w.noteGrowth p (w.disk.data i).length).tail.last)
      (early : w.clock - t.tail.last ≤ W.suspicious)

theorem World.disk_noteGrowth (w : World) (a b : ℤ) : (w.noteGrowth a b).disk = w.disk := by
  unfold World.noteGrowth
  split <;> rfl

theorem World.clock_noteGrowth (w : World) (a b : ℤ) : (w.noteGrowth a b).clock = w.clock := by
  unfold World.noteGrowth
  split <;> rfl

/-- What follows a reopen in `tail_read`. -/
theorem run_reopen_bind {r : Prog World Unit} (hr : r.run w = .done () t) :
    ∃ u, (r >>= fun _ => do
        modify fun w => w.onTail ({ · with last := w.clock })
        modify (·.onTail ({ · with tailBufflen := 0 }))).run w = .done () u ∧
      u.disk = t.disk ∧ u.clock = t.clock ∧ u.held = t.held := by
  rw [run_bind, hr]
  exact ⟨_, rfl, rfl, rfl, rfl⟩

/-- The measurement leaves the stream where it was. After the timeout the log is
reopened, else the new bytes are taken. -/
theorem run_tailRead_open {timeout : ℤ} (hf : w.tail.f = some fd)
    (hs : w.conffileParamInt (cstr "suspicious") = .ok timeout) (hp : (w.fs.stream fd).pos = p)
    (hq : (w.fs.data (w.fs.stream fd).ino).length = q) :
    tailRead.run w =
      if w.clock - (w.noteGrowth p q).tail.last > timeout then
        (tailReopen p >>= fun _ => do
          modify fun w => w.onTail ({ · with last := w.clock })
          modify (·.onTail ({ · with tailBufflen := 0 }))).run (w.noteGrowth p q)
      else
        (tailTake fd p q).run (w.noteGrowth p q) := by
  have h0 : ¬ (0 : ℤ) = -1 := by decide
  have htell : w.fs.tell fd = p := congrArg Nat.cast hp
  have hend : (w.fseek fd 0 .fromEnd) = (0, w.seeked fd q) := by
    rw [World.fseek_fromEnd, ← hq]
    rfl
  have hsus : (w.noteGrowth p q).isSuspicious = .ok
      (decide (w.clock - (w.noteGrowth p q).tail.last > timeout), w.noteGrowth p q) := by
    have hconf : (w.noteGrowth p q).conffileParamInt (cstr "suspicious") = .ok timeout := by
      unfold World.noteGrowth
      split <;> exact hs
    rw [World.isSuspicious, hconf, World.clock_noteGrowth]
    rfl
  unfold tailRead
  rw [run_bind, run_read, Outcome.bind_done, hf]
  change Prog.run (_ >>= _) w = _
  rw [run_bind, run_read, Outcome.bind_done, htell, run_bind, run_act, hend,
    Outcome.bind_done, if_neg h0, run_bind, run_read, Outcome.bind_done, World.tell_seeked,
    run_bind, run_act, World.fseek_set, Outcome.bind_done, if_neg h0, World.seeked_seeked,
    World.seeked_self hp, run_bind, run_modify, Outcome.bind_done, run_bind,
    run_attempt_ok hsus, Outcome.bind_done, run_ite]
  by_cases hlate : w.clock - (w.noteGrowth p q).tail.last > timeout
  · rw [decide_eq_true hlate, if_pos rfl, if_pos hlate]
  · rw [decide_eq_false hlate, if_neg Bool.false_ne_true, if_neg hlate]

theorem Midway.run_tailRead (h : Midway W got fd i p p w) :
    tailRead.run w =
      if w.clock - (w.noteGrowth p (w.disk.data i).length).tail.last > W.suspicious then
        (tailReopen p >>= fun _ => do
          modify fun w => w.onTail ({ · with last := w.clock })
          modify (·.onTail ({ · with tailBufflen := 0 }))).run
            (w.noteGrowth p (w.disk.data i).length)
      else
        (tailTake fd p (w.disk.data i).length).run (w.noteGrowth p (w.disk.data i).length) :=
  run_tailRead_open h.f h.suspicious (congrArg Stream.pos h.stream)
    (congrArg (fun j => (w.fs.data j).length) (congrArg Stream.ino h.stream))

theorem Follows.run_tailRead (h : Follows W got w)
    (hfew : ∀ i p, w.cur = some (i, p) → (w.disk.data i).length + 1 < p + uintRange) :
    ∃ t, tailRead.run w = .done () t ∧ t.disk = w.disk ∧ t.clock = w.clock ∧
      AfterPoll W w t := by
  cases hf : w.tail.f with
  | none =>
    unfold tailRead
    rw [run_bind, run_read, Outcome.bind_done, hf]
    obtain ⟨t, ht, hd, hc, hh⟩ := h.run_tailReopen 0
    obtain ⟨u, hu, hd', hc', hh'⟩ := run_reopen_bind ht
    refine ⟨u, hu, hd'.trans hd, hc'.trans hc, .reopened (hh'.trans hh) fun i p hi => ?_⟩
    rw [World.cur, hf] at hi
    cases hi
  | some fd =>
    have hcur : w.cur = some ((w.fs.stream fd).ino, (w.fs.stream fd).pos) := by
      rw [World.cur, hf]; rfl
    generalize (w.fs.stream fd).ino = i at hcur
    generalize (w.fs.stream fd).pos = p at hcur
    have hm := h.midway hf hcur
    have hn := hm.noteGrowth p (w.disk.data i).length
    rw [hm.run_tailRead]
    by_cases hlate : w.clock - (w.noteGrowth p (w.disk.data i).length).tail.last > W.suspicious
    · rw [if_pos hlate]
      obtain ⟨t, ht, hd, hc, hh⟩ := hn.follows.run_tailReopen p
      rw [World.disk_noteGrowth] at hd hh
      rw [World.clock_noteGrowth] at hc
      obtain ⟨u, hu, hd', hc', hh'⟩ := run_reopen_bind ht
      refine ⟨u, hu, hd'.trans hd, hc'.trans hc, .reopened (hh'.trans hh) fun j r hj => ?_⟩
      obtain ⟨rfl, rfl⟩ := Prod.mk.inj (Option.some.inj (hcur.symm.trans hj))
      exact hlate
    · rw [if_neg hlate]
      have hq : (w.disk.data i).length ≤
          ((w.noteGrowth p (w.disk.data i).length).disk.data i).length :=
        (congrArg (fun d : Disk => (d.data i).length) (World.disk_noteGrowth w _ _)).ge
      obtain ⟨t, ht, htook⟩ := hn.run_tailTake hm.le_length hq (hfew i p hcur)
      obtain ⟨hd, hc⟩ := htook.midway.keep
      rw [World.disk_noteGrowth] at hd
      rw [World.clock_noteGrowth] at hc
      exact ⟨t, ht, hd, hc, .read i p hcur htook.midway.cur htook.last (by rw [htook.last]; omega)⟩

/-! ### Time passes, then a poll -/

theorem poll_tick (log : CStr) (n : ℕ) :
    poll log [[.tick n]] =
      (Prog.modify fun w : World => w.others log (.tick n)) >>= fun _ => tailRead :=
  weave_singleton_step

/-- A poll measures the file it holds. -/
theorem Midway.mem_trace_tailRead (h : Midway W got fd i p p w) :
    w.seeked fd (w.disk.data i).length ∈ tailRead.trace w := by
  unfold tailRead
  refine mem_trace_bind.mpr (Or.inr ⟨some fd, w, by rw [run_read, h.f], ?_⟩)
  refine mem_trace_bind.mpr (Or.inr ⟨_, w, rfl, ?_⟩)
  refine mem_trace_bind.mpr (Or.inl ?_)
  have hs : (w.fseek fd 0 .fromEnd).2 = w.seeked fd (w.disk.data i).length := by
    rw [h.fseek_fromEnd]
  exact List.mem_cons_of_mem _ (hs ▸ List.mem_singleton_self _)

/-- The watch of any run: nothing is kept but what its steps say. -/
def free (log : CStr) (o : Origin) (suspicious : ℤ) : Watch :=
  ⟨log, o, suspicious, fun _ _ _ => True⟩

variable {log : CStr} {o : Origin} {suspicious : ℤ}

theorem kept_free : (free log o suspicious).Kept fun _ => True :=
  ⟨fun _ _ _ _ _ h => h, fun _ _ _ h => h⟩

theorem guards_free : (free log o suspicious).Guards (Benign log) := fun _ _ _ _ _ _ h => h

/-- A poll after a time in which nobody has touched the log. -/
structure QuietStep (W : Watch) (n : ℕ) (w : World) (got : Bytes) (t : World) (got' : Bytes) :
    Prop where
  follows : Follows W got' t
  grows : got <+: got'
  disk : t.disk = w.disk
  clock : t.clock = w.clock + n
  after : AfterPoll W (w.others W.log (.tick n)) t

theorem run_quiet_poll (h : Follows (free log o suspicious) got w)
    (hc : ((poll log [[.tick n]]).trace w).IsChain (Benign log w)) :
    ∃ t, (poll log [[.tick n]]).run w = .done () t ∧
      QuietStep (free log o suspicious) n w got t (got ++ t.delivered) := by
  obtain ⟨t, ht, hf, -⟩ := run_poll h kept_free guards_free (fun _ _ _ _ => trivial) hc
  have h' := h.around (Around.others kept_free (m := .tick n) trivial trivial)
  have hfew : ∀ i p, (w.others log (.tick n)).cur = some (i, p) →
      ((w.others log (.tick n)).disk.data i).length + 1 < p + uintRange := by
    intro i p hcur
    obtain ⟨fd, hfd, -⟩ := Option.map_eq_some_iff.mp hcur
    have hm := h'.midway hfd hcur
    rw [poll_tick] at hc
    have hmem := of_isChain_trace (hc.imp fun _ _ hb => hb.few) _ hm.mem_trace_tailRead fd hfd
    have hp : (w.fs.stream fd).pos = p := congrArg Stream.pos hm.stream
    rw [hp] at hmem
    rwa [(hm.seeked le_rfl).stream] at hmem
  obtain ⟨t', ht', hd, hck, ha⟩ := h'.run_tailRead hfew
  have hrun : (poll log [[.tick n]]).run w = .done () t' := by
    rw [poll_tick, run_bind, run_modify]
    exact ht'
  obtain ⟨-, rfl⟩ := Outcome.done.inj (ht.symm.trans hrun)
  exact ⟨t, ht, hf, List.prefix_append _ _, hd, hck, ha⟩

/-! ### What a sequence of quiet polls comes to -/

/-- The file held is the one with the name, or there is neither. -/
def OnNamed (W : Watch) (w : World) : Prop := w.held = w.disk.dir W.log

/-- The file held has been read to its end. -/
def AtEnd (w : World) : Prop := ∀ i p, w.cur = some (i, p) → p = (w.disk.data i).length

/-- Nothing is to come from the file held, and this has been so since `c` at the latest. -/
def Settled (W : Watch) (c : ℤ) (w : World) : Prop :=
  OnNamed W w ∨ AtEnd w ∧ w.tail.last ≤ c

/-- All files have been read. -/
def Complete (W : Watch) (d : Disk) (got : Bytes) : Prop :=
  W.origin.before ++ got = (W.origin.files d).flatMap d.data

theorem held_of_cur (h : w.cur = some (i, p)) : w.held = some i := by rw [World.held, h]; rfl

theorem last_noteGrowth_end (w : World) (p : ℤ) : (w.noteGrowth p p).tail.last = w.tail.last := by
  rw [World.noteGrowth, if_neg (lt_irrefl p)]

theorem last_noteGrowth_new (w : World) {p q : ℕ} (h : p < q) :
    (w.noteGrowth p q).tail.last = w.clock := by
  rw [World.noteGrowth, if_pos (Int.ofNat_lt.mpr h)]
  rfl

theorem Complete.grow (h : Complete W w.disk got) (hg : got <+: got') (hf : Follows W got' t)
    (hd : t.disk = w.disk) : Complete W t.disk got' := by
  have hp := hf.upto.prefix_files
  rw [hd] at hp ⊢
  rw [← h, List.prefix_append_right_inj] at hp
  rwa [← hg.eq_of_length_le hp.length_le]

/-- Where the file with the name has been read to its end, all files have been. -/
theorem Follows.complete (h : Follows W got w) (hn : OnNamed W w) (he : AtEnd w) :
    Complete W w.disk got :=
  h.upto.complete he (Or.inr hn.symm)

namespace QuietStep

theorem settled (h : QuietStep W n w got t got') : Settled W t.clock t := by
  cases h.after with
  | reopened held late => exact Or.inl (held.trans (by rw [h.disk]; rfl))
  | read i p cur cur' last early =>
    refine Or.inr ⟨fun j r hj => ?_, h.follows.last_le⟩
    obtain ⟨rfl, rfl⟩ := Prod.mk.inj (Option.some.inj (cur'.symm.trans hj))
    rw [h.disk]
    rfl

theorem onNamed (h : QuietStep W n w got t got') (hw : OnNamed W w) : OnNamed W t := by
  cases h.after with
  | reopened held late => exact held.trans (by rw [h.disk]; rfl)
  | read i p cur cur' last early =>
    exact (held_of_cur cur').trans ((held_of_cur cur).symm.trans (hw.trans (by rw [h.disk])))

/-- A poll that reads from a file at its end leaves `last` as it was. -/
theorem last_of_atEnd (he : AtEnd w) (hc : (w.others W.log (.tick n)).cur = some (i, p)) :
    ((w.others W.log (.tick n)).noteGrowth p
      ((w.others W.log (.tick n)).disk.data i).length).tail.last = w.tail.last := by
  obtain rfl := he i p hc
  exact last_noteGrowth_end (w.others W.log (.tick n)) _

theorem settled_of (h : QuietStep W n w got t got') {c : ℤ} (hw : Settled W c w) :
    Settled W c t := by
  rcases hw with hn | ⟨he, hl⟩
  · exact Or.inl (h.onNamed hn)
  · rcases h.settled with hn | ⟨he', -⟩
    · exact Or.inl hn
    · cases h.after with
      | reopened held late => exact Or.inl (held.trans (by rw [h.disk]; rfl))
      | read i p cur cur' last early =>
        exact Or.inr ⟨he', last.le.trans ((last_of_atEnd he cur).le.trans hl)⟩

/-- A poll after the timeout finds the file with the name. -/
theorem onNamed_of_late (h : QuietStep W n w got t got') {c : ℤ} (hw : Settled W c w)
    (hlate : W.suspicious < t.clock - c) : OnNamed W t := by
  rcases hw with hn | ⟨he, hl⟩
  · exact h.onNamed hn
  · cases h.after with
    | reopened held late => exact held.trans (by rw [h.disk]; rfl)
    | read i p cur cur' last early =>
      have hlast := last.trans (last_of_atEnd he cur)
      have hclock : t.clock = (w.others W.log (.tick n)).clock := h.clock
      omega

/-- A poll of the file with the name leaves nothing unread. -/
theorem complete (h : QuietStep W n w got t got') (hs : 0 ≤ W.suspicious)
    (hf : Follows W got w) (hw : OnNamed W w) : Complete W t.disk got' := by
  by_cases he : AtEnd w
  · exact (hf.complete hw he).grow h.grows h.follows h.disk
  · refine h.follows.complete (h.onNamed hw) ?_
    obtain ⟨i, p, hc, hp⟩ : ∃ i p, w.cur = some (i, p) ∧ p ≠ (w.disk.data i).length := by
      simpa only [AtEnd, not_forall, exists_prop] using he
    have hlt : p < (w.disk.data i).length :=
      lt_of_le_of_ne ((hc ▸ hf.upto).le_length i p rfl) hp
    cases h.after with
    | reopened held late =>
      -- new bytes have just been seen, so no time has passed since
      have hl := late i p hc
      have hq : p < ((w.others W.log (.tick n)).disk.data i).length := hlt
      rw [last_noteGrowth_new _ hq] at hl
      omega
    | read j r cur cur' last early =>
      intro k x hk
      obtain ⟨rfl, rfl⟩ := Prod.mk.inj (Option.some.inj (cur'.symm.trans hk))
      rw [h.disk]
      rfl

end QuietStep

/-- Quiet polls one after the other, each after so many seconds. -/
inductive QuietRun (W : Watch) : List ℕ → World → Bytes → World → Bytes → Prop where
  | nil {w : World} {got : Bytes} : QuietRun W [] w got w got
  | cons {n : ℕ} {ns : List ℕ} {w t u : World} {got got' got'' : Bytes} (follows : Follows W got w)
      (head : QuietStep W n w got t got') (tail : QuietRun W ns t got' u got'') :
      QuietRun W (n :: ns) w got u got''

namespace QuietRun

variable {ns ms : List ℕ}

theorem of_append (h : QuietRun W (ns ++ ms) w got u got') :
    ∃ t x, QuietRun W ns w got t x ∧ QuietRun W ms t x u got' := by
  induction ns generalizing w got with
  | nil => exact ⟨w, got, .nil, h⟩
  | cons n ns ih =>
    cases h with
    | cons hf hd tl =>
      obtain ⟨t, x, ht, hu⟩ := ih tl
      exact ⟨t, x, .cons hf hd ht, hu⟩

theorem clock (h : QuietRun W ns w got t got') : t.clock = w.clock + ns.sum := by
  induction h with
  | nil => simp
  | cons hf hd tl ih =>
    rw [ih, hd.clock, List.sum_cons]
    omega

/-- From the first poll on, nothing more is to come from a file that has lost the name. -/
theorem settled (h : QuietRun W ns w got t got') (hne : ns ≠ []) : Settled W t.clock t := by
  induction h with
  | nil => exact absurd rfl hne
  | cons hf hd tl ih =>
    cases tl with
    | nil => exact hd.settled
    | cons hf' hd' tl' => exact ih (List.cons_ne_nil _ _)

/-- After the timeout the file with the name is held. -/
theorem onNamed (h : QuietRun W ns w got t got') {c : ℤ} (hw : Settled W c w)
    (hlate : OnNamed W w ∨ W.suspicious < t.clock - c ∧ ns ≠ []) : OnNamed W t := by
  induction h with
  | nil =>
    rcases hlate with hn | ⟨-, hne⟩
    · exact hn
    · exact absurd rfl hne
  | cons hf hd tl ih =>
    refine ih (hd.settled_of hw) ?_
    rcases hlate with hn | ⟨hlate, -⟩
    · exact Or.inl (hd.onNamed hn)
    · cases tl with
      | nil => exact Or.inl (hd.onNamed_of_late hw hlate)
      | cons hf' hd' tl' => exact Or.inr ⟨hlate, List.cons_ne_nil _ _⟩

theorem complete_of (h : QuietRun W ns w got t got') (hw : Complete W w.disk got) :
    Complete W t.disk got' := by
  induction h with
  | nil => exact hw
  | cons hf hd tl ih => exact ih (hw.grow hd.grows hd.follows hd.disk)

theorem complete (h : QuietRun W ns w got t got') (hs : 0 ≤ W.suspicious) (hw : OnNamed W w)
    (hne : ns ≠ []) : Complete W t.disk got' := by
  cases h with
  | nil => exact absurd rfl hne
  | cons hf hd tl => exact tl.complete_of (hd.complete hs hf hw)

end QuietRun

def quietPolls (ns : List ℕ) : List (List (List LogMove)) := ns.map fun n => [[.tick n]]

theorem run_quietPolls {ns : List ℕ} (h : Follows (free log o suspicious) got w)
    (hc : EachStep (Benign log) log (quietPolls ns) w) :
    ∃ bufs t, (polls log (quietPolls ns)).run w = .done bufs t ∧
      QuietRun (free log o suspicious) ns w got t (got ++ bufs.flatten) := by
  induction ns generalizing w got with
  | nil => exact ⟨[], w, rfl, by simpa using QuietRun.nil⟩
  | cons n ns ih =>
    obtain ⟨t, ht, hq⟩ := run_quiet_poll h hc.1
    obtain ⟨bufs, u, hu, hr⟩ := ih hq.follows (hc.2 t ht)
    refine ⟨t.delivered :: bufs, u, ?_, ?_⟩
    · rw [quietPolls, List.map_cons, polls, run_bind, ht, Outcome.bind_done, run_bind, run_read,
        Outcome.bind_done, run_bind]
      exact (congrArg (Outcome.bind · _) hu).trans rfl
    · rw [List.flatten_cons, ← List.append_assoc]
      exact .cons h hq hr

end ExactDaemon
