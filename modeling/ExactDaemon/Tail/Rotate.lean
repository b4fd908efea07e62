import ExactDaemon.Tail.Append
import ExactDaemon.Tail.Quiet

/-! # Log rotation

Others may now also move the log away and create it anew between any two statements.
`tail_reopen` recognises another file by its size alone, and leaves the old one for
good. Where this goes well in every step, quiet polling past the timeout delivers
every byte of every file that has been the log.
-/

namespace ExactDaemon

open Prog

/-- Time passes in which the daemon polls: at least once, then until more than the
timeout has passed, then at least once more. -/
def PastTimeout (suspicious : ℤ) (quiet : List ℕ) : Prop :=
  ∃ a b c, quiet = a ++ (b ++ c) ∧ a ≠ [] ∧ suspicious < b.sum ∧ c ≠ []

/-- The bytes appended, since a state with `n` inodes in use and the log at `start` in the
inode `i`, to the files that have been the log. -/
def loggedSince (i start n : ℕ) (w : World) : Bytes :=
  ((i :: List.range' n (w.fs.nextIno - n)).flatMap w.fs.data).drop start

variable {log : CStr} {suspicious : ℤ} {i : ℕ} {w : World} {C : World → World → World → Prop}
  {pss qss : List (List (List LogMove))}

theorem run_polls_append {as bs : List Bytes} {t u : World}
    (ht : (polls log pss).run w = .done as t) (hu : (polls log qss).run t = .done bs u) :
    (polls log (pss ++ qss)).run w = .done (as ++ bs) u := by
  induction pss generalizing w as with
  | nil =>
    obtain ⟨rfl, rfl⟩ := Outcome.done.inj ht
    exact hu
  | cons mss pss ih =>
    obtain ⟨s, cs, hs, hcs, rfl⟩ := run_polls_cons.mp ht
    exact run_polls_cons.mpr ⟨s, cs ++ bs, hs, ih hcs, rfl⟩

theorem EachStep.of_append (h : EachStep C log (pss ++ qss) w) :
    EachStep C log pss w ∧
      ∀ as t, (polls log pss).run w = .done as t → EachStep C log qss t := by
  induction pss generalizing w with
  | nil =>
    refine ⟨trivial, ?_⟩
    rintro _ _ ⟨⟩
    exact h
  | cons mss pss ih =>
    refine ⟨⟨h.1, fun t ht => (ih (h.2 t ht)).1⟩, fun as t ht => ?_⟩
    obtain ⟨s, cs, hs, hcs, -⟩ := run_polls_cons.mp ht
    exact (ih (h.2 s hs)).2 cs t hcs

/-- Once polling has gone on past the timeout after the last rotation and append,
everything appended to the successive files has been delivered, once and in order, if
no step was one of those that `Benign` excludes. -/
theorem rotated_delivered {w₀ : World} (h : w₀.Unopened log suspicious i) (hs : 0 ≤ suspicious)
    {oss : List (List LogMove)} (ho : ∀ ms ∈ oss, ∀ m ∈ ms, m.Grows)
    {quiet : List ℕ} (hq : PastTimeout suspicious quiet)
    (hb : ∀ w, (weave (oss.map (others log)) tailOpen).run w₀ = .done true w →
      EachStep (Benign log) log (pss ++ quietPolls quiet) w) :
    ∃ w₁ start, (weave (oss.map (others log)) tailOpen).run w₀ = .done true w₁ ∧
      w₁.cur = some (i, start) ∧
      ∃ bufs w, (polls log (pss ++ quietPolls quiet)).run w₁ = .done bufs w ∧
        bufs.flatten = loggedSince i start w₁.fs.nextIno w := by
  obtain ⟨w₁, fd, start, hw₁, hbuff, hopen⟩ := run_tailOpen h ho
  refine ⟨w₁, start, hw₁, hopen.cur, ?_⟩
  have hf : Follows (free log ⟨i, (w₁.disk.data i).take start, _, h.ino_lt⟩ suspicious) [] w₁ :=
    hopen.follows h.ino_lt hbuff _ trivial
  obtain ⟨hpast, hquiet⟩ := (hb w₁ hw₁).of_append
  obtain ⟨as, w₂, hw₂, hf₂, -⟩ :=
    run_polls hf kept_free guards_free (fun _ _ _ _ _ _ => trivial) hpast
  obtain ⟨bs, w₃, hw₃, hrun⟩ := run_quietPolls hf₂ (hquiet as w₂ hw₂)
  obtain ⟨a, b, c, rfl, ha, hlate, hc⟩ := hq
  -- one poll to read what the held file has left, one to find the file with the name,
  -- and one to read that
  obtain ⟨u, x, ha', hbc⟩ := hrun.of_append
  obtain ⟨v, y, hb', hc'⟩ := hbc.of_append
  have hlate' : suspicious < v.clock - u.clock := by
    rw [hb'.clock]
    omega
  have hne : b ≠ [] := by
    rintro rfl
    exact absurd (hs.trans_lt hlate) (lt_irrefl _)
  have hnamed := hb'.onNamed (ha'.settled ha) (Or.inr ⟨hlate', hne⟩)
  have hall := hc'.complete hs hnamed hc
  refine ⟨as ++ bs, w₃, run_polls_append hw₂ hw₃, ?_⟩
  have hlen : ((w₁.disk.data i).take start).length = start :=
    List.length_take_of_le hopen.le_length
  have hnext : w₀.disk.nextIno = w₁.fs.nextIno := hopen.named.2.symm
  calc (as ++ bs).flatten
      = ((w₁.disk.data i).take start ++ ([] ++ as.flatten ++ bs.flatten)).drop start := by
        rw [List.drop_left' hlen, List.flatten_append, List.nil_append]
    _ = loggedSince i start w₁.fs.nextIno w₃ := by
        rw [loggedSince, ← hnext]
        exact congrArg (List.drop start) hall

/-- The log is read, moved away, and created anew with these bytes in it. -/
def rotated (bs : Bytes) : List (List (List LogMove)) :=
  [[[.append (cstr "ab")]], [[.rotate (cstr "old"), .create, .append bs]]]

theorem pastTimeout_sixty : PastTimeout (atoi (cstr "60")) [0, 61, 0] :=
  ⟨[0], [61], [0], rfl, by decide, by decide, by decide⟩

theorem rotated_delivered_shorter :
    ∃ w₁ start, (weave (([] : List (List LogMove)).map (others (cstr "log"))) tailOpen).run
        (aboutToOpen []) = .done true w₁ ∧ w₁.cur = some (0, start) ∧
      ∃ bufs w, (polls (cstr "log") (rotated (cstr "c") ++ quietPolls [0, 61, 0])).run w₁ =
          .done bufs w ∧
        bufs.flatten = loggedSince 0 start w₁.fs.nextIno w := by
  refine rotated_delivered (unopened_aboutToOpen []) (by decide) (by decide) pastTimeout_sixty
    fun w hw => ?_
  rw [Outcome.eq_state hw]
  iterate 5
    apply EachStep.cons
    · decide +kernel
  exact trivial

/-- A file that has already grown past the old position is taken for the old one, and
read from that position on. -/
theorem rotated_longer_loses :
    ¬ ∀ pss quiet, PastTimeout (atoi (cstr "60")) quiet →
      ∃ w₁ start, tailOpen.run (aboutToOpen []) = .done true w₁ ∧ w₁.cur = some (0, start) ∧
        ∃ bufs w, (polls (cstr "log") (pss ++ quietPolls quiet)).run w₁ = .done bufs w ∧
          bufs.flatten = loggedSince 0 start w₁.fs.nextIno w := by
  intro h
  obtain ⟨w₁, start, hw₁, hc, bufs, w, hw, hall⟩ :=
    h (rotated (cstr "cde")) [0, 61, 0] pastTimeout_sixty
  have hrun : (tailOpen.run (aboutToOpen [])).Returns fun _ w₁ => w₁.cur = some (0, 0) ∧
      ((polls (cstr "log") (rotated (cstr "cde") ++ quietPolls [0, 61, 0])).run w₁).Returns
        fun bufs w =>
          bufs.flatten = cstr "abe" ∧ loggedSince 0 0 w₁.fs.nextIno w = cstr "abcde" := by
    decide +kernel
  rw [hw₁] at hrun
  obtain ⟨hc', hrun⟩ := hrun
  obtain rfl : 0 = start := (Prod.mk.inj (Option.some.inj (hc'.symm.trans hc))).2
  rw [hw] at hrun
  exact absurd (hrun.1.symm.trans (hall.trans hrun.2)) (by decide)

end ExactDaemon
