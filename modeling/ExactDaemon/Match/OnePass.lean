import ExactDaemon.Lib.Lines
import ExactDaemon.Match.Match
import ExactDaemon.Tail.Growing

/-! # Lines and polls

The loop of `onepass` hands over the complete lines of the buffer it finds. Nothing is
kept of what follows the last of them, so that over several polls the lines of the log
are handed over only if no buffer that ends a line begins inside one.
-/

namespace ExactDaemon

open Prog

/-- A string of the kind `P` that is handed on is dealt with, and the buffer is left alone.
`I` may depend on the strings handed on so far. -/
structure Consumes (P : CStr → Prop) (I : List CStr → World → Prop)
    (line : CStr → Prog World Unit) : Prop where
  line : ∀ ls l s, P l → I ls s →
    ∃ t, (line l).run s = .done () t ∧ I (ls ++ [l]) t ∧ t.tail = s.tail
  endLine : ∀ ls s i, I ls s → I ls (s.endLine i)

/-- The loop of `onepass` at the index `i`: the bytes `u` from `start` on have gone by
and end no line, the bytes `l` are to come. -/
structure Scanning (u l : Bytes) (start i : ℕ) (t : Tail) : Prop where
  unbroken : Unbroken isStop u
  index : i = start + u.length
  bufflen : t.tailBufflen = i + l.length
  buff : ∃ blk r, t.tailBuff = some blk ∧ blk.drop start = u ++ (l ++ r)

variable {I : World → Prop} {P : CStr → Prop} {J : List CStr → World → Prop}
  {line : CStr → Prog World Unit} {s t : World} {u l : Bytes} {c : UInt8} {start i n : ℕ}
  {ls : List CStr} {b b' : ℕ × List CStr}

theorem takeWhile_append_nul {v : Bytes} (hu : Unbroken isStop u) :
    (u ++ 0 :: v).takeWhile (· ≠ 0) = u := by
  rw [List.takeWhile_append_of_pos, List.takeWhile_cons_of_neg (by simp), List.append_nil]
  intro a ha
  have hs := hu a ha
  simp only [isStop, Bool.or_eq_false_iff, decide_eq_false_iff_not] at hs
  simpa using hs.2

/-! ### One round -/

namespace Scanning

theorem tailByte (h : Scanning u (c :: l) start i s.tail) : s.tailByte i = .ok c := by
  obtain ⟨-, rfl, -, blk, r, hb, hd⟩ := h
  have hget : blk[start + u.length]? = some c := by
    rw [← List.getElem?_drop, hd]
    simp
  simp only [World.tailByte, hb, Option.getD_some, hget]

/-- A byte that ends no line joins those gone by. -/
theorem skip (h : Scanning u (c :: l) start i s.tail) (hc : isStop c = false) :
    Scanning (u ++ [c]) l start (i + 1) s.tail where
  unbroken := h.unbroken.append (List.forall_mem_singleton.mpr hc)
  index := by
    rw [h.index, List.length_append]
    rfl
  bufflen := by
    rw [h.bufflen, List.length_cons]
    omega
  buff := by
    obtain ⟨blk, r, hb, hd⟩ := h.buff
    exact ⟨blk, r, hb, by rw [hd]; simp⟩

/-- The NUL that is put in the place of the byte ends the string of those gone by. -/
theorem drop_set {blk r : Bytes} (h : Scanning u (c :: l) start i s.tail)
    (hd : blk.drop start = u ++ (c :: l ++ r)) :
    (blk.set i 0).drop start = u ++ 0 :: (l ++ r) := by
  obtain rfl := h.index
  rw [List.drop_set, if_neg (by omega), hd, Nat.add_sub_cancel_left,
    List.set_append_right _ _ le_rfl, Nat.sub_self]
  rfl

theorem tailString (h : Scanning u (c :: l) start i s.tail) :
    (s.endLine i).tailString start = u := by
  obtain ⟨blk, r, hb, hd⟩ := h.buff
  simp only [World.tailString, World.endLine, World.onTail, hb, Option.map_some,
    Option.getD_some, h.drop_set hd]
  exact takeWhile_append_nul h.unbroken

/-- Behind a byte that ends a line the next line starts. -/
theorem restart (h : Scanning u (c :: l) start i s.tail) :
    Scanning [] l (i + 1) (i + 1) (s.endLine i).tail where
  unbroken := nofun
  index := rfl
  bufflen := by
    change s.tail.tailBufflen = _
    rw [h.bufflen, List.length_cons]
    omega
  buff := by
    obtain ⟨blk, r, hb, hd⟩ := h.buff
    refine ⟨blk.set i 0, r, by simp [World.endLine, World.onTail, hb], ?_⟩
    rw [show i + 1 = start + (u.length + 1) by have := h.index; omega, ← List.drop_drop,
      h.drop_set hd, List.nil_append, ← List.singleton_append, ← List.append_assoc]
    exact List.drop_left' (by simp)

end Scanning

theorem run_scanByte (h : Consumes P J line) (hJ : J ls s)
    (hP : ∀ x ∈ lines isStop (u ++ c :: l), P x) (hs : Scanning u (c :: l) start i s.tail) :
    ∃ t start' u' ls', (scanByte line i (start, ls)).run s = .done (start', ls') t ∧ J ls' t ∧
      Scanning u' l start' (i + 1) t.tail ∧
      ls' ++ lines isStop (u' ++ l) = ls ++ lines isStop (u ++ c :: l) ∧
      ∀ x ∈ lines isStop (u' ++ l), P x := by
  rw [scanByte, run_bind, run_attempt_ok (by rw [hs.tailByte]; rfl), Outcome.bind_done, run_ite]
  cases hc : isStop c with
  | true =>
    rw [lines_append_cons hs.unbroken hc] at hP ⊢
    obtain ⟨t, ht, hJt, htail⟩ := h.line ls u _ (hP u List.mem_cons_self) (h.endLine ls s i hJ)
    refine ⟨t, i + 1, [], ls ++ [u], ?_, hJt, htail ▸ hs.restart, ?_, fun x hx => ?_⟩
    · rw [if_pos rfl, run_bind, run_modify, Outcome.bind_done, run_bind, run_read,
        Outcome.bind_done, hs.tailString, run_bind, ht]
      rfl
    · rw [List.append_assoc]
      rfl
    · exact hP x (List.mem_cons_of_mem u hx)
  | false =>
    refine ⟨s, start, u ++ [c], ls, rfl, hJ, hs.skip hc, ?_⟩
    rw [List.append_assoc, List.singleton_append]
    exact ⟨rfl, hP⟩

/-! ### The loop -/

theorem run_scanLoop (h : Consumes P J line) (hJ : J ls s) (hP : ∀ x ∈ lines isStop (u ++ l), P x)
    (hs : Scanning u l start i s.tail) (hshort : ((i + l.length : ℕ) : ℤ) ≤ intMax) :
    ∃ a t, (loop (fun i w => i < w.tail.tailBufflen) (scanRound line) (l.length + 1) i
        (start, ls)).run s = .done (a, ls ++ lines isStop (u ++ l)) t ∧
      J (ls ++ lines isStop (u ++ l)) t := by
  induction l generalizing i u start ls s with
  | nil =>
    rw [List.append_nil, lines_unbroken hs.unbroken, List.append_nil]
    exact ⟨start, s, run_loop_stop (decide_eq_false (by simp [hs.bufflen])), hJ⟩
  | cons c l ih =>
    obtain ⟨t, start', u', ls', ht, hJt, hst, hls, hP'⟩ := run_scanByte h hJ hP hs
    rw [List.length_cons] at hshort
    obtain ⟨a, v, hv, hJv⟩ := ih hJt hP' hst (by omega)
    rw [← hls]
    refine ⟨a, v, ?_, hJv⟩
    have hgo : decide (i < s.tail.tailBufflen) = true := by
      rw [hs.bufflen, List.length_cons]
      exact decide_eq_true (by omega)
    have hmax : ¬ (i : ℤ) = intMax := by omega
    rw [run_loop_go hgo, scanRound, run_bind, ht, Outcome.bind_done, run_ite, if_neg hmax,
      run_pure, Outcome.bind_done]
    exact hv

/-- The buffer is cut into its complete lines, which are dealt with one after the other. -/
theorem Consumes.run_scanLines (h : Consumes P J line) (hJ : J [] s) {bs : Bytes}
    (hP : ∀ x ∈ lines isStop bs, P x) (hs : Loaded bs s.tail)
    (hshort : (bs.length : ℤ) ≤ intMax) :
    ∃ t, (scanLines line).run s = .done (lines isStop bs) t ∧ J (lines isStop bs) t := by
  obtain ⟨hlen, r, -, hb⟩ := hs
  have hscan : Scanning [] bs 0 0 s.tail :=
    ⟨nofun, rfl, by rw [hlen, Nat.zero_add], _, r, hb, rfl⟩
  obtain ⟨a, t, ht, hJt⟩ := run_scanLoop (u := []) h hJ hP hscan (by rwa [Nat.zero_add])
  refine ⟨t, ?_, hJt⟩
  rw [scanLines, run_bind, run_read, Outcome.bind_done, run_bind, hlen, ht]
  rfl

/-! ### A buffer too long for an `int` -/

theorem scanLoop_not_done (h : Consumes P J line) (hJ : J ls s)
    (hP : ∀ x ∈ lines isStop (u ++ l), P x) (hs : Scanning u l start i s.tail)
    (hi : (i : ℤ) ≤ intMax) (hlong : intMax < ((i + l.length : ℕ) : ℤ)) :
    ∀ t, (loop (fun i w => i < w.tail.tailBufflen) (scanRound line) n i (start, ls)).run s ≠
      .done b t := by
  induction l generalizing n i u start ls s with
  | nil => exact absurd hlong (not_lt.mpr hi)
  | cons c l ih =>
    cases n with
    | zero => exact fun _ => nofun
    | succ n =>
      obtain ⟨t, start', u', ls', ht, hJt, hst, -, hP'⟩ := run_scanByte h hJ hP hs
      rw [List.length_cons] at hlong
      have hgo : decide (i < s.tail.tailBufflen) = true := by
        rw [hs.bufflen, List.length_cons]
        exact decide_eq_true (by omega)
      intro v hv
      rw [run_loop_go hgo, scanRound, run_bind, ht, Outcome.bind_done, run_ite] at hv
      by_cases hmax : (i : ℤ) = intMax
      · rw [if_pos hmax] at hv
        cases hv
      · rw [if_neg hmax, run_pure, Outcome.bind_done] at hv
        exact ih hJt hP' hst (by omega) (by omega) v hv

/-- The index of the loop overflows before all bytes have gone by. -/
theorem Consumes.scanLines_not_done (h : Consumes P J line) (hJ : J [] s) {bs : Bytes}
    (hP : ∀ x ∈ lines isStop bs, P x) (hs : Loaded bs s.tail) (hlong : intMax < (bs.length : ℤ)) :
    ∀ t, (scanLines line).run s ≠ .done ls t := by
  obtain ⟨hlen, r, -, hb⟩ := hs
  have hscan : Scanning [] bs 0 0 s.tail :=
    ⟨nofun, rfl, by rw [hlen, Nat.zero_add], _, r, hb, rfl⟩
  intro t hr
  rw [scanLines, run_bind, run_read, Outcome.bind_done, run_bind] at hr
  cases hl : (loop (fun i w => i < w.tail.tailBufflen) (scanRound line) (s.tail.tailBufflen + 1) 0
      (0, [])).run s with
  | halted e v => rw [hl] at hr; cases hr
  | done a v =>
    exact scanLoop_not_done (u := []) h hJ hP hscan (by decide) (by rwa [Nat.zero_add]) v hl

/-! ### Passes one after the other -/

/-- A run of the main loop. Before each pass the others append to the log and time passes.
The strings that the passes handed on are listed. -/
def passes (log : CStr) (line : CStr → Prog World Unit) :
    List (List LogMove) → Prog World (List CStr)
  | [] => pure []
  | ms :: mss => do
    others log ms
    let ls ← onepass line
    let ls' ← passes log line mss
    pure (ls ++ ls')

/-- What is appended before a pass. -/
def appended (ms : List LogMove) : Bytes := ms.flatMap LogMove.bytes

/-- Between two passes nothing of the log is unread, if it is read at all. -/
def Polled (log : CStr) (suspicious : ℤ) (i : ℕ) (w : World) : Prop :=
  ∃ p bs, w.Following log suspicious i p bs ∧ (0 ≤ suspicious → p = bs.length)

/-- What `tail_read` delivers of what was appended: with a negative timeout it reopens the
log each time and delivers nothing. -/
def delivery (suspicious : ℤ) (ms : List LogMove) : Bytes :=
  if 0 ≤ suspicious then appended ms else []

/-- Between two passes of a daemon in states of the kind `I` all of the log has been read, and a
poll leaves a state of this kind, in which a string of the kind `P` is dealt with. -/
structure Processing (log : CStr) (suspicious : ℤ) (i : ℕ) (P : CStr → Prop) (I : World → Prop)
    (line : CStr → Prog World Unit) : Prop where
  consumes : Consumes P (fun _ => I) line
  polled : ∀ s, I s → Polled log suspicious i s
  poll : ∀ s t u ms, I s → (∀ m ∈ ms, m.Grows) → (appended ms).length + 1 < uintRange →
    (others log ms).run s = .done () t → tailRead.run t = .done () u → I u

section Passes

variable {log : CStr} {suspicious : ℤ} {w : World} {ms : List LogMove} {mss : List (List LogMove)}

variable {j : ℕ}

/-- The first half of a pass. -/
theorem Polled.run_tailRead (hw : Polled log suspicious j w) (hg : ∀ m ∈ ms, m.Grows)
    (hfew : (appended ms).length + 1 < uintRange) :
    ∃ s t, (others log ms).run w = .done () s ∧ tailRead.run s = .done () t ∧
      Loaded (delivery suspicious ms) t.tail := by
  obtain ⟨p, bs, hf, hp⟩ := hw
  obtain ⟨s, hs, hfs⟩ := hf.run_others hg
  obtain ⟨t, ht, hread, hnot⟩ := hfs.run_tailRead fun h0 => by
    rw [hp h0, List.length_append]
    exact Nat.add_lt_add_left hfew bs.length
  refine ⟨s, t, hs, ht, ?_⟩
  unfold delivery
  split
  · next h0 =>
    obtain ⟨-, hl⟩ := hread h0
    rwa [hp h0, List.drop_left' rfl] at hl
  · next h0 => exact (hnot (not_le.mp h0)).2

theorem run_passes (h : Processing log suspicious j P I line) (hI : I w)
    (hg : ∀ ms ∈ mss, ∀ m ∈ ms, m.Grows)
    (hfew : ∀ ms ∈ mss, (appended ms).length + 1 < uintRange)
    (hP : ∀ ms ∈ mss, ∀ l ∈ lines isStop (delivery suspicious ms), P l)
    (hshort : ∀ ms ∈ mss, ((delivery suspicious ms).length : ℤ) ≤ intMax) :
    ∃ t, (passes log line mss).run w =
      .done ((mss.map (delivery suspicious)).flatMap (lines isStop)) t := by
  induction mss generalizing w with
  | nil => exact ⟨w, rfl⟩
  | cons ms mss ih =>
    have hms : ms ∈ ms :: mss := List.mem_cons_self
    obtain ⟨s, t, hs, ht, hl⟩ := (h.polled w hI).run_tailRead (hg ms hms) (hfew ms hms)
    have hIt := h.poll w s t ms hI (hg ms hms) (hfew ms hms) hs ht
    obtain ⟨u, hu, hIu⟩ := h.consumes.run_scanLines hIt (hP ms hms) hl (hshort ms hms)
    obtain ⟨v, hv⟩ := ih hIu (fun ms' hm => hg ms' (List.mem_cons_of_mem _ hm))
      (fun ms' hm => hfew ms' (List.mem_cons_of_mem _ hm))
      (fun ms' hm => hP ms' (List.mem_cons_of_mem _ hm))
      fun ms' hm => hshort ms' (List.mem_cons_of_mem _ hm)
    refine ⟨v, ?_⟩
    rw [passes, run_bind, hs, Outcome.bind_done, onepass, run_bind, run_bind, ht,
      Outcome.bind_done, hu, Outcome.bind_done, run_bind, hv]
    rfl

theorem passes_not_done (h : Processing log suspicious j P I line) (hI : I w)
    (hg : ∀ ms ∈ mss, ∀ m ∈ ms, m.Grows)
    (hfew : ∀ ms ∈ mss, (appended ms).length + 1 < uintRange)
    (hP : ∀ ms ∈ mss, ∀ l ∈ lines isStop (delivery suspicious ms), P l)
    (hlong : ∃ ms ∈ mss, intMax < ((delivery suspicious ms).length : ℤ)) (ls : List CStr) :
    ∀ t, (passes log line mss).run w ≠ .done ls t := by
  induction mss generalizing w ls with
  | nil => exact absurd hlong (by simp)
  | cons ms mss ih =>
    intro v hv
    have hms : ms ∈ ms :: mss := List.mem_cons_self
    obtain ⟨s, t, hs, ht, hl⟩ := (h.polled w hI).run_tailRead (hg ms hms) (hfew ms hms)
    have hIt := h.poll w s t ms hI (hg ms hms) (hfew ms hms) hs ht
    rw [passes, run_bind, hs, Outcome.bind_done, onepass, run_bind, run_bind, ht,
      Outcome.bind_done] at hv
    by_cases hlen : intMax < ((delivery suspicious ms).length : ℤ)
    · cases hr : (scanLines line).run t with
      | halted e u => rw [hr] at hv; cases hv
      | done ls' u => exact h.consumes.scanLines_not_done hIt (hP ms hms) hl hlen u hr
    · obtain ⟨u, hu, hIu⟩ := h.consumes.run_scanLines hIt (hP ms hms) hl (not_lt.mp hlen)
      have hlong' : ∃ ms ∈ mss, intMax < ((delivery suspicious ms).length : ℤ) := by
        obtain ⟨ms', hm, hlt⟩ := hlong
        rcases List.mem_cons.mp hm with rfl | hm
        · exact absurd hlt hlen
        · exact ⟨ms', hm, hlt⟩
      rw [hu, Outcome.bind_done, run_bind] at hv
      cases hr : (passes log line mss).run u with
      | halted e x => rw [hr] at hv; cases hv
      | done ls' x =>
        exact ih hIu (fun ms' hm => hg ms' (List.mem_cons_of_mem _ hm))
          (fun ms' hm => hfew ms' (List.mem_cons_of_mem _ hm))
          (fun ms' hm => hP ms' (List.mem_cons_of_mem _ hm)) hlong' ls' x hr

theorem handed_eq_iff (h : Processing log suspicious j P I line) (hI : I w)
    (hg : ∀ ms ∈ mss, ∀ m ∈ ms, m.Grows)
    (hfew : ∀ ms ∈ mss, (appended ms).length + 1 < uintRange)
    (hP : ∀ ms ∈ mss, ∀ l ∈ lines isStop (delivery suspicious ms), P l)
    (hshort : ∀ ms ∈ mss, ((delivery suspicious ms).length : ℤ) ≤ intMax) (ls : List CStr) :
    (∃ t, (passes log line mss).run w = .done ls t) ↔
      (mss.map (delivery suspicious)).flatMap (lines isStop) = ls := by
  obtain ⟨t, ht⟩ := run_passes h hI hg hfew hP hshort
  constructor
  · rintro ⟨u, hu⟩
    exact (Outcome.done.inj (ht.symm.trans hu)).1
  · rintro rfl
    exact ⟨t, ht⟩

theorem flatMap_delivery_of_neg (hs : suspicious < 0) (mss : List (List LogMove)) :
    (mss.map (delivery suspicious)).flatMap (lines isStop) = [] := by
  rw [List.flatMap_eq_nil_iff]
  intro bs hbs
  obtain ⟨ms, -, rfl⟩ := List.mem_map.mp hbs
  rw [delivery, if_neg (not_le.mpr hs)]
  rfl

/-- `tail_open` begins behind what the log already holds. -/
theorem polled_tailOpen (h : w.Unopened log suspicious j) :
    ∃ t, tailOpen.run w = .done true t ∧ Polled log suspicious j t ∧ w.Beside t := by
  obtain ⟨t, ht, hf, hbeside⟩ := h.run_tailOpen
  exact ⟨t, ht, ⟨_, _, hf, fun _ => rfl⟩, hbeside⟩

end Passes

end ExactDaemon
