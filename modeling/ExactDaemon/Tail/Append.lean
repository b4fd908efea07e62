import ExactDaemon.Tail.Read

/-! # A log that only grows

The log keeps its name, and between any two statements of `tail_open` and `tail_read`
others append to it and time passes. Every byte behind the position that `tail_open`
records is then delivered once and in order, over any number of reopens.
-/

namespace ExactDaemon

open Prog

/-- The log keeps its name. -/
def LogMove.Grows : LogMove → Prop
  | append _ => True
  | tick _ => True
  | _ => False

instance : DecidablePred LogMove.Grows
  | .append _ => instDecidableTrue
  | .tick _ => instDecidableTrue
  | .rotate _ => instDecidableFalse
  | .create => instDecidableFalse

/-- The state in which the daemon calls `tail_open`, with a log to open. -/
structure World.Unopened (w : World) (log : CStr) (suspicious : ℤ) (i : ℕ) : Prop where
  maillog : w.conffileParam (cstr "maillog") = some log
  suspicious : w.conffileParamInt (cstr "suspicious") = .ok suspicious
  f : w.tail.f = none
  last_le : w.tail.last ≤ w.clock
  dir : w.disk.dir log = some i
  ino_lt : i < w.disk.nextIno

/-- The name stays with the inode, and no other file is created. -/
def Named (log : CStr) (i n : ℕ) (d : Disk) : Prop := d.dir log = some i ∧ d.nextIno = n

variable {log : CStr} {suspicious : ℤ} {i n : ℕ} {w s t : World} {A : World → World → Prop}

theorem Named.move {d : Disk} (h : Named log i n d) {m : LogMove} (hm : m.Grows) :
    Named log i n (d.move log m) := by
  cases m with
  | append bs =>
    rw [Disk.move_append_some h.1]
    exact h
  | tick n => exact h
  | rotate away => exact hm.elim
  | create => exact hm.elim

theorem Disk.spares_of_grows {d : Disk} {held : Option ℕ} {m : LogMove} (hm : m.Grows) :
    d.Spares log held m := by
  cases m with
  | rotate away => exact hm.elim
  | _ => trivial

/-- The watch of a log that only grows, once `f` has been opened. -/
def growing (log : CStr) (o : Origin) (suspicious : ℤ) : Watch where
  log := log
  origin := o
  suspicious := suspicious
  keep d _ held := Named log o.ino o.next d ∧ held = some o.ino

theorem kept_growing (o : Origin) : (growing log o suspicious).Kept LogMove.Grows where
  move _ _ _ _ hm hk := ⟨hk.1.move hm, hk.2⟩
  reopen _ _ _ hk := ⟨hk.1, hk.1.1⟩

/-- Where the log only grows, a poll that finds few bytes is benign. -/
theorem guards_growing (o : Origin) :
    (growing log o suspicious).Guards fun w _ t => FewFound w t := by
  rintro w s t ⟨-, hw⟩ ⟨hs, hsi⟩ ⟨ht, hti⟩ hfew
  refine ⟨hfew, fun j hj hne => ?_, fun x hx _ hne => ?_, fun x hx y hy _ hne _ => ?_⟩
  · exact absurd (ht.1.trans (hs.1.symm.trans hj)) hne
  · rw [World.held, hx] at hsi
    exact absurd (hs.1.trans hsi.symm) hne
  · rw [World.held, hx] at hw
    rw [World.held, hy] at hti
    exact absurd ((Option.some.inj hti).trans (Option.some.inj hw).symm) hne

/-! ### tail_open -/

/-- The watch of `tail_open`: nothing is held until the log is open. -/
def opening (log : CStr) (suspicious : ℤ) (i n : ℕ) (h : i < n) : Watch where
  log := log
  origin := ⟨i, [], n, h⟩
  suspicious := suspicious
  keep d _ _ := Named log i n d

theorem kept_opening (h : i < n) : (opening log suspicious i n h).Kept LogMove.Grows where
  move _ _ _ _ hm hk := hk.move hm
  reopen _ _ _ hk := hk

/-- The log is open at a position. -/
structure World.Open (w : World) (log : CStr) (suspicious : ℤ) (i n fd p : ℕ) : Prop where
  maillog : w.conffileParam (cstr "maillog") = some log
  suspicious : w.conffileParamInt (cstr "suspicious") = .ok suspicious
  f : w.tail.f = some fd
  last_le : w.tail.last ≤ w.clock
  fd_lt : fd < w.fs.nextFd
  stream : w.fs.stream fd = ⟨i, p, []⟩
  le_length : p ≤ (w.disk.data i).length
  named : Named log i n w.disk

namespace World.Open

variable {fd p : ℕ}

theorem cur (h : w.Open log suspicious i n fd p) : w.cur = some (i, p) := by
  simp [World.cur, h.f, h.stream]

theorem sound (h : w.Open log suspicious i n fd p) (hi : i < n) :
    Sound (opening log suspicious i n hi) w where
  keep := h.named
  within j r hc := by
    obtain ⟨rfl, rfl⟩ := Prod.mk.inj (Option.some.inj (h.cur.symm.trans hc))
    exact ⟨lt_of_lt_of_eq hi h.named.2.symm, h.le_length⟩

theorem around {hi : i < n} (h : s.Open log suspicious i n fd p)
    (ha : Around (opening log suspicious i n hi) s t) : t.Open log suspicious i n fd p where
  maillog := (ha.conffileParam _).trans h.maillog
  suspicious := (ha.conffileParamInt _).trans h.suspicious
  f := ha.tail ▸ h.f
  last_le := ha.last.le.trans (h.last_le.trans ha.clock)
  fd_lt := ha.nextFd ▸ h.fd_lt
  stream := ha.stream ▸ h.stream
  le_length := h.le_length.trans
    (ha.data i (lt_of_lt_of_eq hi h.named.2.symm)).length_le
  named := ha.keep h.named

theorem onTail (h : w.Open log suspicious i n fd p) {g : Tail → Tail}
    (hf : (g w.tail).f = w.tail.f) (hl : (g w.tail).last ≤ w.clock) :
    (w.onTail g).Open log suspicious i n fd p :=
  ⟨h.maillog, h.suspicious, hf.trans h.f, hl, h.fd_lt, h.stream, h.le_length, h.named⟩

theorem fseek_fromEnd (h : w.Open log suspicious i n fd p) :
    w.fseek fd 0 .fromEnd = (0, w.seeked fd (w.disk.data i).length) := by
  rw [World.fseek_fromEnd, h.stream]

theorem seeked (h : w.Open log suspicious i n fd p) {q : ℕ} (hq : q ≤ (w.disk.data i).length) :
    (w.seeked fd q).Open log suspicious i n fd q :=
  ⟨h.maillog, h.suspicious, h.f, h.last_le, h.fd_lt, by simp [World.seeked, Fs.seeked, h.stream],
    hq, h.named⟩

/-- The polls start with everything before the position skipped and nothing delivered. -/
theorem follows (h : w.Open log suspicious i n fd p) (hi : i < n)
    (hb : ∃ b, w.tail.tailBuff = some b ∧ b ≠ []) (keep : Disk → ℤ → Option ℕ → Prop)
    (hk : keep w.disk w.clock (some i)) :
    Follows ⟨log, ⟨i, (w.disk.data i).take p, n, hi⟩, suspicious, keep⟩ [] w where
  maillog := h.maillog
  suspicious := h.suspicious
  buff := hb
  last_le := h.last_le
  fd_lt fd' hf := by
    obtain rfl := Option.some.inj (h.f.symm.trans hf)
    exact ⟨h.fd_lt, by rw [h.stream]⟩
  upto := by
    have hn : w.disk.nextIno - n = 0 := by rw [h.named.2, Nat.sub_self]
    rw [h.cur]
    refine ⟨?_, [], [], ⟨?_, ?_, nofun, h.named.2.ge⟩, List.append_nil _⟩
    · rintro _ _ ⟨⟩
      exact h.le_length
    · exact congrArg (i :: List.range' n · ) hn
    · intro j hj
      simpa using h.named.1.symm.trans hj
  keep := by
    rw [World.held, h.cur]
    exact hk

end World.Open

theorem World.Unopened.around (h : s.Unopened log suspicious i)
    (ha : Around (opening log suspicious i s.disk.nextIno h.ino_lt) s t) :
    t.Unopened log suspicious i ∧ t.disk.nextIno = s.disk.nextIno := by
  have hk := ha.keep ⟨h.dir, rfl⟩
  exact ⟨⟨(ha.conffileParam _).trans h.maillog, (ha.conffileParamInt _).trans h.suspicious,
    ha.tail ▸ h.f, ha.last.le.trans (h.last_le.trans ha.clock), hk.1,
    lt_of_lt_of_eq h.ino_lt hk.2.symm⟩, hk.2⟩

theorem World.Unopened.opened (h : w.Unopened log suspicious i) :
    (w.opened i).Open log suspicious i w.disk.nextIno w.fs.nextFd 0 where
  maillog := h.maillog
  suspicious := h.suspicious
  f := rfl
  last_le := h.last_le
  fd_lt := Nat.lt_succ_self _
  stream := Function.update_self _ _ _
  le_length := Nat.zero_le _
  named := ⟨h.dir, rfl⟩

/-- `tail_open` opens the log at what is its end at one moment. -/
theorem rely_tailOpen (h : w.Unopened log suspicious i) :
    rely (Around (opening log suspicious i w.disk.nextIno h.ino_lt)) A
      (Sound (opening log suspicious i w.disk.nextIno h.ino_lt)) tailOpen
      (fun b t => b = true ∧ (∃ b, t.tail.tailBuff = some b ∧ b ≠ []) ∧
        ∃ fd p, t.Open log suspicious i w.disk.nextIno fd p) w := by
  have hi := h.ino_lt
  unfold tailOpen
  rw [rely_bind]
  refine rely_attempt fun s₁ ha₁ => ?_
  obtain ⟨h₁, hn⟩ := h.around ha₁
  refine ⟨_, _, World.openLog_some h₁.maillog h₁.dir, fun _ => ?_⟩
  have h₂ := hn ▸ h₁.opened
  refine ⟨h₂.sound hi, ?_⟩
  rw [rely_bind, rely_modify]
  intro s₃ ha₃ _
  have h₃ := (h₂.around ha₃).onTail (g := ({ · with last := s₃.clock })) rfl le_rfl
  refine ⟨h₃.sound hi, ?_⟩
  rw [rely_bind, rely_modify]
  intro s₄ ha₄ _
  have h₄ := (h₃.around ha₄).onTail (g := ({ · with paws := pawsMax })) rfl
    (h₃.around ha₄).last_le
  refine ⟨h₄.sound hi, ?_⟩
  rw [rely_bind, rely_act]
  intro s₅ ha₅ _
  have h₅ := h₄.around ha₅
  have h₆ := h₅.seeked le_rfl
  rw [h₅.fseek_fromEnd]
  refine ⟨h₆.sound hi, ?_⟩
  rw [rely_bind, rely_modify]
  intro s₇ ha₇ _
  have h₇ := (h₆.around ha₇).onTail (g := ({ · with tailBuff := some (List.replicate 1024 0) })) rfl
    (h₆.around ha₇).last_le
  have hne : List.replicate 1024 (0 : UInt8) ≠ [] :=
    List.ne_nil_of_length_pos (by rw [List.length_replicate]; decide)
  exact ⟨h₇.sound hi, rfl, ⟨_, rfl, hne⟩, _, _, h₇⟩

theorem run_tailOpen (h : w.Unopened log suspicious i) {oss : List (List LogMove)}
    (ho : ∀ ms ∈ oss, ∀ m ∈ ms, m.Grows) :
    ∃ t fd p, (weave (oss.map (others log)) tailOpen).run w = .done true t ∧
      (∃ b, t.tail.tailBuff = some b ∧ b ≠ []) ∧
      t.Open log suspicious i w.disk.nextIno fd p := by
  have hs : Sound (opening log suspicious i w.disk.nextIno h.ino_lt) w := by
    refine ⟨⟨h.dir, rfl⟩, fun j r hc => ?_⟩
    rw [World.cur, h.f] at hc
    cases hc
  have hq : ∀ q ∈ oss.map (others log), ∀ s,
      Sound (opening log suspicious i w.disk.nextIno h.ino_lt) s →
      (q.trace s).IsChain (fun _ _ => True) → ∃ s', q.run s = .done () s' ∧
        Around (opening log suspicious i w.disk.nextIno h.ino_lt) s s' ∧
        ∀ t ∈ q.trace s, Sound (opening log suspicious i w.disk.nextIno h.ino_lt) t := by
    intro q hq s hs hc
    obtain ⟨ms, hm, rfl⟩ := List.mem_map.mp hq
    exact run_others (kept_opening h.ino_lt) (fun s m hg _ _ _ => Disk.spares_of_grows hg)
      (ho ms hm) hs hc
  obtain ⟨_, t, ht, ⟨rfl, hb, fd, p, hp⟩, -⟩ := (rely_tailOpen h).run_weave
    (Around.refl _) hs hq (List.pairwise_of_forall fun _ _ => trivial).isChain
  exact ⟨t, fd, p, ht, hb, hp⟩

/-! ### The whole run -/

/-- For every interleaving of appends, clock ticks and polls, the buffers together are
what the log holds between the position that `tail_open` recorded and the position
reached. That position never passes the end of the log, and no poll stops. -/
theorem delivered_once {w₀ : World} (h : w₀.Unopened log suspicious i)
    {oss : List (List LogMove)} (ho : ∀ ms ∈ oss, ∀ m ∈ ms, m.Grows)
    {pss : List (List (List LogMove))} (hp : ∀ mss ∈ pss, ∀ ms ∈ mss, ∀ m ∈ ms, m.Grows)
    (hfew : ∀ w, (weave (oss.map (others log)) tailOpen).run w₀ = .done true w →
      EachStep (fun w _ t => FewFound w t) log pss w) :
    ∃ w₁ start, (weave (oss.map (others log)) tailOpen).run w₀ = .done true w₁ ∧
      w₁.cur = some (i, start) ∧
      ∃ bufs w p, (polls log pss).run w₁ = .done bufs w ∧ w.cur = some (i, p) ∧
        bufs.flatten = ((w.fs.data i).take p).drop start ∧
        ∀ t ∈ (polls log pss).trace w₁,
          t.fs.dir log = some i ∧ ∃ q, t.cur = some (i, q) ∧ q ≤ (t.fs.data i).length := by
  obtain ⟨w₁, fd, start, hw₁, hb, hopen⟩ := run_tailOpen h ho
  refine ⟨w₁, start, hw₁, hopen.cur, ?_⟩
  have hf : Follows (growing log ⟨i, (w₁.disk.data i).take start, _, h.ino_lt⟩ suspicious) [] w₁ :=
    hopen.follows h.ino_lt hb _ ⟨hopen.named, rfl⟩
  obtain ⟨bufs, w, hrun, hfw, hs⟩ :=
    run_polls hf (kept_growing _) (guards_growing _) hp (hfew w₁ hw₁)
  -- the stream is never closed for good, and stays on the one file
  have hcur : ∀ {t}, Sound (growing log ⟨i, (w₁.disk.data i).take start, _, h.ino_lt⟩
      suspicious) t → ∃ q, t.cur = some (i, q) ∧ q ≤ (t.fs.data i).length := by
    intro t ht
    obtain ⟨⟨j, q⟩, hc, rfl⟩ := Option.map_eq_some_iff.mp ht.keep.2
    exact ⟨q, hc, (ht.within _ q hc).2⟩
  obtain ⟨p, hc, -⟩ := hcur hfw.sound
  refine ⟨bufs, w, p, hrun, hc, ?_, fun t ht => ⟨(hs t ht).keep.1.1, hcur (hs t ht)⟩⟩
  have hu := hc ▸ hfw.upto
  have htake := hu.single hfw.keep.1.2
  rw [List.nil_append] at htake
  have hlen : ((w₁.disk.data i).take start).length = start :=
    List.length_take_of_le hopen.le_length
  calc bufs.flatten
      = ((w₁.disk.data i).take start ++ bufs.flatten).drop start := by
        rw [List.drop_left' hlen]
    _ = ((w.fs.data i).take p).drop start := congrArg (List.drop start) htake

def tailParam : List Param :=
  [⟨cstr "maillog", cstr "log", false⟩, ⟨cstr "suspicious", cstr "60", false⟩]

/-- A daemon about to open a log that holds `bs`. -/
def aboutToOpen (bs : Bytes) : World := (World.boot tailParam).withFile (cstr "log") bs

theorem unopened_aboutToOpen (bs : Bytes) :
    (aboutToOpen bs).Unopened (cstr "log") (atoi (cstr "60")) 0 where
  maillog := rfl
  suspicious := rfl
  f := rfl
  last_le := le_rfl
  dir := rfl
  ino_lt := Nat.zero_lt_one

/-- Two polls: one with an append before it and one between its seeks, and a late one,
which reopens the log. -/
def twoPolls : List (List (List LogMove)) :=
  [[[.append (cstr "a\n")], [], [], [.append (cstr "b")]], [[.tick 100]]]

theorem delivered_once_two_polls :
    ∃ w₁ start, (weave (([[.append (cstr "x")]] : List (List LogMove)).map
        (others (cstr "log"))) tailOpen).run (aboutToOpen (cstr "old")) = .done true w₁ ∧
      w₁.cur = some (0, start) ∧
      ∃ bufs w p, (polls (cstr "log") twoPolls).run w₁ = .done bufs w ∧ w.cur = some (0, p) ∧
        bufs.flatten = ((w.fs.data 0).take p).drop start ∧
        ∀ t ∈ (polls (cstr "log") twoPolls).trace w₁,
          t.fs.dir (cstr "log") = some 0 ∧ ∃ q, t.cur = some (0, q) ∧ q ≤ (t.fs.data 0).length := by
  refine delivered_once (unopened_aboutToOpen (cstr "old")) (by decide) (by decide) fun w hw => ?_
  rw [Outcome.eq_state hw]
  apply EachStep.cons
  · decide +kernel
  · apply EachStep.cons
    · decide +kernel
    · exact trivial

end ExactDaemon
