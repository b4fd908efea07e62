import ExactDaemon.Tail.Append
import ExactDaemon.Tail.Quiet

/-! # Undisturbed polls of a log that only grows

Others append to the log between two polls. A poll then delivers exactly what was
appended since the last one, or, when the timeout is negative, never delivers anything.
-/

namespace ExactDaemon

open Prog

/-! ### What the tail leaves alone -/

/-- The second state differs from the first at most in the files, the time, and the
globals of tail.c. -/
structure World.Beside (s t : World) : Prop where
  writable : t.fs.writable = s.fs.writable
  flushes : t.flushes = s.flushes
  alarm : t.alarm = s.alarm
  conf : t.conf = s.conf
  staticSection : t.staticSection = s.staticSection
  patbuf : t.patbuf = s.patbuf
  tables : t.tables = s.tables
  db : t.db = s.db

variable {log : CStr} {suspicious : ℤ} {s t w : World} {i n p fd : ℕ} {bs : Bytes}
  {ms : List LogMove}

namespace World.Beside

theorem refl (s : World) : s.Beside s := ⟨rfl, rfl, rfl, rfl, rfl, rfl, rfl, rfl⟩

theorem files (h : s.Beside t) {u : World} (hw : u.fs.writable = t.fs.writable)
    (hu : u = { t with fs := u.fs, clock := u.clock, tail := u.tail }) : s.Beside u := by
  rw [hu]
  exact ⟨hw.trans h.writable, h.flushes, h.alarm, h.conf, h.staticSection, h.patbuf, h.tables, h.db⟩

theorem onTail (h : s.Beside t) (g : Tail → Tail) : s.Beside (t.onTail g) := h.files rfl rfl

theorem fseek (h : s.Beside t) (fd : ℕ) (off : ℤ) (whence : Whence) :
    s.Beside (t.fseek fd off whence).2 := by
  unfold World.fseek
  split
  · exact h
  · rename_i hfs
    exact h.files (Fs.writable_seek hfs) rfl

theorem closeLog (h : s.Beside t) : s.Beside t.closeLog := by
  unfold World.closeLog
  split
  · exact h.files rfl rfl
  · exact h

theorem openLog (h : s.Beside t) {f : Option ℕ} {u : World} (hu : t.openLog = .ok (f, u)) :
    s.Beside u := by
  unfold World.openLog at hu
  split at hu
  · cases hu
  · split at hu
    · obtain ⟨-, rfl⟩ := Prod.mk.inj (Except.ok.inj hu)
      exact h.onTail _
    · rename_i hr
      obtain ⟨-, rfl⟩ := Prod.mk.inj (Except.ok.inj hu)
      obtain ⟨i, -, hi⟩ := Option.map_eq_some_iff.mp hr
      obtain ⟨-, rfl⟩ := Prod.mk.inj hi
      exact h.files rfl rfl

theorem noteGrowth (h : s.Beside t) (c eof : ℤ) : s.Beside (t.noteGrowth c eof) := by
  unfold World.noteGrowth
  split
  · exact h.onTail _
  · exact h

theorem terminateTail (h : s.Beside t) {a : Unit} {u : World}
    (hu : t.terminateTail = .ok (a, u)) : s.Beside u := by
  unfold World.terminateTail at hu
  split at hu
  · cases hu
  · split at hu
    · obtain ⟨-, rfl⟩ := Prod.mk.inj (Except.ok.inj hu)
      exact h.onTail _
    · cases hu

theorem isSuspicious (h : s.Beside t) {a : Bool} {u : World}
    (hu : t.isSuspicious = .ok (a, u)) : s.Beside u := by
  unfold World.isSuspicious at hu
  cases hn : t.conffileParamInt (cstr "suspicious") with
  | error e => rw [hn] at hu; cases hu
  | ok n =>
    rw [hn] at hu
    obtain ⟨-, rfl⟩ := Prod.mk.inj (Except.ok.inj hu)
    exact h

theorem others (h : s.Beside t) (log : CStr) (m : LogMove) : s.Beside (t.others log m) :=
  h.files rfl rfl

end World.Beside

theorem keeps_others (ms : List LogMove) : Keeps s.Beside (others log ms) := by
  induction ms with
  | nil => exact keeps_pure ()
  | cons m ms ih => exact Keeps.bind (keeps_act fun _ h => h.others log m) fun _ => ih

theorem keeps_onTail (g : World → Tail → Tail) :
    Keeps s.Beside (modify fun w => w.onTail (g w)) :=
  keeps_act fun _ h => h.onTail _

theorem keeps_fseek (fd : ℕ) (off : ℤ) (whence : Whence) :
    Keeps s.Beside (act (·.fseek fd off whence)) :=
  keeps_act fun _ h => h.fseek fd off whence

theorem keeps_tailReposition (fd : ℕ) (c : ℤ) : Keeps s.Beside (tailReposition fd c) :=
  (keeps_fseek fd 0 .fromEnd).bind fun _ => (keeps_read _).bind fun _ =>
    keeps_ite
      ((keeps_fseek fd 0 .set).bind fun _ => keeps_ite (keeps_halt _) (keeps_pure _))
      ((keeps_fseek fd c .set).bind fun _ => keeps_ite (keeps_halt _) (keeps_pure _))

theorem keeps_tailReopen (c : ℤ) : Keeps s.Beside (tailReopen c) := by
  refine Keeps.bind (keeps_act fun _ h => h.closeLog) fun _ =>
    Keeps.bind (keeps_attempt fun _ _ _ h hu => h.openLog hu) fun f => ?_
  cases f with
  | none => exact keeps_onTail _
  | some fd => exact keeps_tailReposition fd c

theorem keeps_tailPause : Keeps s.Beside tailPause := by
  refine (keeps_read _).bind fun lines => ?_
  exact keeps_ite ((keeps_onTail _).bind fun _ => keeps_onTail _)
    ((keeps_onTail _).bind fun _ => keeps_onTail _)

theorem keeps_tailTake (fd : ℕ) (c eof : ℤ) : Keeps s.Beside (tailTake fd c eof) := by
  have hfill : Keeps s.Beside (tailFill fd) :=
    Keeps.bind (keeps_act fun _ h => h.files rfl rfl) fun n => (keeps_read _).bind fun _ =>
      keeps_guard _ fun _ => Keeps.bind (keeps_attempt fun _ _ _ h hu => h.terminateTail hu)
        fun _ => keeps_tailPause
  exact (keeps_onTail _).bind fun _ => (keeps_onTail _).bind fun _ => (keeps_read _).bind fun _ =>
    keeps_guard _ fun _ => hfill

/-- `tail_read` changes nothing but files, of which it only reads, and its own globals. -/
theorem keeps_tailRead : Keeps s.Beside tailRead := by
  refine (keeps_read _).bind fun f => ?_
  cases f with
  | none =>
    exact (keeps_tailReopen 0).bind fun _ => (keeps_onTail _).bind fun _ => keeps_onTail _
  | some fd =>
    refine (keeps_read _).bind fun c => (keeps_fseek fd 0 .fromEnd).bind fun _ =>
      keeps_guard _ fun _ => (keeps_read _).bind fun eof => (keeps_fseek fd c .set).bind fun _ =>
      keeps_guard _ fun _ => Keeps.bind (keeps_act fun _ h => h.noteGrowth c eof) fun _ =>
      Keeps.bind (keeps_attempt fun _ _ _ h hu => h.isSuspicious hu) fun late => ?_
    exact keeps_ite
      ((keeps_tailReopen c).bind fun _ => (keeps_onTail _).bind fun _ => keeps_onTail _)
      (keeps_tailTake fd c eof)

/-! ### One poll -/

/-- What a move appends. -/
def LogMove.bytes : LogMove → Bytes
  | append bs => bs
  | _ => []

/-- The log holds `bs`, of which the daemon has read the first `p`. -/
structure World.Following (w : World) (log : CStr) (suspicious : ℤ) (i p : ℕ) (bs : Bytes) :
    Prop where
  opened : ∃ fd, w.Open log suspicious i w.disk.nextIno fd p
  buff : ∃ b, w.tail.tailBuff = some b ∧ b ≠ []
  ino_lt : i < w.disk.nextIno
  data : w.disk.data i = bs

namespace World.Following

theorem onTail (h : w.Following log suspicious i p bs) {g : Tail → Tail}
    (hf : (g w.tail).f = w.tail.f) (hl : (g w.tail).last ≤ w.clock)
    (hb : ∃ b, (g w.tail).tailBuff = some b ∧ b ≠ []) :
    (w.onTail g).Following log suspicious i p bs := by
  obtain ⟨fd, ho⟩ := h.opened
  exact ⟨⟨fd, ho.onTail hf hl⟩, hb, h.ino_lt, h.data⟩

theorem last_le (h : w.Following log suspicious i p bs) : w.tail.last ≤ w.clock := by
  obtain ⟨fd, ho⟩ := h.opened
  exact ho.last_le

theorem le_length (h : w.Following log suspicious i p bs) : p ≤ bs.length := by
  obtain ⟨fd, ho⟩ := h.opened
  exact h.data ▸ ho.le_length

/-- A move of the others in between. -/
theorem others (h : w.Following log suspicious i p bs) {m : LogMove} (hm : m.Grows) :
    (w.others log m).Following log suspicious i p (bs ++ m.bytes) := by
  obtain ⟨⟨fd, ho⟩, hb, hi, hd⟩ := h
  have hmove : w.disk.move log m =
      { w.disk with data := Function.update w.disk.data i (bs ++ m.bytes) } := by
    cases m with
    | append bs' => rw [Disk.move_append_some ho.named.1, hd]; rfl
    | tick n =>
      rw [show (LogMove.tick n).bytes = [] from rfl, List.append_nil, ← hd,
        Function.update_eq_self]
      rfl
    | rotate away => exact hm.elim
    | create => exact hm.elim
  have hdata : (w.others log m).disk.data i = bs ++ m.bytes := by
    change (w.disk.move log m).data i = _
    rw [hmove]
    exact Function.update_self _ _ _
  have hnamed := ho.named.move hm
  refine ⟨⟨fd, ho.maillog, ho.suspicious, ho.f, ?_, ho.fd_lt, ho.stream, ?_, hnamed.1, rfl⟩, hb,
    hi.trans_le (Disk.nextIno_move w.disk m), hdata⟩
  · exact ho.last_le.trans (Int.le_add_of_nonneg_right (Int.natCast_nonneg _))
  · rw [hdata, List.length_append, ← hd]
    exact ho.le_length.trans (Nat.le_add_right _ _)

theorem run_others (h : w.Following log suspicious i p bs) (hms : ∀ m ∈ ms, m.Grows) :
    ∃ t, (ExactDaemon.others log ms).run w = .done () t ∧
      t.Following log suspicious i p (bs ++ ms.flatMap LogMove.bytes) := by
  induction ms generalizing w bs with
  | nil => exact ⟨w, rfl, by simpa using h⟩
  | cons m ms ih =>
    obtain ⟨t, ht, hft⟩ := ih (h.others (hms m List.mem_cons_self))
      fun m' hm' => hms m' (List.mem_cons_of_mem m hm')
    exact ⟨t, ht, by rwa [List.flatMap_cons, ← List.append_assoc]⟩

end World.Following

/-- `tail_open` begins behind what the log already holds. -/
theorem World.Unopened.run_tailOpen (h : w.Unopened log suspicious i) :
    ∃ t, tailOpen.run w = .done true t ∧
      t.Following log suspicious i (w.disk.data i).length (w.disk.data i) ∧ w.Beside t := by
  have hne : List.replicate 1024 (0 : UInt8) ≠ [] :=
    List.ne_nil_of_length_pos (by rw [List.length_replicate]; decide)
  have h₁ := h.opened.onTail (g := ({ · with last := w.clock })) rfl le_rfl
  have h₂ := h₁.onTail (g := ({ · with paws := pawsMax })) rfl h₁.last_le
  have h₃ := (h₂.seeked le_rfl).onTail (g := ({ · with tailBuff := some (List.replicate 1024 0) }))
    rfl h₂.last_le
  unfold tailOpen
  rw [run_bind, run_attempt_ok (World.openLog_some h.maillog h.dir), Outcome.bind_done, run_bind,
    run_modify, Outcome.bind_done, run_bind, run_modify, Outcome.bind_done, run_bind, run_act]
  refine ⟨_, ?_, ⟨⟨_, h₃⟩, ⟨_, rfl, hne⟩, h.ino_lt, rfl⟩, (World.Beside.refl w).files rfl rfl⟩
  exact congrArg (fun r : ℤ × World => Outcome.done true
    (r.2.onTail ({ · with tailBuff := some (List.replicate 1024 0) }))) h₂.fseek_fromEnd

/-- `tail_reopen` finds the same file, and its place in it. -/
theorem World.Open.run_tailReopen (h : w.Open log suspicious i n fd p) (hi : i < n)
    (hb : ∃ b, w.tail.tailBuff = some b ∧ b ≠ []) :
    ∃ t, (tailReopen p).run w = .done () t ∧ t.Open log suspicious i n w.fs.nextFd p ∧
      t.disk = w.disk ∧ t.tail.tailBuff = w.tail.tailBuff := by
  have hf := h.follows hi hb (fun _ _ _ => True) trivial
  have hlog : w.openLog = .ok (some w.fs.nextFd, w.opened i) :=
    World.openLog_some h.maillog h.named.1
  have hstream : (w.opened i).fs.stream w.fs.nextFd = ⟨i, 0, []⟩ := Function.update_self _ _ _
  have hle : ¬ ((w.opened i).disk.data i).length < p := Nat.not_lt.mpr h.le_length
  unfold tailReopen
  rw [run_bind, run_modify, Outcome.bind_done, hf.closeLog, run_bind, run_attempt_ok hlog]
  refine ⟨_, run_tailReposition (w.opened i) w.fs.nextFd p, ?_, rfl, rfl⟩
  rw [hstream, if_neg hle]
  exact ⟨h.maillog, h.suspicious, rfl, h.last_le, Nat.lt_succ_self _,
    by simp [World.seeked, Fs.seeked, hstream], h.le_length, h.named⟩

theorem World.Open.noteGrowth (h : w.Open log suspicious i n fd p) (c eof : ℤ) :
    (w.noteGrowth c eof).Open log suspicious i n fd p := by
  unfold World.noteGrowth
  split
  · exact h.onTail rfl le_rfl
  · exact h

theorem World.tailBuff_noteGrowth (w : World) (c eof : ℤ) :
    (w.noteGrowth c eof).tail.tailBuff = w.tail.tailBuff := by
  unfold World.noteGrowth
  split <;> rfl

/-- A poll that reopens the log takes nothing. -/
theorem World.Following.run_reopen (h : w.Following log suspicious i p bs) (c eof : ℤ) :
    ∃ t, (tailReopen p >>= fun _ => do
        modify fun w => w.onTail ({ · with last := w.clock })
        modify (·.onTail ({ · with tailBufflen := 0 }))).run (w.noteGrowth c eof) = .done () t ∧
      t.Following log suspicious i p bs ∧ Loaded [] t.tail := by
  obtain ⟨⟨fd, ho⟩, ⟨b, hb, hne⟩, hi, hd⟩ := h
  have hb' : (w.noteGrowth c eof).tail.tailBuff = some b := (w.tailBuff_noteGrowth c eof).trans hb
  obtain ⟨t, ht, hot, hdisk, hbt⟩ := (ho.noteGrowth c eof).run_tailReopen hi ⟨b, hb', hne⟩
  rw [World.disk_noteGrowth] at hdisk
  have hft : t.Following log suspicious i p bs :=
    ⟨⟨_, by rw [hdisk]; exact hot⟩, ⟨b, hbt.trans hb', hne⟩, hdisk ▸ hi, hdisk ▸ hd⟩
  have hbt' : ∃ b, t.tail.tailBuff = some b ∧ b ≠ [] := ⟨b, hbt.trans hb', hne⟩
  have hf₁ := hft.onTail (g := ({ · with last := t.clock })) rfl le_rfl hbt'
  have hf₂ := hf₁.onTail (g := ({ · with tailBufflen := 0 })) rfl hf₁.last_le hbt'
  rw [run_bind, ht]
  exact ⟨_, rfl, hf₂, rfl, b, hne, hbt.trans hb'⟩

/-- A poll takes all that has not been read yet, unless it is after the timeout. Then all
has been read, or the timeout is negative. -/
theorem World.Following.run_tailRead (h : w.Following log suspicious i p bs)
    (hfew : 0 ≤ suspicious → bs.length + 1 < p + uintRange) :
    ∃ t, tailRead.run w = .done () t ∧
      (0 ≤ suspicious → t.Following log suspicious i bs.length bs ∧ Loaded (bs.drop p) t.tail) ∧
      (suspicious < 0 → t.Following log suspicious i p bs ∧ Loaded [] t.tail) := by
  obtain ⟨⟨fd, ho⟩, hb, hi, hd⟩ := id h
  have hf := ho.follows hi hb (fun _ _ _ => True) trivial
  have hm := hf.midway ho.f ho.cur
  have hn := ho.noteGrowth p bs.length
  have hrun := hm.run_tailRead
  rw [hd] at hrun
  rw [hrun]
  by_cases hlate : w.clock - (w.noteGrowth p bs.length).tail.last > suspicious
  · rw [if_pos hlate]
    obtain ⟨t, ht, hft, hl⟩ := h.run_reopen p bs.length
    refine ⟨t, ht, fun hs => ?_, fun _ => ⟨hft, hl⟩⟩
    -- new bytes would have been seen at this very moment
    have hp : p = bs.length := by
      rcases Nat.lt_or_eq_of_le h.le_length with hlt | he
      · rw [last_noteGrowth_new w hlt] at hlate
        omega
      · exact he
    subst hp
    exact ⟨hft, by rwa [List.drop_length]⟩
  · rw [if_neg hlate]
    have hlast := hn.last_le
    rw [World.clock_noteGrowth] at hlast
    have hs : 0 ≤ suspicious := by omega
    have hdn : (w.noteGrowth p bs.length).disk.data i = bs := by
      rw [World.disk_noteGrowth]
      exact hd
    obtain ⟨t, ht, htook⟩ := (hm.noteGrowth p bs.length).run_tailTake h.le_length
      (by rw [hdn]) (hfew hs)
    refine ⟨t, ht, fun _ => ?_, fun hneg => absurd hneg (not_lt.mpr hs)⟩
    have hmt := htook.midway
    have hdisk : t.disk = w.disk := hmt.keep.1.trans (w.disk_noteGrowth _ _)
    have hbs : t.disk.data i = bs := hdisk ▸ hd
    have hlen : bs.length ≤ (t.disk.data i).length := hmt.le_length
    have htaken : bs.take p ++ t.delivered = bs.take p ++ bs.drop p := by
      have hsingle := hmt.upto.single (congrArg Disk.nextIno hdisk)
      rw [hbs, List.take_length] at hsingle
      rw [List.take_append_drop, ← hd]
      exact hsingle.trans hd.symm
    refine ⟨⟨⟨fd, hmt.maillog, hmt.suspicious, hmt.f, hmt.last_le, hmt.fd_lt, hmt.stream, hlen,
      hdisk ▸ ho.named.1, rfl⟩, htook.loaded.ne_nil, hdisk ▸ hi, hbs⟩, ?_⟩
    rw [← List.append_cancel_left htaken]
    exact htook.loaded

end ExactDaemon
