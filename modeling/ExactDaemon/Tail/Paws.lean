import ExactDaemon.Lib.Points
import ExactDaemon.Tail.Growing
import ExactDaemon.Tail.Measure

/-! # The pause between two polls

`tail_open` and `tail_read` with their naps, and with the number of newlines that a poll
counts. Whatever happens to the log and whatever else the process does in between, the
pause stays between 1 and `PAWS_MAX` microseconds, and twenty polls of an idle log bring it
back to the maximum. The pause is divided by the newlines that a poll has read, unless there
are too many bytes for the `int` that `linecount` is given.
-/

namespace ExactDaemon

open Prog

/-- The number of values of an `unsigned long`. -/
def ulongRange : ℕ := 18446744073709551616

structure Timeval where
  sec : ℤ
  usec : ℤ
  deriving DecidableEq, Repr

/-- The microseconds are less than a second. -/
def Timeval.Proper (tv : Timeval) : Prop := 0 ≤ tv.usec ∧ tv.usec < 1000000

/-- What `nap` gives to `select`. -/
def timeval (usec : ℤ) : Timeval := ⟨usec.tdiv 1000000, usec.tmod 1000000⟩

/-- The daemon with the naps it has taken, and the number of newlines that the poll under
way has counted, if it has read the log. -/
structure Napping where
  world : World
  naps : List Timeval
  found : Option ℕ

namespace Napping

def toWorld : Lens Napping World where
  get := world
  set s w := { s with world := w }
  get_set _ _ := rfl
  set_get _ := rfl
  set_set _ _ _ := rfl

/-- What `nap (paws)` gives to `select`; its parameter is a `long`. -/
def pause (paws : ℕ) : Timeval := timeval (Int.bmod paws ulongRange)

/-- `nap (paws)`. -/
def nap : Prog Napping Unit :=
  modify fun s => { s with
    naps := s.naps ++ [pause s.world.tail.paws] }

/-- The newlines that `tail_read` counts. -/
def counted (w : World) : ℕ := linecount (w.tail.tailBuff.getD []) w.tail.tailBufflen

/-- `tail_read` from the `fread` on. -/
def tailFill (fd : ℕ) : Prog Napping Unit := do
  let n ← zoom toWorld (act (·.freadTail fd))
  let len ← zoom toWorld (read (·.tail.tailBufflen))
  if n ≠ len then halt (.exit 31)
  zoom toWorld (attempt World.terminateTail)
  modify fun s => { s with found := some (counted s.world) }
  zoom toWorld tailPause

def tailTake (fd : ℕ) (current eof : ℤ) : Prog Napping Unit := do
  zoom toWorld (modify (·.onTail ({ · with tailBufflen := ((eof - current) % uintRange).toNat })))
  zoom toWorld (modify (·.onTail growBuff))
  let buff ← zoom toWorld (read (·.tail.tailBuff))
  if buff = none then halt (.exit 30)
  tailFill fd

/-- `tail_reopen (current)` and what follows it in both places. -/
def tailLeave (current : ℤ) : Prog World Unit := do
  tailReopen current
  modify fun w => w.onTail ({ · with last := w.clock })
  modify (·.onTail ({ · with tailBufflen := 0 }))

def tailRead : Prog Napping Unit := do
  modify ({ · with found := none })
  let f ← zoom toWorld (read (·.tail.f))
  match f with
  | none => do
    zoom toWorld (tailLeave 0)
    nap
  | some fd => do
    nap
    let current ← zoom toWorld (read (·.fs.tell fd))
    let r ← zoom toWorld (act (·.fseek fd 0 .fromEnd))
    if r = -1 then halt (.exit 71)
    let eof ← zoom toWorld (read (·.fs.tell fd))
    let r ← zoom toWorld (act (·.fseek fd current .set))
    if r = -1 then halt (.exit 72)
    zoom toWorld (modify (·.noteGrowth current eof))
    let suspicious ← zoom toWorld (attempt World.isSuspicious)
    if suspicious then
      zoom toWorld (tailLeave current)
    else
      tailTake fd current eof

/-- What may happen between two statements: anything but to the variables of tail.c. -/
structure Elsewhere (s t : Napping) : Prop where
  tail : t.world.tail = s.world.tail
  naps : t.naps = s.naps
  found : t.found = s.found

/-- The states between the polls of a daemon that has opened its log. -/
inductive Polling : Napping → Prop
  | opened {s t : Napping} {b : Bool} :
      s.naps = [] → Ends Elsewhere (zoom toWorld tailOpen) s b t → Polling t
  | polled {s t : Napping} : Polling s → Ends Elsewhere tailRead s () t → Polling t
  | moved {s t : Napping} : Polling s → Elsewhere s t → Polling t

/-- The newlines among the bytes that a poll has read. -/
def newlines (s : Napping) : ℕ := s.world.delivered.count 10

/-- The pause after a poll that has read the log is what its newlines ask for. -/
def Paced (s t : Napping) : Prop :=
  t.world.tail.paws =
    if 0 < t.newlines then max 1 (s.world.tail.paws / t.newlines)
    else min (2 * s.world.tail.paws) pawsMax

/-- The bytes of the poll can be counted with an `int`; or there is no newline among them; or
there is one, and the pause was the longest. -/
def Counts (s t : Napping) : Prop :=
  (t.world.tail.tailBufflen : ℤ) ≤ intMax ∨ t.newlines = 0 ∨
    (t.newlines = 1 ∧ s.world.tail.paws = pawsMax)

/-- A number of polls that read the log and find no newline, with any number of polls that
do not read it. -/
inductive Idling : ℕ → Napping → Napping → Prop
  | start (s : Napping) : Idling 0 s s
  | empty {n : ℕ} {s t u : Napping} :
      Idling n s t → Ends Elsewhere tailRead t () u → u.found ≠ none → u.newlines = 0 →
        Idling (n + 1) s u
  | missed {n : ℕ} {s t u : Napping} :
      Idling n s t → Ends Elsewhere tailRead t () u → u.found = none → Idling n s u
  | moved {n : ℕ} {s t u : Napping} : Idling n s t → Elsewhere t u → Idling n s u

end Napping

open Napping

variable {w : World} {s t u : Napping} {fd n : ℕ} {c eof : ℤ}

/-! ### The naps and the count change nothing -/

theorem erases_nap {p : Unit → Prog Napping α} {q : Prog World α} (h : Erases world (p ()) q) :
    Erases world (nap >>= p) q :=
  Erases.skip (fun _ => rfl) h

theorem erases_last {g : Napping → Napping} {q : Prog World Unit}
    (hg : ∀ s, (g s).world = s.world) :
    Erases world (zoom toWorld q >>= fun _ => modify g) q := by
  intro s
  have hq := erases_zoom (l := toWorld) q s
  rw [run_bind]
  rw [show toWorld.get s = s.world from rfl] at hq
  rw [← hq]
  cases (zoom toWorld q).run s with
  | done a t => exact congrArg (Outcome.done ()) (hg t)
  | halted e t => rfl

theorem erases_tailTake :
    Erases world (Napping.tailTake fd c eof) (ExactDaemon.tailTake fd c eof) := by
  have hfill : Erases world (Napping.tailFill fd) (ExactDaemon.tailFill fd) := by
    refine (erases_zoom (l := toWorld) _).bind fun n => ?_
    refine (erases_zoom (l := toWorld) _).bind fun len => erases_ite (erases_halt _) ?_
    refine (erases_zoom (l := toWorld) _).bind fun _ => ?_
    exact Erases.skip (fun _ => rfl) (erases_zoom (l := toWorld) _)
  refine (erases_zoom (l := toWorld) _).bind fun _ => ?_
  refine (erases_zoom (l := toWorld) _).bind fun _ => ?_
  exact (erases_zoom (l := toWorld) _).bind fun buff => erases_ite (erases_halt _) hfill

theorem erases_tailRead : Erases world Napping.tailRead ExactDaemon.tailRead := by
  refine Erases.skip (fun _ => rfl) ((erases_zoom (l := toWorld) _).bind fun f => ?_)
  cases f with
  | none => exact erases_last fun _ => rfl
  | some fd =>
    refine erases_nap ((erases_zoom (l := toWorld) _).bind fun c => ?_)
    refine (erases_zoom (l := toWorld) _).bind fun r => erases_ite (erases_halt _) ?_
    refine (erases_zoom (l := toWorld) _).bind fun eof => ?_
    refine (erases_zoom (l := toWorld) _).bind fun r => erases_ite (erases_halt _) ?_
    refine (erases_zoom (l := toWorld) _).bind fun _ => ?_
    refine (erases_zoom (l := toWorld) _).bind fun late => ?_
    exact erases_ite (erases_zoom (l := toWorld) _) erases_tailTake

/-! ### What keeps the pause -/

def Paused (p : ℕ) (w : World) : Prop := w.tail.paws = p

section Keeps

variable {p : ℕ}

theorem keeps_paws_onTail {g : World → Tail → Tail}
    (hg : ∀ w, (g w w.tail).paws = w.tail.paws) :
    Keeps (Paused p) (modify fun w => w.onTail (g w)) :=
  keeps_act fun w hw => (hg w).trans hw

theorem fseek_paws (w : World) (fd : ℕ) (off : ℤ) (whence : Whence) :
    (w.fseek fd off whence).2.tail = w.tail := by
  unfold World.fseek
  cases w.fs.seek fd off whence <;> rfl

theorem keeps_paws_fseek (fd : ℕ) (off : ℤ) (whence : Whence) :
    Keeps (Paused p) (act (·.fseek fd off whence)) :=
  keeps_act fun w hw => (congrArg Tail.paws (fseek_paws w fd off whence)).trans hw

theorem openLog_paws {f : Option ℕ} {w' : World} (h : w.openLog = .ok (f, w')) :
    w'.tail.paws = w.tail.paws := by
  unfold World.openLog at h
  split at h
  · cases h
  · split at h <;> cases h <;> rfl

theorem keeps_paws_tailLeave (c : ℤ) : Keeps (Paused p) (tailLeave c) := by
  refine Keeps.bind ?_ fun _ => (keeps_paws_onTail fun _ => rfl).bind fun _ =>
    keeps_paws_onTail fun _ => rfl
  refine Keeps.bind (keeps_act fun w hw => ?_) fun _ =>
    Keeps.bind (keeps_attempt fun w f w' hw h => (openLog_paws h).trans hw) fun f => ?_
  · unfold World.closeLog
    split
    · exact hw
    · exact hw
  · cases f with
    | none => exact keeps_paws_onTail fun _ => rfl
    | some fd =>
      refine (keeps_paws_fseek fd 0 .fromEnd).bind fun _ => (keeps_read _).bind fun _ => ?_
      exact keeps_ite
        ((keeps_paws_fseek fd 0 .set).bind fun _ => keeps_ite (keeps_halt _) (keeps_pure _))
        ((keeps_paws_fseek fd c .set).bind fun _ => keeps_ite (keeps_halt _) (keeps_pure _))

theorem keeps_paws_noteGrowth (c eof : ℤ) :
    Keeps (Paused p) (modify (·.noteGrowth c eof)) := by
  refine keeps_act fun w hw => ?_
  change (w.noteGrowth c eof).tail.paws = p
  unfold World.noteGrowth
  split
  · exact hw
  · exact hw

theorem keeps_paws_isSuspicious : Keeps (Paused p) (attempt World.isSuspicious) := by
  refine keeps_attempt fun w late w' hw h => ?_
  unfold World.isSuspicious at h
  cases hn : w.conffileParamInt (cstr "suspicious") with
  | error e =>
    rw [hn] at h
    cases h
  | ok n =>
    rw [hn] at h
    cases h
    exact hw

theorem keeps_paws_terminateTail : Keeps (Paused p) (attempt World.terminateTail) := by
  refine keeps_attempt fun w _ w' hw h => ?_
  unfold World.terminateTail at h
  split at h
  · cases h
  · split at h <;> cases h
    exact hw

theorem keeps_paws_growBuff :
    Keeps (Paused p) (modify (·.onTail growBuff)) := by
  refine keeps_paws_onTail fun w => ?_
  unfold growBuff
  split <;> rfl

end Keeps

/-- The length of the buffer is this. -/
def Sized (n : ℕ) (w : World) : Prop := w.tail.tailBufflen = n

theorem keeps_sized_growBuff : Keeps (Sized n) (modify (·.onTail growBuff)) := by
  refine keeps_act fun w hw => ?_
  change (growBuff w.tail).tailBufflen = n
  unfold growBuff
  split <;> exact hw

theorem keeps_sized_terminateTail : Keeps (Sized n) (attempt World.terminateTail) := by
  refine keeps_attempt fun w _ w' hw h => ?_
  unfold World.terminateTail at h
  split at h
  · cases h
  · split at h <;> cases h
    exact hw

/-- The pause, the naps and the count are these. -/
structure Napping.At (p : ℕ) (naps : List Timeval) (found : Option ℕ) (s : Napping) : Prop where
  paws : s.world.tail.paws = p
  naps : s.naps = naps
  found : s.found = found

theorem keeps_at {p : ℕ} {l : List Timeval} {o : Option ℕ} {q : Prog World α}
    (hq : Keeps (Paused p) q) : Keeps (At p l o) (zoom toWorld q) := by
  have hw : Keeps (fun s : Napping => s.world.tail.paws = p) (zoom toWorld q) :=
    hq.zoom (l := toWorld)
  have hn : Keeps (fun s : Napping => s.naps = l ∧ s.found = o) (zoom toWorld q) :=
    keeps_zoom (fun _ _ h => h) q
  exact (hw.and hn).congr fun s => ⟨fun h => ⟨h.1, h.2.1, h.2.2⟩, fun h => ⟨h.1, h.2, h.3⟩⟩

theorem Napping.At.elsewhere {p : ℕ} {l : List Timeval} {o : Option ℕ} (h : s.At p l o)
    (hst : Elsewhere s t) : t.At p l o :=
  ⟨(congrArg Tail.paws hst.tail).trans h.paws, hst.naps.trans h.naps, hst.found.trans h.found⟩

/-! ### One poll -/

/-- The pause after a poll that finds `n` newlines. -/
def nextPaws (p n : ℕ) : ℕ := if 0 < n then max 1 (p / n) else min (2 * p) pawsMax

/-- The tail variables stay. -/
def SameTail (w w' : World) : Prop := w'.tail = w.tail

theorem upholds_onTail_twice (g g' : Tail → Tail) (w : World) :
    Upholds SameTail (fun _ => True) (do
        modify (·.onTail g)
        modify (·.onTail g') : Prog World Unit) (fun _ w' => w'.tail = g' (g w.tail)) w := by
  refine upholds_bind (upholds_act fun w₁ h₁ => ⟨trivial, upholds_act fun w₂ h₂ => ⟨trivial, ?_⟩⟩)
  have h₁' : w₁.tail = w.tail := h₁
  have h₂' : w₂.tail = g w₁.tail := h₂
  change g' w₂.tail = _
  rw [h₂', h₁']

theorem upholds_setPaws (n : ℕ) (w : World) :
    Upholds SameTail (fun _ => True)
      (if n > 0 then do
        modify (·.onTail fun t => { t with paws := t.paws / n })
        modify (·.onTail fun t => { t with paws := if t.paws = 0 then 1 else t.paws })
      else do
        modify (·.onTail fun t => { t with paws := t.paws * 2 })
        modify (·.onTail fun t =>
          { t with paws := if t.paws > pawsMax then pawsMax else t.paws }) : Prog World Unit)
      (fun _ w' => w'.tail = { w.tail with paws := nextPaws w.tail.paws n }) w := by
  unfold nextPaws
  split
  · refine (upholds_onTail_twice _ _ w).mono fun _ w' hw' => hw'.trans ?_
    congr 1
    dsimp only
    generalize w.tail.paws / n = q
    split <;> omega
  · refine (upholds_onTail_twice _ _ w).mono fun _ w' hw' => hw'.trans ?_
    congr 1
    dsimp only
    split <;> omega

theorem upholds_tailPause {n : ℕ} (w : World) (hn : counted w = n) :
    Upholds SameTail (fun _ => True) tailPause
      (fun _ w' => w'.tail = { w.tail with paws := nextPaws w.tail.paws n }) w := by
  refine upholds_bind (upholds_read fun w₁ h₁ => ⟨trivial, ?_⟩)
  have h₁' : w₁.tail = w.tail := h₁
  rw [counted, ← h₁'] at hn
  rw [hn]
  refine (upholds_setPaws n w₁).mono fun _ w' hw' => ?_
  rw [hw', h₁']

/-- `linecount` counts the newlines if the length of the buffer is an `int`, and otherwise takes
it for a negative one. -/
theorem counted_eq (h : w.tail.tailBufflen < uintRange) :
    counted w = if (w.tail.tailBufflen : ℤ) ≤ intMax then w.delivered.count 10 else 0 := by
  unfold uintRange at h
  unfold intMax
  rw [counted, linecount, World.delivered]
  split
  · have hlen : (Int.bmod w.tail.tailBufflen uintRange).toNat = w.tail.tailBufflen := by
      rw [Int.bmod_eq_of_le_mul_two (by unfold uintRange; omega) (by unfold uintRange; omega)]
      exact Int.toNat_natCast _
    rw [hlen]
  · have hlen : (Int.bmod w.tail.tailBufflen uintRange).toNat = 0 := by
      rw [Int.toNat_eq_zero, Int.bmod_eq_emod]
      unfold uintRange
      split <;> omega
    rw [hlen, List.take_zero, List.count_nil]

/-- The naps so far were proper ones. -/
def Napping.Measured (s : Napping) : Prop := ∀ tv ∈ s.naps, tv.Proper

/-- The newlines that a poll counts among those that it has read. -/
def Napping.countable (t : Napping) : ℕ :=
  if (t.world.tail.tailBufflen : ℤ) ≤ intMax then t.newlines else 0

/-- What a poll leaves that started with the pause `p` and ends with the naps `l`. -/
structure Napping.Left (p : ℕ) (l : List Timeval) (t : Napping) : Prop where
  naps : t.naps = l
  paws : (t.found = none ∧ t.world.tail.tailBufflen = 0 ∧ t.world.tail.paws = p) ∨
    (t.found ≠ none ∧ t.world.tail.paws = nextPaws p t.countable)

variable {p : ℕ} {l : List Timeval}

theorem Napping.At.left (h : s.At p l none) (h0 : Sized 0 s.world) : s.Left p l :=
  ⟨h.naps, .inl ⟨h.found, h0, h.paws⟩⟩

/-- About to read this many bytes. -/
structure Napping.Filling (p : ℕ) (l : List Timeval) (n : ℕ) (s : Napping) : Prop where
  at_ : s.At p l none
  size : Sized n s.world

theorem keeps_filling {q : Prog World α} (hp : Keeps (Paused p) q) (hn : Keeps (Sized n) q) :
    Keeps (Filling p l n) (zoom toWorld q) :=
  ((keeps_at hp).and (hn.zoom (l := toWorld))).congr fun _ =>
    ⟨fun h => ⟨h.1, h.2⟩, fun h => ⟨h.1, h.2⟩⟩

theorem Napping.Filling.elsewhere (h : s.Filling p l n) (hst : Elsewhere s t) : t.Filling p l n :=
  ⟨h.at_.elsewhere hst, (congrArg Tail.tailBufflen hst.tail).trans h.size⟩

theorem Napping.At.measured {o : Option ℕ} (hl : ∀ tv ∈ l, tv.Proper)
    (s : Napping) (h : s.At p l o) : s.Measured := by
  rw [Napping.Measured, h.naps]
  exact hl

theorem upholds_tailFill (h : s.Filling p l n) (hn : n < uintRange)
    (hl : ∀ tv ∈ l, tv.Proper) (fd : ℕ) :
    Upholds Elsewhere Measured (Napping.tailFill fd) (fun _ t => t.Left p l) s := by
  have hR : ∀ s t, Elsewhere s t → s.Filling p l n → t.Filling p l n :=
    fun _ _ hst hs => hs.elsewhere hst
  have hI : ∀ s : Napping, s.Filling p l n → s.Measured := fun s hs => hs.at_.measured hl
  refine Keeps.upholds_bind (keeps_filling ?_ ?_) hR hI h fun m s₁ h₁ => ?_
  · exact keeps_act fun w hw => hw
  · exact keeps_act fun w hw => hw
  refine Keeps.upholds_bind (keeps_filling (keeps_read _) (keeps_read _)) hR hI h₁
    fun len s₂ h₂ => ?_
  split
  · trivial
  refine Keeps.upholds_bind (keeps_filling keeps_paws_terminateTail keeps_sized_terminateTail)
    hR hI h₂ fun _ s₃ h₃ => ?_
  refine upholds_bind (upholds_modify fun s₄ h₄ => ?_)
  have h₅ := h₃.elsewhere h₄
  refine ⟨hI s₄ h₅, ?_⟩
  have hpause := upholds_zoom_beside Elsewhere (l := toWorld)
    (t := { s₄ with found := some (counted s₄.world) })
    (F := fun s => s.naps = l ∧ s.found = some (counted s₄.world))
    (fun _ _ h => h.tail) (fun s t hst hs => ⟨hst.naps.trans hs.1, hst.found.trans hs.2⟩)
    (fun _ _ hs => hs) (upholds_tailPause s₄.world rfl) ⟨h₅.at_.naps, rfl⟩
  refine (hpause.weaken ?_).mono ?_
  · rintro t ⟨-, ht, -⟩
    rw [Napping.Measured, ht]
    exact hl
  · rintro _ t ⟨htail, hnaps, hfound⟩
    have htail' : t.world.tail = { s₄.world.tail with
      paws := nextPaws s₄.world.tail.paws (counted s₄.world) } := htail
    have hfew : s₄.world.tail.tailBufflen < uintRange := by
      rw [show s₄.world.tail.tailBufflen = n from h₅.size]
      exact hn
    have hcount : t.countable = counted s₄.world := by
      rw [counted_eq hfew, Napping.countable, newlines, World.delivered, World.delivered, htail']
    refine ⟨hnaps, .inr ⟨by rw [hfound]; exact Option.some_ne_none _, ?_⟩⟩
    rw [hcount, htail', h₅.at_.paws]

theorem upholds_tailTake (h : s.At p l none)
    (hl : ∀ tv ∈ l, tv.Proper) (fd : ℕ) (c eof : ℤ) :
    Upholds Elsewhere Measured (Napping.tailTake fd c eof) (fun _ t => t.Left p l) s := by
  have hlen : ((eof - c) % uintRange).toNat < uintRange := by
    unfold uintRange
    omega
  generalize hn : ((eof - c) % uintRange).toNat = n at hlen
  have hR : ∀ s t, Elsewhere s t → s.Filling p l n → t.Filling p l n :=
    fun _ _ hst hs => hs.elsewhere hst
  have hI : ∀ s : Napping, s.Filling p l n → s.Measured := fun s hs => hs.at_.measured hl
  refine upholds_bind (upholds_modify fun s₀ h₀ => ?_)
  have h₁ : (toWorld.set s₀ (s₀.world.onTail
      ({ · with tailBufflen := ((eof - c) % uintRange).toNat }))).Filling p l n := by
    have hat := h.elsewhere h₀
    exact ⟨⟨hat.paws, hat.naps, hat.found⟩, hn⟩
  refine ⟨hI _ h₁, ?_⟩
  refine Keeps.upholds_bind (keeps_filling keeps_paws_growBuff keeps_sized_growBuff) hR hI h₁
    fun _ s₂ h₂ => ?_
  refine Keeps.upholds_bind (keeps_filling (keeps_read _) (keeps_read _)) hR hI h₂
    fun buff s₃ h₃ => ?_
  split
  · trivial
  · exact upholds_tailFill h₃ hlen hl fd

theorem proper_pause (h : p ≤ pawsMax) : (pause p).Proper := by
  unfold pawsMax at h
  have hp : Int.bmod p ulongRange = p :=
    Int.bmod_eq_of_le_mul_two (by unfold ulongRange; omega) (by unfold ulongRange; omega)
  have husec : (pause p).usec = (p : ℤ).tmod 1000000 := by
    rw [pause, hp, timeval]
  rw [Timeval.Proper, husec]
  exact ⟨Int.tmod_nonneg _ (Int.natCast_nonneg p), Int.tmod_lt_of_pos _ (by omega)⟩

/-- A nap of the pause itself. -/
theorem upholds_nap {o : Option ℕ} {k : Unit → Prog Napping β} {Q : β → Napping → Prop}
    (hp : p ≤ pawsMax) (h : s.At p l o) (hl : ∀ tv ∈ l, tv.Proper)
    (hk : ∀ t, (∀ tv ∈ l ++ [pause p], tv.Proper) → t.At p (l ++ [pause p]) o →
      t.world.tail = s.world.tail → Upholds Elsewhere Measured (k ()) Q t) :
    Upholds Elsewhere Measured (nap >>= k) Q s := by
  refine upholds_bind (upholds_modify fun s₁ hs => ?_)
  have h₁ := h.elsewhere hs
  have hl' : ∀ tv ∈ l ++ [pause p], tv.Proper := by
    intro tv htv
    rcases List.mem_append.mp htv with htv | htv
    · exact hl tv htv
    · rw [List.mem_singleton.mp htv]
      exact proper_pause hp
  have ht : ({ s₁ with naps := s₁.naps ++
      [pause s₁.world.tail.paws] } : Napping).At p (l ++ [pause p]) o :=
    ⟨h₁.paws, by rw [h₁.naps, h₁.paws], h₁.found⟩
  exact ⟨ht.measured hl', hk _ hl' ht hs.tail⟩

/-- A poll that reopens the log leaves an empty buffer. -/
theorem upholds_tailLeave (h : s.At p l none) (hl : ∀ tv ∈ l, tv.Proper) (c : ℤ) :
    Upholds Elsewhere Measured (zoom toWorld (tailLeave c))
      (fun _ t => t.At p l none ∧ Sized 0 t.world) s := by
  have hat : Upholds Elsewhere Measured (zoom toWorld (tailLeave c)) (fun _ t => t.At p l none) s :=
    (keeps_at (keeps_paws_tailLeave c)).upholds (fun _ _ hst hs => hs.elsewhere hst)
      (Napping.At.measured hl) h
  have htrue : Upholds SameTail (fun _ => True) (tailReopen c) (fun _ _ => True) s.world :=
    (keeps_true (tailReopen c)).upholds (fun _ _ _ h => h) (fun _ h => h) trivial
  have hleave : Upholds SameTail (fun _ => True) (tailLeave c) (fun _ w => Sized 0 w) s.world :=
    upholds_bind (htrue.mono fun _ w _ => upholds_bind (upholds_modify fun w₁ _ =>
      ⟨trivial, upholds_modify fun w₂ _ => ⟨trivial, rfl⟩⟩))
  have hsize := upholds_zoom_beside Elsewhere (l := toWorld) (t := s) (F := fun _ => True)
    (fun _ _ h => h.tail) (fun _ _ _ h => h) (fun _ _ h => h) hleave trivial
  exact ((hat.and hsize).weaken fun _ h => h.1).mono fun _ _ h => ⟨h.1, h.2.1⟩

/-- A poll under any disturbance, from a pause that is not too long. -/
theorem upholds_tailRead (hp : p ≤ pawsMax) (hs : s.world.tail.paws = p) (hm : s.Measured) :
    Upholds Elsewhere Measured Napping.tailRead (fun _ t => t.Measured ∧
      ∃ l, t.Left p l) s := by
  have hR : ∀ {l : List Timeval} s t, Elsewhere s t → s.At p l none → t.At p l none :=
    fun _ _ hst hs => hs.elsewhere hst
  refine upholds_bind (upholds_modify fun s₁ h₁ => ?_)
  have hl : ∀ tv ∈ s.naps, tv.Proper := hm
  have hI := fun {l : List Timeval} hl => Napping.At.measured (p := p) (l := l) (o := none) hl
  have hat : ({ s₁ with found := none } : Napping).At p s.naps none :=
    ⟨(congrArg Tail.paws h₁.tail).trans hs, h₁.naps, rfl⟩
  refine ⟨hI hl _ hat, ?_⟩
  refine Keeps.upholds_bind (keeps_at (keeps_read _)) hR (hI hl) hat fun f s₂ h₂ => ?_
  have hleft : ∀ {l : List Timeval}, (∀ tv ∈ l, tv.Proper) → ∀ t : Napping, t.Left p l →
      t.Measured ∧ ∃ l, t.Left p l := by
    intro l hl t ht
    refine ⟨?_, _, ht⟩
    rw [Measured, ht.naps]
    exact hl
  cases f with
  | none =>
    refine upholds_bind ((upholds_tailLeave h₂ hl 0).mono fun _ s₃ h₃ => ?_)
    refine upholds_nap (k := fun _ => pure ()) hp h₃.1 hl fun t hl' ht htail => ?_
    exact hleft hl' t (ht.left ((congrArg Tail.tailBufflen htail).trans h₃.2))
  | some fd =>
    refine upholds_nap hp h₂ hl fun s₃ hl' h₃ _ => ?_
    have hI' := hI hl'
    refine Keeps.upholds_bind (keeps_at (keeps_read _)) hR hI' h₃ fun c s₄ h₄ => ?_
    refine Keeps.upholds_bind (keeps_at (keeps_paws_fseek _ _ _)) hR hI' h₄ fun r s₅ h₅ => ?_
    split
    · trivial
    refine Keeps.upholds_bind (keeps_at (keeps_read _)) hR hI' h₅ fun eof s₆ h₆ => ?_
    refine Keeps.upholds_bind (keeps_at (keeps_paws_fseek _ _ _)) hR hI' h₆ fun r s₇ h₇ => ?_
    split
    · trivial
    refine Keeps.upholds_bind (keeps_at (keeps_paws_noteGrowth _ _)) hR hI' h₇ fun _ s₈ h₈ => ?_
    refine Keeps.upholds_bind (keeps_at keeps_paws_isSuspicious) hR hI' h₈ fun late s₉ h₉ => ?_
    split
    · exact (upholds_tailLeave h₉ hl' c).mono fun _ t ht => hleft hl' t (ht.1.left ht.2)
    · exact (upholds_tailTake h₉ hl' fd c eof).mono fun _ t ht => hleft hl' t ht

theorem upholds_tailOpen (w : World) :
    Upholds SameTail (fun _ => True) tailOpen (fun _ => Paused pawsMax) w := by
  have hsame : ∀ w w' : World, SameTail w w' → Paused pawsMax w → Paused pawsMax w' :=
    fun _ _ h hw => (congrArg Tail.paws h).trans hw
  refine upholds_bind (upholds_attempt (fun _ f w₁ _ _ => ⟨trivial, ?_⟩) fun _ _ _ _ => trivial)
  refine upholds_bind (upholds_modify fun w₂ _ => ⟨trivial, ?_⟩)
  refine upholds_bind (upholds_modify fun w₃ _ => ⟨trivial, ?_⟩)
  have hpaws : Paused pawsMax (w₃.onTail ({ · with paws := pawsMax })) := rfl
  cases f with
  | none => exact hpaws
  | some fd =>
    have hk : Keeps (Paused pawsMax) (do
        let _ ← act (·.fseek fd 0 .fromEnd)
        modify (·.onTail ({ · with tailBuff := some (List.replicate 1024 0) }))
        pure true : Prog World Bool) :=
      (keeps_paws_fseek fd 0 .fromEnd).bind fun _ =>
        (keeps_paws_onTail fun _ => rfl).bind fun _ => keeps_pure _
    exact hk.upholds hsame (fun _ _ => trivial) hpaws

/-! ### All polls -/

theorem nextPaws_bounds (n : ℕ) (h : 1 ≤ p ∧ p ≤ pawsMax) :
    1 ≤ nextPaws p n ∧ nextPaws p n ≤ pawsMax := by
  have hdiv := Nat.div_le_self p n
  unfold nextPaws
  generalize p / n = q at hdiv ⊢
  unfold pawsMax at h ⊢
  split <;> omega

/-- The pause is within its bounds, and so were the naps. -/
structure Napping.Settled (s : Napping) : Prop where
  measured : s.Measured
  bounds : 1 ≤ s.world.tail.paws ∧ s.world.tail.paws ≤ pawsMax

theorem Napping.Settled.elsewhere (h : s.Settled) (hst : Elsewhere s t) : t.Settled := by
  refine ⟨?_, ?_⟩
  · rw [Measured, hst.naps]
    exact h.measured
  · rw [hst.tail]
    exact h.bounds

theorem Napping.Settled.left (h : s.Settled) (he : Ends Elsewhere Napping.tailRead s () t) :
    t.Measured ∧ ∃ l, t.Left s.world.tail.paws l :=
  (upholds_tailRead h.bounds.2 rfl h.measured).ends he

theorem Napping.Settled.polled (h : s.Settled) (he : Ends Elsewhere Napping.tailRead s () t) :
    t.Settled := by
  obtain ⟨hm, l, hl⟩ := h.left he
  refine ⟨hm, ?_⟩
  rcases hl.paws with ⟨-, -, hp⟩ | ⟨-, hp⟩
  · rw [hp]
    exact h.bounds
  · rw [hp]
    exact nextPaws_bounds _ h.bounds

/-- A pause is doubled for want of newlines that were not counted; that is what one newline asks
for if the pause is the longest, and never what more of them ask for. -/
theorem min_eq_max_div_iff {m : ℕ} (h : 1 ≤ p ∧ p ≤ pawsMax) (hm : 0 < m) :
    min (2 * p) pawsMax = max 1 (p / m) ↔ m = 1 ∧ p = pawsMax := by
  unfold pawsMax at h ⊢
  rcases Nat.lt_or_ge m 2 with hlt | hge
  · obtain rfl : m = 1 := by omega
    rw [Nat.div_one]
    omega
  · have hdiv : p / m ≤ p / 2 := Nat.div_le_div_left hge (by decide)
    omega

/-- A poll that has read the log sets the pause as its newlines ask for exactly if they can be
counted. -/
theorem Napping.Left.paced_iff (h : t.Left p l) (hf : t.found ≠ none)
    (hp : 1 ≤ p ∧ p ≤ pawsMax) (hs : s.world.tail.paws = p) : Paced s t ↔ Counts s t := by
  have hpaws := (h.paws.resolve_left fun hn => hf hn.1).2
  unfold Paced Counts
  rw [hpaws, hs, Napping.countable]
  rcases le_or_gt (t.world.tail.tailBufflen : ℤ) intMax with hle | hgt
  · rw [if_pos hle]
    exact iff_of_true rfl (.inl hle)
  · rw [if_neg (not_le_of_gt hgt), nextPaws, if_neg (Nat.lt_irrefl 0)]
    rcases Nat.eq_zero_or_pos t.newlines with hzero | hpos
    · rw [hzero, if_neg (Nat.lt_irrefl 0)]
      exact iff_of_true rfl (.inr (.inl rfl))
    · rw [if_pos hpos, min_eq_max_div_iff hp hpos]
      have hne : t.newlines ≠ 0 := Nat.pos_iff_ne_zero.mp hpos
      simp [hne, hgt]

theorem Napping.Polling.settled (h : Polling s) : s.Settled := by
  induction h with
  | @opened s t b hs he =>
    have hopen := upholds_zoom_beside Elsewhere (l := toWorld) (t := s)
      (F := fun s => s.naps = []) (fun _ _ h => h.tail) (fun s t hst hs => hst.naps.trans hs)
      (fun _ _ hs => hs) (upholds_tailOpen s.world) hs
    obtain ⟨hp, hn⟩ := hopen.ends he
    have hp' : t.world.tail.paws = pawsMax := hp
    refine ⟨?_, ?_⟩
    · rw [Measured, hn]
      exact List.forall_mem_nil _
    · rw [hp']
      decide
  | polled _ he ih => exact ih.polled he
  | moved _ hst ih => exact ih.elsewhere hst

theorem Napping.Idling.paws (h : Idling n s t) (hs : s.Settled) :
    t.Settled ∧ t.world.tail.paws = min (2 ^ n * s.world.tail.paws) pawsMax := by
  induction h with
  | start s =>
    have := hs.bounds
    exact ⟨hs, by omega⟩
  | @empty n s t u _ he hf h0 ih =>
    obtain ⟨ht, hp⟩ := ih hs
    refine ⟨ht.polled he, ?_⟩
    obtain ⟨-, l, hl⟩ := ht.left he
    have hu := (hl.paws.resolve_left fun hn => hf hn.1).2
    have hcount : u.countable = 0 := by
      rw [Napping.countable, h0, ite_self]
    rw [hu, hcount, hp, nextPaws, if_neg (Nat.lt_irrefl 0), Nat.pow_succ]
    generalize 2 ^ n = m
    rw [Nat.mul_right_comm]
    omega
  | @missed n s t u _ he hf ih =>
    obtain ⟨ht, hp⟩ := ih hs
    refine ⟨ht.polled he, ?_⟩
    obtain ⟨-, l, hl⟩ := ht.left he
    rcases hl.paws with ⟨-, -, hu⟩ | ⟨hsome, -⟩
    · rw [hu, hp]
    · exact absurd hf hsome
  | moved _ hst ih =>
    obtain ⟨ht, hp⟩ := ih hs
    refine ⟨ht.elsewhere hst, ?_⟩
    rw [hst.tail, hp]

/-- Whatever the polls have found so far and whatever happens between their statements, the pause
is between 1 and `PAWS_MAX`, every nap is a proper one, a poll that does not read the log has an
empty buffer and leaves the pause alone, one that does divides it by its newlines exactly if they
can be counted, and twenty polls that read no newline bring it back to `PAWS_MAX`. -/
theorem paws_recovers (s : Napping) (hs : Polling s) :
    Erases world Napping.tailRead ExactDaemon.tailRead ∧
    (1 ≤ s.world.tail.paws ∧ s.world.tail.paws ≤ pawsMax) ∧
    (∀ t, Reaches Elsewhere Napping.tailRead s t →
      ∀ tv ∈ t.naps, 0 ≤ tv.usec ∧ tv.usec < 1000000) ∧
    (∀ t, Ends Elsewhere Napping.tailRead s () t →
      (t.found = none → t.world.tail.tailBufflen = 0 ∧ t.world.tail.paws = s.world.tail.paws) ∧
        (t.found ≠ none → (Paced s t ↔ Counts s t))) ∧
    ∀ n t, Idling n s t → 20 ≤ n → t.world.tail.paws = pawsMax := by
  refine ⟨erases_tailRead, hs.settled.bounds, fun t ht => ?_, fun t he => ?_,
    fun n t hi hn => ?_⟩
  · have hread := upholds_tailRead hs.settled.bounds.2 rfl hs.settled.measured
    refine hread.reaches (fun u v huv hu => ?_) hs.settled.measured ht
    rw [Measured, huv.naps]
    exact hu
  · obtain ⟨-, l, hl⟩ := hs.settled.left he
    refine ⟨fun hf => ?_, fun hf => hl.paced_iff hf hs.settled.bounds rfl⟩
    exact (hl.paws.resolve_right fun hn => hn.1 hf).2
  · obtain ⟨-, hp⟩ := hi.paws hs.settled
    have hpow : 2 ^ 20 ≤ 2 ^ n := Nat.pow_le_pow_right (by decide) hn
    have hmul : 2 ^ n * 1 ≤ 2 ^ n * s.world.tail.paws :=
      Nat.mul_le_mul_left _ hs.settled.bounds.1
    rw [hp, min_eq_right]
    unfold pawsMax
    omega

/-! ### A log of newlines -/

/-- The daemon about to open an empty log. -/
def emptyLog : Napping := ⟨aboutToOpen [], [], none⟩

theorem elsewhere_refl (s : Napping) : Elsewhere s s := ⟨rfl, rfl, rfl⟩

/-- Others append to the log. -/
def Napping.withAppended (bs : Bytes) (s : Napping) : Napping :=
  { s with world := s.world.others (cstr "log") (.append bs) }

theorem Napping.Polling.appended (h : Polling s) (bs : Bytes) : Polling (s.withAppended bs) :=
  h.moved ⟨rfl, rfl, rfl⟩

/-- The daemon has opened an empty log, to which others have appended. -/
theorem polling_appended (bs : Bytes) : ∃ s, Polling s ∧
    s.world.Following (cstr "log") (atoi (cstr "60")) 0 0 bs := by
  obtain ⟨w, hrun, hf, -⟩ := (unopened_aboutToOpen []).run_tailOpen
  obtain ⟨s, hs, rfl⟩ := (erases_zoom (l := toWorld) tailOpen).run_done (t := emptyLog) hrun
  have hp : Polling s := .opened rfl (ends_of_run elsewhere_refl hs)
  exact ⟨_, hp.appended bs, hf.others trivial⟩

/-- A log of 2^31 newlines: their number is taken for a negative `int`, none is counted, and the
pause is not divided. -/
theorem newlines_uncounted : ∃ s t, Polling s ∧
    s.world.disk.data 0 = List.replicate 2147483648 10 ∧
    Ends Elsewhere Napping.tailRead s () t ∧ t.newlines = 2147483648 ∧
    t.world.tail.paws ≠ max 1 (s.world.tail.paws / t.newlines) := by
  obtain ⟨s, hp, hf⟩ := polling_appended (List.replicate 2147483648 10)
  obtain ⟨w, hrun, hw, -⟩ := hf.run_tailRead fun _ => by
    rw [List.length_replicate]
    decide
  obtain ⟨t, ht, rfl⟩ := erases_tailRead.run_done hrun
  have hl : Loaded (List.replicate 2147483648 10) t.world.tail := (hw (by decide)).2
  have hlen : t.world.tail.tailBufflen = 2147483648 := hl.1.trans List.length_replicate
  have hnew : t.newlines = 2147483648 := by
    rw [newlines, hl.delivered, List.count_replicate_self]
  have he := ends_of_run elsewhere_refl ht
  refine ⟨s, t, hp, hf.data, he, hnew, ?_⟩
  obtain ⟨-, l, hleft⟩ := hp.settled.left he
  have hread : t.found ≠ none := by
    intro hn
    rcases hleft.paws with ⟨-, hzero, -⟩ | ⟨hsome, -⟩
    · omega
    · exact hsome hn
  have hpaced := hleft.paced_iff hread hp.settled.bounds rfl
  rw [Paced, Counts, hnew, hlen, if_pos (by decide)] at hpaced
  rw [ne_eq, hnew, hpaced]
  unfold intMax
  omega

/-- Polls that read the log and find no newline. -/
def Napping.idlePolls : ℕ → Prog Napping Unit
  | 0 => pure ()
  | n + 1 => do
    idlePolls n
    Napping.tailRead
    let t ← read id
    if t.found = none ∨ t.newlines ≠ 0 then halt .undefined

theorem idling_of_run (h : (idlePolls n).run s = .done () t) : Idling n s t := by
  induction n generalizing t with
  | zero =>
    obtain ⟨-, rfl⟩ := Outcome.done.inj h
    exact .start s
  | succ n ih =>
    obtain ⟨_, u, hu, h⟩ := done_of_bind h
    obtain ⟨_, v, hv, h⟩ := done_of_bind h
    rw [run_bind, run_read, Outcome.bind_done] at h
    split at h
    · cases h
    · rename_i hidle
      obtain ⟨-, rfl⟩ := Outcome.done.inj h
      rw [not_or, not_not] at hidle
      exact (ih hu).empty (ends_of_run elsewhere_refl hv) hidle.1 hidle.2

/-- Two lines arrive, and then none. -/
def busyThenIdle : Prog Napping Napping := do
  let _ ← zoom toWorld tailOpen
  modify (withAppended (cstr "a\nb\n"))
  Napping.tailRead
  let t ← read id
  idlePolls 20
  pure t

theorem run_busyThenIdle : ∃ t u, busyThenIdle.run emptyLog = .done t u ∧
    t.found ≠ none ∧ t.newlines = 2 ∧ t.world.tail.tailBufflen = 4 := by
  apply Outcome.returns_iff.mp
  decide +kernel

/-- Two lines halve the pause, and twenty polls that read nothing bring it back. -/
theorem paws_recovers_busy : ∃ s t u, Polling s ∧ Ends Elsewhere Napping.tailRead s () t ∧
    t.newlines = 2 ∧ t.world.tail.paws = max 1 (s.world.tail.paws / 2) ∧
    Idling 20 t u ∧ u.world.tail.paws = pawsMax := by
  obtain ⟨t, u, hrun, hfound, htwo, hlen⟩ := run_busyThenIdle
  obtain ⟨_, s, hopen, hrun⟩ := done_of_bind hrun
  rw [run_bind, run_modify, Outcome.bind_done] at hrun
  obtain ⟨_, t', hread, hrun⟩ := done_of_bind hrun
  rw [run_bind, run_read, Outcome.bind_done, id] at hrun
  obtain ⟨_, u', hidle, hrun⟩ := done_of_bind hrun
  obtain ⟨rfl, rfl⟩ := Outcome.done.inj hrun
  have hp : Polling s := .opened rfl (ends_of_run elsewhere_refl hopen)
  have hs := hp.appended (cstr "a\nb\n")
  have he := ends_of_run elsewhere_refl hread
  have hi := idling_of_run hidle
  have hpaced := (((paws_recovers _ hs).2.2.2.1 _ he).2 hfound).mpr <| .inl <| by
    rw [hlen]
    decide
  rw [Paced, htwo, if_pos (by decide)] at hpaced
  exact ⟨_, _, _, hs, he, htwo, hpaced, hi,
    (paws_recovers _ (hs.polled he)).2.2.2.2 20 _ hi le_rfl⟩

end ExactDaemon
