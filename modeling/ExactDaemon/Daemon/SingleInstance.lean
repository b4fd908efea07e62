import ExactDaemon.Daemon.PidFile

/-! # A single instance

While no daemon is overtaken between its look into the pid file and its own writing, the
daemon that holds the file is seen by every other one. Each step keeps this, and so at most
one daemon is in the loop.
-/

namespace ExactDaemon.PidFile

variable {path : CStr} {s t : System} {i j k pid : ℕ} {p : Phase} {o : Option Owner}
  {a : ℕ → ℕ → Bool}

/-- Only one daemon holds the file, which is empty or has its pid. Whoever has looked into
the file since sees that daemon. -/
structure Sound (path : CStr) (s : System) : Prop where
  owner : ∀ i, s.phase i ≠ .absent → s.table (s.pid i) = some (.daemon i)
  range : ∀ i, s.phase i ≠ .absent → 0 < s.pid i ∧ (s.pid i : ℤ) ≤ intMax
  one : ∀ i j, (s.phase i).isClaiming = true → (s.phase j).isClaiming = true → i = j
  writing : ∀ i k, s.phase i = .writing k → s.disk.dir path = some k ∧ s.disk.data k = []
  written : ∀ i, s.phase i = .written ∨ s.phase i = .loop →
    ∃ k, s.disk.dir path = some k ∧ s.disk.data k = decimal (s.pid i)
  looking : ∀ i j k, (s.phase i).isClaiming = true → s.phase j = .looking k →
    s.ahead j i = false → s.disk.dir path = some k
  probing : ∀ i j v, (s.phase i).isClaiming = true → s.phase j = .probing v →
    s.ahead j i = false → (s.phase i).isWriting = false ∧ v = s.pid i
  passed : ∀ i j n, (s.phase i).isClaiming = true → s.phase j = .passed n → s.ahead j i = true

/-! ### Phases -/

theorem claiming_cases (h : p.isClaiming = true) :
    (∃ k, p = .writing k) ∨ p = .written ∨ p = .loop := by
  cases p with
  | writing k => exact Or.inl ⟨k, rfl⟩
  | written => exact Or.inr (Or.inl rfl)
  | loop => exact Or.inr (Or.inr rfl)
  | _ => cases h

theorem ne_absent_of_claiming (h : p.isClaiming = true) : p ≠ .absent := by
  rintro rfl
  cases h

/-- The phase of a daemon after one of them has moved on to a phase that claims nothing. -/
theorem claiming_setPhase (hp : p.isClaiming = false)
    (hj : ((s.setPhase i p).phase j).isClaiming = true) :
    j ≠ i ∧ (s.setPhase i p).phase j = s.phase j ∧ (s.phase j).isClaiming = true := by
  have hne : j ≠ i := by
    rintro rfl
    rw [System.phase_setPhase_self, hp] at hj
    cases hj
  have hsame := s.phase_setPhase_of_ne p hne
  rw [hsame] at hj
  exact ⟨hne, hsame, hj⟩

namespace Sound

/-- The holder's file has its name. -/
theorem dir (h : Sound path s) (hi : (s.phase i).isClaiming = true) :
    ∃ k, s.disk.dir path = some k := by
  rcases claiming_cases hi with ⟨k, hk⟩ | hw
  · exact ⟨k, (h.writing i k hk).1⟩
  · obtain ⟨k, hk, -⟩ := h.written i hw
    exact ⟨k, hk⟩

theorem exclusive (h : Sound path s) : Exclusive path s where
  one i j hi hj := h.one i j (by rw [hi]; rfl) (by rw [hj]; rfl)
  file i hi := h.written i (Or.inr hi)

/-- While nobody holds the file there is nothing to see. -/
theorem of_idle (howner : ∀ i, s.phase i ≠ .absent → s.table (s.pid i) = some (.daemon i))
    (hrange : ∀ i, s.phase i ≠ .absent → 0 < s.pid i ∧ (s.pid i : ℤ) ≤ intMax)
    (hidle : ∀ i, (s.phase i).isClaiming = false) : Sound path s where
  owner := howner
  range := hrange
  one i _ hi := absurd (hi.symm.trans (hidle i)) (by decide)
  writing i k hk := absurd (hidle i) (by rw [hk]; nofun)
  written i hi := absurd (hidle i) (by rcases hi with hi | hi <;> rw [hi] <;> decide)
  looking i _ _ hi := absurd (hi.symm.trans (hidle i)) (by decide)
  probing i _ _ hi := absurd (hi.symm.trans (hidle i)) (by decide)
  passed i _ _ hi := absurd (hi.symm.trans (hidle i)) (by decide)

/-- The history grows, or begins anew for a daemon that has not looked yet. -/
theorem withAhead (h : Sound path s)
    (ha : ∀ j i, s.ahead j i = true → a j i = true ∨ s.phase j = .started) :
    Sound path { s with ahead := a } := by
  have hfalse : ∀ {j i}, s.phase j ≠ .started → a j i = false → s.ahead j i = false := by
    intro j i hj hji
    by_contra hn
    rcases ha j i (Bool.eq_true_of_not_eq_false hn) with h' | h'
    · rw [hji] at h'
      cases h'
    · exact hj h'
  constructor
  · exact h.owner
  · exact h.range
  · exact h.one
  · exact h.writing
  · exact h.written
  · intro i j k hi hj hji
    exact h.looking i j k hi hj (hfalse (by rw [show s.phase j = _ from hj]; nofun) hji)
  · intro i j v hi hj hji
    exact h.probing i j v hi hj (hfalse (by rw [show s.phase j = _ from hj]; nofun) hji)
  · intro i j n hi hj
    rcases ha j i (h.passed i j n hi hj) with h' | h'
    · exact h'
    · rw [show s.phase j = _ from hj] at h'
      cases h'

/-- A daemon goes on to a phase in which it does not hold the file. -/
theorem setPhase (h : Sound path s) (hp : p.isClaiming = false)
    (howner : p ≠ .absent → s.table (s.pid i) = some (.daemon i) ∧
      0 < s.pid i ∧ (s.pid i : ℤ) ≤ intMax)
    (hlooking : ∀ j k, j ≠ i → (s.phase j).isClaiming = true → p = .looking k →
      s.ahead i j = false → s.disk.dir path = some k)
    (hprobing : ∀ j v, j ≠ i → (s.phase j).isClaiming = true → p = .probing v →
      s.ahead i j = false → (s.phase j).isWriting = false ∧ v = s.pid j)
    (hpassed : ∀ j n, j ≠ i → (s.phase j).isClaiming = true → p = .passed n →
      s.ahead i j = true) : Sound path (s.setPhase i p) := by
  have hself := s.phase_setPhase_self i p
  have hother : ∀ {j}, j ≠ i → (s.setPhase i p).phase j = s.phase j := s.phase_setPhase_of_ne p
  constructor
  · intro j hj
    by_cases hji : j = i
    · subst hji
      rw [hself] at hj
      exact (howner hj).1
    · rw [hother hji] at hj
      exact h.owner j hj
  · intro j hj
    by_cases hji : j = i
    · subst hji
      rw [hself] at hj
      exact (howner hj).2
    · rw [hother hji] at hj
      exact h.range j hj
  · intro j l hj hl
    exact h.one j l (claiming_setPhase hp hj).2.2 (claiming_setPhase hp hl).2.2
  · intro j k hj
    obtain ⟨-, hsame, -⟩ := claiming_setPhase (s := s) (i := i) (j := j) hp (by rw [hj]; rfl)
    exact h.writing j k (hsame ▸ hj)
  · intro j hj
    obtain ⟨-, hsame, -⟩ := claiming_setPhase (s := s) (i := i) (j := j) hp
      (by rcases hj with hj | hj <;> rw [hj] <;> rfl)
    exact h.written j (hsame ▸ hj)
  · intro j l k hj hl hahead
    obtain ⟨hne, -, hcl⟩ := claiming_setPhase hp hj
    by_cases hli : l = i
    · subst hli
      exact hlooking j k hne hcl (hself.symm.trans hl) hahead
    · exact h.looking j l k hcl (hother hli ▸ hl) hahead
  · intro j l v hj hl hahead
    obtain ⟨hne, hsame, hcl⟩ := claiming_setPhase hp hj
    rw [hsame]
    by_cases hli : l = i
    · subst hli
      exact hprobing j v hne hcl (hself.symm.trans hl) hahead
    · exact h.probing j l v hcl (hother hli ▸ hl) hahead
  · intro j l n hj hl
    obtain ⟨hne, -, hcl⟩ := claiming_setPhase hp hj
    by_cases hli : l = i
    · subst hli
      exact hpassed j n hne hcl (hself.symm.trans hl)
    · exact h.passed j l n hcl (hother hli ▸ hl)

/-- A pid changes hands that no daemon has. -/
theorem setOwner (h : Sound path s) (hpid : ∀ i, s.phase i ≠ .absent → s.pid i ≠ pid) :
    Sound path (s.setOwner pid o) :=
  { h with
    owner := fun i hi => (Function.update_of_ne (hpid i hi) _ _).trans (h.owner i hi) }

/-- The pid of a daemon that does not exist is of no importance. -/
theorem withPid (h : Sound path s) (hi : s.phase i = .absent) (pid : ℕ) :
    Sound path { s with pid := Function.update s.pid i pid } := by
  have hne : ∀ {j}, s.phase j ≠ .absent → j ≠ i := fun hj hji => hj (hji ▸ hi)
  have hsame : ∀ {j}, s.phase j ≠ .absent → Function.update s.pid i pid j = s.pid j := fun hj =>
    Function.update_of_ne (hne hj) _ _
  refine { h with owner := ?_, range := ?_, written := ?_, probing := ?_ }
  · intro j hj
    exact (congrArg s.table (hsame hj)).trans (h.owner j hj)
  · intro j hj
    change 0 < Function.update s.pid i pid j ∧ (Function.update s.pid i pid j : ℤ) ≤ intMax
    rw [hsame hj]
    exact h.range j hj
  · intro j hj
    have hne : s.phase j ≠ .absent := by
      rcases hj with hj | hj <;> rw [show s.phase j = _ from hj] <;> nofun
    obtain ⟨k, hk, hdata⟩ := h.written j hj
    exact ⟨k, hk, hdata.trans (congrArg decimal (hsame hne).symm)⟩
  · intro j l v hj hl hahead
    obtain ⟨hw, hv⟩ := h.probing j l v hj hl hahead
    exact ⟨hw, hv.trans (congrArg Nat.cast (hsame (ne_absent_of_claiming hj)).symm)⟩

/-! ### The steps -/

/-- A pid that is given away belongs to no daemon. -/
theorem pid_ne (h : Sound path s) (hpid : s.table pid ≠ some (.daemon i))
    (hi : s.phase i ≠ .absent) : s.pid i ≠ pid := fun he => hpid (he ▸ h.owner i hi)

theorem pid_ne_pid (h : Sound path s) (hi : s.phase i ≠ .absent) (hj : s.phase j ≠ .absent)
    (hji : j ≠ i) : s.pid j ≠ s.pid i := by
  refine h.pid_ne ?_ hj
  rw [h.owner i hi]
  exact fun he => hji (Owner.daemon.inj (Option.some.inj he)).symm

/-- A daemon's process ends, or goes on as another one. -/
theorem release (h : Sound path s) (hi : s.phase i ≠ .absent) (o : Option Owner) :
    Sound path ((s.setPhase i .absent).setOwner (s.pid i) o) := by
  have habsent := h.setPhase (i := i) (p := .absent) rfl (fun hn => absurd rfl hn) (by simp)
    (by simp) (by simp)
  refine habsent.setOwner fun j hj => ?_
  have hji : j ≠ i := by
    rintro rfl
    exact hj (s.phase_setPhase_self _ _)
  rw [s.phase_setPhase_of_ne _ hji] at hj
  exact h.pid_ne_pid hi hj hji

/-- A new process is a daemon from now on. -/
theorem adopt (h : Sound path s) (hi : s.phase i = .absent) (hfresh : s.Fresh pid)
    (hp : p.isClaiming = false) (hlooking : ∀ k, p ≠ .looking k)
    (hprobing : ∀ v, p ≠ .probing v)
    (hpassed : ∀ j n, (s.phase j).isClaiming = true → p = .passed n → s.ahead i j = true) :
    Sound path { (s.setPhase i p).setOwner pid (some (.daemon i)) with
      pid := Function.update s.pid i pid } := by
  have hpid : ∀ j, s.phase j ≠ .absent → s.pid j ≠ pid := fun j hj =>
    h.pid_ne (by rw [hfresh.2.2]; nofun) hj
  have h₁ := (h.setOwner (o := some (.daemon i)) hpid).withPid hi pid
  refine h₁.setPhase hp (fun _ => ?_) (fun j k _ _ hk => absurd hk (hlooking k))
    (fun j v _ _ hv => absurd hv (hprobing v)) fun j n _ hj hn => hpassed j n hj hn
  change Function.update s.table pid _ (Function.update s.pid i pid i) = _ ∧
    0 < Function.update s.pid i pid i ∧ (Function.update s.pid i pid i : ℤ) ≤ intMax
  rw [Function.update_self, Function.update_self]
  exact ⟨rfl, hfresh.1, hfresh.2.1⟩

theorem start (h : Sound path s) (hi : s.phase i = .absent) (hfresh : s.Fresh pid) :
    Sound path (s.start i pid) :=
  h.adopt hi hfresh rfl nofun nofun nofun

theorem finish (h : Sound path s) (hi : s.phase i ≠ .absent) : Sound path (s.finish i) :=
  h.release hi none

theorem look (h : Sound path s) (hi : s.phase i = .started) : Sound path (s.look path i) := by
  have howner : s.phase i ≠ .absent := by
    rw [hi]
    nofun
  have h₁ : Sound path { s with ahead := Function.update s.ahead i fun _ => false } := by
    refine h.withAhead fun j l hjl => ?_
    by_cases hji : j = i
    · exact Or.inr (hji ▸ hi)
    · rw [Function.update_of_ne hji]
      exact Or.inl hjl
  have h₂ := fun p hp => h₁.setPhase (i := i) (p := p) hp fun _ =>
    ⟨h.owner i howner, h.range i howner⟩
  unfold System.look
  cases hd : s.disk.dir path with
  | none =>
    refine h₂ (.passed 0) rfl nofun nofun fun j n _ hj _ => ?_
    obtain ⟨k, hk⟩ := h.dir hj
    rw [hd] at hk
    cases hk
  | some k =>
    refine h₂ (.looking k) rfl (fun j l _ _ hl _ => ?_) nofun nofun
    rw [← Phase.looking.inj hl]
    exact hd

theorem scan (h : Sound path s) (hi : s.phase i = .looking k) : Sound path (s.scan i k) := by
  have howner : s.phase i ≠ .absent := by
    rw [hi]
    nofun
  have h₁ : Sound path { s with
      ahead := Function.update s.ahead i fun j => s.ahead i j || (s.phase j).isWriting } := by
    refine h.withAhead fun j l hjl => ?_
    by_cases hji : j = i
    · subst hji
      rw [Function.update_self, hjl]
      exact Or.inl rfl
    · rw [Function.update_of_ne hji]
      exact Or.inl hjl
  refine h₁.setPhase rfl (fun _ => ⟨h.owner i howner, h.range i howner⟩) nofun
    (fun j v _ hj hv hahead => ?_) nofun
  simp only [Function.update_self, Bool.or_eq_false_iff] at hahead
  obtain ⟨hahead, hw⟩ := hahead
  -- the holder has written its pid, and the file that was opened is still the one
  have hdir := h.looking j i k hj hi hahead
  have hwritten : s.phase j = .written ∨ s.phase j = .loop := by
    refine (claiming_cases hj).resolve_left ?_
    rintro ⟨l, hl⟩
    rw [show s.phase j = _ from hl] at hw
    cases hw
  obtain ⟨l, hl, hdata⟩ := h.written j hwritten
  obtain rfl := Option.some.inj (hl.symm.trans hdir)
  refine ⟨hw, ?_⟩
  rw [← Phase.probing.inj hv, show s.disk.data l = _ from hdata,
    atoi_decimal (h.range j (ne_absent_of_claiming hj)).2]

theorem probe {v : ℤ} (h : Sound path s) (hi : s.phase i = .probing v) :
    Sound path (s.probe i v) := by
  have howner : s.phase i ≠ .absent := by
    rw [hi]
    nofun
  unfold System.probe
  split
  · exact h.finish howner
  · rename_i hrefused
    refine h.setPhase rfl (fun _ => ⟨h.owner i howner, h.range i howner⟩) nofun nofun
      fun j n _ hj _ => ?_
    -- a holder that was seen would have answered the signal
    by_contra hahead
    rw [Bool.not_eq_true] at hahead
    obtain ⟨-, rfl⟩ := h.probing j i v hj hi hahead
    have hj' := ne_absent_of_claiming hj
    obtain ⟨hpos, -⟩ := h.range j hj'
    refine hrefused ⟨by omega, ?_⟩
    rw [System.kill, Int.toNat_natCast, h.owner j hj']
    simpa using hpos

theorem fork {f : ℕ} (h : Sound path s) (hi : s.phase i = .passed f) (hfresh : s.Fresh pid) :
    Sound path (s.fork i f pid) := by
  have howner : s.phase i ≠ .absent := by
    rw [hi]
    nofun
  have hne : pid ≠ s.pid i := by
    rintro rfl
    have ho := h.owner i howner
    rw [hfresh.2.2] at ho
    cases ho
  have h₁ := h.release howner (some .other)
  have hfresh' : ((s.setPhase i .absent).setOwner (s.pid i) (some .other)).Fresh pid :=
    ⟨hfresh.1, hfresh.2.1, (Function.update_of_ne hne _ _).trans hfresh.2.2⟩
  have h₂ := h₁.adopt (p := .passed (f + 1)) (s.phase_setPhase_self i _) hfresh' rfl nofun nofun
    fun j n hj _ => h.passed j i f (claiming_setPhase rfl hj).2.2 hi
  have hphase : Function.update (Function.update s.phase i .absent) i (.passed (f + 1)) =
      Function.update s.phase i (.passed (f + 1)) := Function.update_idem ..
  unfold System.fork
  simp only [System.setPhase, System.setOwner, hphase] at h₂ ⊢
  exact h₂

/-- The daemon that opens the file for writing is the only one to hold it. -/
theorem create {f : ℕ} (h : Sound path s) (hi : s.phase i = .passed f)
    (hun : ∀ j, s.ahead i j = true → (s.phase j).isClaiming = false) :
    Sound path (s.create path i) := by
  have howner : s.phase i ≠ .absent := by
    rw [hi]
    nofun
  have hidle : ∀ j, (s.phase j).isClaiming = false := by
    intro j
    by_contra hj
    rw [Bool.not_eq_false] at hj
    have hno := hun j (h.passed j i f hj hi)
    rw [hj] at hno
    cases hno
  have hself : (s.create path i).phase i = .writing (s.target path) := Function.update_self _ _ _
  have hother : ∀ {j}, j ≠ i → (s.create path i).phase j = s.phase j := fun hj =>
    Function.update_of_ne hj _ _
  have honly : ∀ {j}, ((s.create path i).phase j).isClaiming = true → j = i := by
    intro j hj
    by_contra hji
    rw [hother hji, hidle j] at hj
    cases hj
  have hahead : ∀ {j}, (s.create path i).ahead j i = true := fun {j} => by
    simp [System.create]
  constructor
  · intro j hj
    by_cases hji : j = i
    · exact hji ▸ h.owner i howner
    · exact h.owner j (hother hji ▸ hj)
  · intro j hj
    by_cases hji : j = i
    · exact hji ▸ h.range i howner
    · exact h.range j (hother hji ▸ hj)
  · intro j l hj hl
    exact (honly hj).trans (honly hl).symm
  · intro j k hj
    obtain rfl := honly (j := j) (by rw [hj]; rfl)
    obtain rfl := Phase.writing.inj (hself.symm.trans hj)
    exact ⟨Function.update_self _ _ _, Function.update_self _ _ _⟩
  · intro j hj
    obtain rfl := honly (j := j) (by rcases hj with hj | hj <;> rw [hj] <;> rfl)
    rw [hself] at hj
    rcases hj with hj | hj <;> cases hj
  · intro j l k hj _ hl
    obtain rfl := honly hj
    rw [hahead] at hl
    cases hl
  · intro j l v hj _ hl
    obtain rfl := honly hj
    rw [hahead] at hl
    cases hl
  · intro j l n hj _
    obtain rfl := honly hj
    exact hahead

/-- The daemon that holds the file has its pid in it. -/
theorem hold {d : ℕ → Bytes} (h : Sound path s) (hi : (s.phase i).isClaiming = true)
    (hp : p = .written ∨ p = .loop) (hk : s.disk.dir path = some k)
    (hd : d k = decimal (s.pid i)) :
    Sound path { s.setPhase i p with disk := { s.disk with data := d } } := by
  have howner := ne_absent_of_claiming hi
  have hself := s.phase_setPhase_self i p
  have hother : ∀ {j}, j ≠ i → (s.setPhase i p).phase j = s.phase j := s.phase_setPhase_of_ne p
  have honly : ∀ {j}, ((s.setPhase i p).phase j).isClaiming = true → j = i := by
    intro j hj
    by_contra hji
    rw [hother hji] at hj
    exact hji (h.one j i hj hi)
  have hnot : ∀ {l q}, (s.setPhase i p).phase l = q → q ≠ .written → q ≠ .loop → l ≠ i := by
    rintro l q hl hq hq' rfl
    rw [hself] at hl
    rcases hp with rfl | rfl
    · exact hq hl.symm
    · exact hq' hl.symm
  constructor
  · intro j hj
    by_cases hji : j = i
    · exact hji ▸ h.owner i howner
    · exact h.owner j (hother hji ▸ hj)
  · intro j hj
    by_cases hji : j = i
    · exact hji ▸ h.range i howner
    · exact h.range j (hother hji ▸ hj)
  · intro j l hj hl
    exact (honly hj).trans (honly hl).symm
  · intro j l hj
    exact absurd (honly (j := j) (by rw [show (s.setPhase i p).phase j = _ from hj]; rfl))
      (hnot hj nofun nofun)
  · intro j hj
    obtain rfl := honly (j := j) (by
      rcases hj with hj | hj <;> rw [show (s.setPhase i p).phase j = _ from hj] <;> rfl)
    exact ⟨k, hk, hd⟩
  · intro j l m hj hl hahead
    obtain rfl := honly hj
    exact h.looking j l m hi (hother (hnot hl nofun nofun) ▸ hl) hahead
  · intro j l v hj hl hahead
    obtain rfl := honly hj
    refine ⟨?_, (h.probing j l v hi (hother (hnot hl nofun nofun) ▸ hl) hahead).2⟩
    rw [show (s.setPhase j p).phase j = p from hself]
    rcases hp with rfl | rfl <;> rfl
  · intro j l n hj hl
    obtain rfl := honly hj
    exact h.passed j l n hi (hother (hnot hl nofun nofun) ▸ hl)

theorem print (h : Sound path s) (hi : s.phase i = .writing k) : Sound path (s.print i k) := by
  obtain ⟨hk, hdata⟩ := h.writing i k hi
  refine h.hold (by rw [hi]; rfl) (Or.inl rfl) hk ?_
  rw [Function.update_self, hdata]
  exact overwrite_end [] _

theorem enter (h : Sound path s) (hi : s.phase i = .written) : Sound path (s.setPhase i .loop) := by
  obtain ⟨k, hk, hdata⟩ := h.written i (Or.inl hi)
  exact h.hold (by rw [hi]; rfl) (Or.inr rfl) hk hdata

/-- The daemon that removes the file is the one that holds it. -/
theorem unlink (h : Sound path s) (hi : s.phase i = .written ∨ s.phase i = .loop) :
    Sound path (s.unlink path i) := by
  have hcl : (s.phase i).isClaiming = true := by
    rcases hi with hi | hi <;> rw [hi] <;> rfl
  have howner := ne_absent_of_claiming hcl
  refine of_idle (fun j hj => ?_) (fun j hj => ?_) fun j => ?_
  · by_cases hji : j = i
    · exact hji ▸ h.owner i howner
    · exact h.owner j (s.phase_setPhase_of_ne .exiting hji ▸ hj)
  · by_cases hji : j = i
    · exact hji ▸ h.range i howner
    · exact h.range j (s.phase_setPhase_of_ne .exiting hji ▸ hj)
  · by_contra hj
    rw [Bool.not_eq_false] at hj
    obtain ⟨hji, -, hj⟩ := claiming_setPhase (s := s) (i := i) (p := .exiting) rfl hj
    exact hji (h.one j i hj hcl)

theorem step {e : Event} (h : Sound path s) (he : Unhurried s e)
    (hs : PidFile.step path s e = some t) : Sound path t := by
  unfold PidFile.step at hs
  cases e with
  | start i pid =>
    obtain ⟨⟨hi, hfresh⟩, hs⟩ := Option.ite_none_right_eq_some.mp hs
    cases hs
    exact h.start hi hfresh
  | look i =>
    obtain ⟨hi, hs⟩ := Option.ite_none_right_eq_some.mp hs
    cases hs
    exact h.look hi
  | scan i =>
    dsimp only at hs
    split at hs
    · rename_i k hi
      cases hs
      exact h.scan hi
    · cases hs
  | probe i =>
    dsimp only at hs
    split at hs
    · rename_i v hi
      cases hs
      exact h.probe hi
    · cases hs
  | fork i pid =>
    dsimp only at hs
    split at hs
    · rename_i f hi
      obtain ⟨⟨-, hfresh⟩, hs⟩ := Option.ite_none_right_eq_some.mp hs
      cases hs
      exact h.fork hi hfresh
    · cases hs
  | create i =>
    dsimp only at hs
    split at hs
    · rename_i f hi
      obtain ⟨-, hs⟩ := Option.ite_none_right_eq_some.mp hs
      cases hs
      exact h.create hi he
    · cases hs
  | print i =>
    dsimp only at hs
    split at hs
    · rename_i k hi
      cases hs
      exact h.print hi
    · cases hs
  | enter i =>
    obtain ⟨hi, hs⟩ := Option.ite_none_right_eq_some.mp hs
    cases hs
    exact h.enter hi
  | unlink i =>
    obtain ⟨hi, hs⟩ := Option.ite_none_right_eq_some.mp hs
    cases hs
    exact h.unlink hi
  | finish i =>
    obtain ⟨hi, hs⟩ := Option.ite_none_right_eq_some.mp hs
    cases hs
    exact h.finish hi
  | spawn pid =>
    obtain ⟨hfresh, hs⟩ := Option.ite_none_right_eq_some.mp hs
    cases hs
    exact h.setOwner fun i hi => h.pid_ne (by rw [hfresh.2.2]; nofun) hi
  | reap pid =>
    obtain ⟨hother, hs⟩ := Option.ite_none_right_eq_some.mp hs
    cases hs
    exact h.setOwner fun i hi => h.pid_ne (by rw [hother]; nofun) hi

end Sound

theorem sound_boot (path : CStr) : Sound path .boot :=
  .of_idle (fun _ h => absurd rfl h) (fun _ h => absurd rfl h) fun _ => rfl

/-- In every run in which no daemon opens the file for writing while another one holds it
that it could not see, every state has at most one daemon in the loop, and its pid in the
file. -/
theorem exclusive_of_unhurried {es : List Event} (h : Run (step path) Unhurried .boot es s) :
    Exclusive path s :=
  (h.invariant (I := Sound path) (fun _ _ _ he hs hI => hI.step he hs) (sound_boot path)).exclusive

/-- A daemon runs in the foreground, and a second one finds it and gives up. -/
def refusal : List Event :=
  [.start 0 100, .look 0, .create 0, .print 0, .enter 0, .start 1 110, .look 1, .scan 1, .probe 1]

theorem exclusive_of_unhurried_refusal :
    ∃ s, exec (step (cstr "exact.pid")) .boot refusal = some s ∧ s.phase 0 = .loop ∧
      s.phase 1 = .absent ∧ Exclusive (cstr "exact.pid") s := by
  refine ⟨_, rfl, rfl, rfl, exclusive_of_unhurried
    (show Run (step (cstr "exact.pid")) Unhurried .boot refusal _ from ?_)⟩
  refine .cons trivial rfl (.cons trivial rfl (.cons ?_ rfl (.cons trivial rfl (.cons trivial rfl
    (.cons trivial rfl (.cons trivial rfl (.cons trivial rfl (.cons trivial rfl .nil))))))))
  exact fun _ h => absurd h Bool.false_ne_true

/-- Two daemons look into the file before either has written it. -/
theorem two_in_the_loop :
    ∃ s, Runs (step (cstr "exact.pid")) .boot
        [.start 0 100, .start 1 101, .look 0, .look 1, .create 0, .print 0, .enter 0, .create 1,
          .print 1, .enter 1] s ∧ ¬ Exclusive (cstr "exact.pid") s := by
  refine ⟨_, runs_iff.mpr rfl, fun h => ?_⟩
  exact absurd (h.one 0 1 rfl rfl) (by decide)

end ExactDaemon.PidFile
