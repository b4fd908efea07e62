import Mathlib.Data.List.Chain
import ExactDaemon.Lib.Prog

/-! # Reasoning under interruption

`rely R A I p Q s` says that `p`, started in `s`, returns with `Q` although the
environment makes an `R`-move before each statement. `Barred J p` says that once `J`
holds, `p` can no longer return.
-/

namespace ExactDaemon.Prog

variable {σ α β : Type}

/-! ### Insertion at the first boundary -/

section WeaveRun

variable {q : Prog σ Unit} {qs : List (Prog σ Unit)} {g : α → Prog σ β} {s : σ}

theorem run_weave_step {f : σ → σ} {k : σ → Prog σ β} :
    (weave (q :: qs) (step f k)).run s =
      (q.run s).bind fun _ s' => (weave qs (k s')).run (f s') :=
  run_bind q (fun _ => step f fun s => weave qs (k s)) s

theorem run_weave_read_bind {f : σ → α} :
    (weave (q :: qs) (read f >>= g)).run s =
      (q.run s).bind fun _ s' => (weave qs (g (f s'))).run s' :=
  run_weave_step

theorem run_weave_modify_bind {f : σ → σ} {g : Unit → Prog σ β} :
    (weave (q :: qs) (modify f >>= g)).run s =
      (q.run s).bind fun _ s' => (weave qs (g ())).run (f s') :=
  run_weave_step

theorem run_weave_attempt_ok {f : σ → Except Halt (α × σ)} {s' s'' : σ} {a : α}
    (hq : q.run s = .done () s') (hf : f s' = .ok (a, s'')) :
    (weave (q :: qs) (attempt f >>= g)).run s = (weave qs (g a)).run s'' := by
  refine run_weave_step.trans ?_
  simp only [hq, Outcome.bind_done, hf]
  rfl

@[simp] theorem weave_nil (p : Prog σ α) : weave [] p = p := by cases p <;> rfl

@[simp] theorem weave_ret (qs : List (Prog σ Unit)) (a : α) :
    weave qs (ret a) = ret a := by cases qs <;> rfl

@[simp] theorem weave_halt (qs : List (Prog σ Unit)) (h : Halt) :
    weave qs (halt h : Prog σ α) = halt h := by cases qs <;> rfl

theorem weave_singleton_step {f : σ → σ} {k : σ → Prog σ α} :
    weave [q] (step f k) = q >>= fun _ => step f k := by
  change (q.bind fun _ => step f fun s => weave [] (k s)) = q.bind fun _ => step f k
  simp only [weave_nil]

theorem run_weave_singleton_step {f : σ → σ} {k : σ → Prog σ α} :
    (weave [q] (step f k)).run s = (q.run s).bind fun _ s' => (step f k).run s' := by
  rw [weave_singleton_step, run_bind]

/-- What follows the last insertion runs as it would alone. -/
theorem run_weave_singleton_attempt_bind {f : σ → Except Halt (α × σ)} :
    (weave [q] (attempt f >>= g)).run s = (q.run s).bind fun _ s' => (attempt f >>= g).run s' :=
  run_weave_singleton_step

theorem run_weave_singleton_modify_bind {f : σ → σ} {g : Unit → Prog σ β} :
    (weave [q] (modify f >>= g)).run s = (q.run s).bind fun _ s' => (modify f >>= g).run s' :=
  run_weave_singleton_step

end WeaveRun

/-- Boundaries at which nothing is inserted leave the program as it is. -/
theorem weave_idle {p : Prog σ α} {qs : List (Prog σ Unit)} {s : σ}
    (h : ∀ i < p.steps s, ∀ q, qs[i]? = some q → q = ret ()) :
    (weave qs p).run s = p.run s ∧ (weave qs p).trace s = p.trace s := by
  induction p generalizing qs s with
  | ret a => simp
  | halt e => simp
  | step f k ih =>
    cases qs with
    | nil => simp
    | cons q qs =>
      obtain rfl : q = ret () := h 0 (by simp [steps]) q rfl
      have hk := @ih s qs (f s) fun i hi q' hq' =>
        h (i + 1) (by simpa [steps] using hi) q' (by simpa using hq')
      exact ⟨hk.1, congrArg (s :: ·) hk.2⟩

theorem steps_attempt_bind {f : σ → Except Halt (α × σ)} {g : α → Prog σ β} {s s' : σ} {a : α}
    (hf : f s = .ok (a, s')) : (attempt f >>= g).steps s = (g a).steps s' + 1 := by
  change Prog.steps (Prog.bind _ _) _ + 1 = _
  simp only [hf]
  rfl

theorem trace_attempt_bind {f : σ → Except Halt (α × σ)} {g : α → Prog σ β} {s s' : σ} {a : α}
    (hf : f s = .ok (a, s')) : (attempt f >>= g).trace s = s :: (g a).trace s' := by
  change s :: Prog.trace (Prog.bind _ _) _ = _
  simp only [hf]
  rfl

theorem mem_trace_bind {p : Prog σ α} {g : α → Prog σ β} {s t : σ} :
    t ∈ (p >>= g).trace s ↔
      t ∈ p.trace s ∨ ∃ a s', p.run s = .done a s' ∧ t ∈ (g a).trace s' := by
  change t ∈ (p.bind g).trace s ↔ _
  induction p generalizing s with
  | ret a =>
    have hs : s ∈ (g a).trace s := by cases g a <;> simp [trace]
    simp only [bind, trace, List.mem_singleton, run, Outcome.done.injEq]
    constructor
    · intro h; exact Or.inr ⟨a, s, ⟨rfl, rfl⟩, h⟩
    · rintro (rfl | ⟨_, _, ⟨rfl, rfl⟩, h⟩)
      · exact hs
      · exact h
  | halt e => simp [bind, trace, run]
  | step f k ih =>
    simp only [bind, trace, List.mem_cons, run, ih s]
    exact or_assoc.symm

/-! ### Total correctness under interference -/

/-- The program returns with `Q` whatever `R`-moves precede its statements, provided
that its steps meet `A`. Every state that it brings about satisfies `I`. -/
def rely (R A : σ → σ → Prop) (I : σ → Prop) : Prog σ α → (α → σ → Prop) → σ → Prop
  | ret a, Q, s => Q a s
  | halt _, _, _ => False
  | step f k, Q, s => ∀ s', R s s' → A s' (f s') → I (f s') ∧ rely R A I (k s') Q (f s')

section Rely

variable {R A : σ → σ → Prop} {I : σ → Prop} {p : Prog σ α} {g : α → Prog σ β}
  {Q : α → σ → Prop} {s : σ}

@[simp] theorem rely_pure (a : α) : rely R A I (pure a) Q s ↔ Q a s := Iff.rfl

theorem rely_bind {Q : β → σ → Prop} :
    rely R A I (p >>= g) Q s ↔ rely R A I p (fun a s' => rely R A I (g a) Q s') s := by
  change rely R A I (p.bind g) Q s ↔ _
  induction p generalizing s with
  | ret a => rfl
  | halt h => rfl
  | step f k ih =>
    exact forall₃_congr fun s' _ _ => and_congr_right fun _ => ih s'

theorem rely_act {f : σ → α × σ} :
    rely R A I (act f) Q s ↔
      ∀ s', R s s' → A s' (f s').2 → I (f s').2 ∧ Q (f s').1 (f s').2 :=
  Iff.rfl

theorem rely_read {f : σ → α} :
    rely R A I (read f) Q s ↔ ∀ s', R s s' → A s' s' → I s' ∧ Q (f s') s' :=
  Iff.rfl

theorem rely_modify {f : σ → σ} {Q : Unit → σ → Prop} :
    rely R A I (modify f) Q s ↔ ∀ s', R s s' → A s' (f s') → I (f s') ∧ Q () (f s') :=
  Iff.rfl

theorem rely_ite {c : Prop} [Decidable c] {p' : Prog σ α} (h : c → rely R A I p Q s)
    (h' : ¬ c → rely R A I p' Q s) : rely R A I (if c then p else p') Q s := by
  split
  · exact h ‹_›
  · exact h' ‹_›

theorem rely_attempt {f : σ → Except Halt (α × σ)}
    (h : ∀ s', R s s' → ∃ a s'', f s' = .ok (a, s'') ∧ (A s' s'' → I s'' ∧ Q a s'')) :
    rely R A I (attempt f) Q s := by
  intro s' hs
  obtain ⟨a, s'', hf, hQ⟩ := h s' hs
  simp only [hf]
  exact hQ

theorem rely.mono {Q' : α → σ → Prop} (h : rely R A I p Q s)
    (hQ : ∀ a s', Q a s' → Q' a s') : rely R A I p Q' s := by
  induction p generalizing s with
  | ret a => exact hQ _ _ h
  | halt e => exact h
  | step f k ih => exact fun s' hs ha => ⟨(h s' hs ha).1, ih s' (h s' hs ha).2⟩

theorem head?_trace (p : Prog σ α) (s : σ) : (p.trace s).head? = some s := by
  cases p <;> rfl

theorem isChain_trace_step {f : σ → σ} {k : σ → Prog σ α} :
    ((step f k).trace s).IsChain A ↔ A s (f s) ∧ ((k s).trace (f s)).IsChain A := by
  simp [trace, List.isChain_cons, head?_trace]

/-- Every state but the first is one that a step has led to. -/
theorem of_isChain_trace {B : σ → Prop} {f : σ → σ} {k : σ → Prog σ α}
    (h : ((step f k).trace s).IsChain fun _ t => B t) : ∀ t ∈ (k s).trace (f s), B t := by
  change (s :: (k s).trace (f s)).IsChain _ at h
  generalize (k s).trace (f s) = l at h ⊢
  induction l generalizing s with
  | nil => exact List.forall_mem_nil _
  | cons t l ih =>
    obtain ⟨ht, hl⟩ := List.isChain_cons_cons.mp h
    exact List.forall_mem_cons.mpr ⟨ht, ih hl⟩

theorem isChain_trace_bind (h : ((p >>= g).trace s).IsChain A) :
    (p.trace s).IsChain A ∧
      ∀ a s', p.run s = .done a s' → ((g a).trace s').IsChain A := by
  change ((p.bind g).trace s).IsChain A at h
  induction p generalizing s with
  | ret a =>
    refine ⟨List.isChain_singleton s, ?_⟩
    rintro _ _ ⟨⟩
    exact h
  | halt e => exact ⟨List.isChain_singleton s, nofun⟩
  | step f k ih =>
    rw [bind, isChain_trace_step] at h
    exact ⟨isChain_trace_step.mpr ⟨h.1, (ih s h.2).1⟩, (ih s h.2).2⟩

theorem mem_trace_of_run {a : α} {s' : σ} (h : p.run s = .done a s') : s' ∈ p.trace s := by
  induction p generalizing s with
  | ret b =>
    obtain ⟨-, rfl⟩ := Outcome.done.inj h
    exact List.mem_singleton_self s
  | halt e => cases h
  | step f k ih => exact List.mem_cons_of_mem s (ih s h)

/-- A verified program returns under every insertion of programs that make moves the
relation allows, as long as all steps meet `A`. -/
theorem rely.run_weave {qs : List (Prog σ Unit)} (hR : ∀ s, R s s) (hI : I s)
    (hqs : ∀ q ∈ qs, ∀ s, I s → (q.trace s).IsChain A →
      ∃ s', q.run s = .done () s' ∧ R s s' ∧ ∀ t ∈ q.trace s, I t)
    (h : rely R A I p Q s) (hA : ((weave qs p).trace s).IsChain A) :
    ∃ a s', (weave qs p).run s = .done a s' ∧ Q a s' ∧ ∀ t ∈ (weave qs p).trace s, I t := by
  induction p generalizing qs s with
  | ret a => exact ⟨a, s, by simp, h, by simpa [trace] using hI⟩
  | halt e => exact h.elim
  | step f k ih =>
    cases qs with
    | nil =>
      rw [weave_nil, isChain_trace_step] at hA
      obtain ⟨hIf, hk⟩ := h s (hR s) hA.1
      obtain ⟨a, s', hr, hQ, ht⟩ :=
        @ih s (f s) [] hIf (List.forall_mem_nil _) hk (by simpa using hA.2)
      simp only [weave_nil] at hr ht ⊢
      exact ⟨a, s', hr, hQ, List.forall_mem_cons.mpr ⟨hI, ht⟩⟩
    | cons q qs =>
      change ((q >>= fun _ => step f fun s => weave qs (k s)).trace s).IsChain A at hA
      obtain ⟨hAq, hAp⟩ := isChain_trace_bind hA
      obtain ⟨s₁, hq, hs₁, hIq⟩ := hqs q List.mem_cons_self s hI hAq
      have hA₁ := isChain_trace_step.mp (hAp () s₁ hq)
      obtain ⟨hIf, hk⟩ := h s₁ hs₁ hA₁.1
      obtain ⟨a, s', hr, hQ, ht⟩ :=
        ih s₁ hIf (fun q' hq' => hqs q' (List.mem_cons_of_mem _ hq')) hk hA₁.2
      refine ⟨a, s', ?_, hQ, ?_⟩
      · rw [run_weave_step, hq]
        exact hr
      · intro t hmem
        change t ∈ (q >>= fun _ => step f fun s => weave qs (k s)).trace s at hmem
        rcases mem_trace_bind.mp hmem with hmem | ⟨u, s₂, hq', hmem⟩
        · exact hIq t hmem
        · obtain ⟨-, rfl⟩ := Outcome.done.inj (hq.symm.trans hq')
          rcases List.mem_cons.mp hmem with rfl | hmem
          · exact hIq t (mem_trace_of_run hq)
          · exact ht t hmem

end Rely

/-! ### Undisturbed runs, state by state -/

/-- The run from `s` returns with `Q`, and `I` holds of every state it goes through. -/
def always (I : σ → Prop) : Prog σ α → (α → σ → Prop) → σ → Prop
  | ret a, Q, s => I s ∧ Q a s
  | halt _, _, _ => False
  | step f k, Q, s => I s ∧ always I (k s) Q (f s)

section Always

variable {I : σ → Prop} {p : Prog σ α} {Q : α → σ → Prop} {s : σ}

@[simp] theorem always_pure (a : α) : always I (pure a) Q s ↔ I s ∧ Q a s := Iff.rfl

theorem always_bind {g : α → Prog σ β} {Q : β → σ → Prop}
    (h : always I p (fun a s' => always I (g a) Q s') s) : always I (p >>= g) Q s := by
  change always I (p.bind g) Q s
  induction p generalizing s with
  | ret a => exact h.2
  | halt e => exact h
  | step f k ih => exact ⟨h.1, ih s h.2⟩

theorem always_read {f : σ → α} (h : I s) (hQ : Q (f s) s) : always I (read f) Q s :=
  ⟨h, h, hQ⟩

theorem always_modify {f : σ → σ} {Q : Unit → σ → Prop} (h : I s) (h' : I (f s))
    (hQ : Q () (f s)) : always I (modify f) Q s :=
  ⟨h, h', hQ⟩

theorem always_attempt {f : σ → Except Halt (α × σ)} {a : α} {s' : σ} (hf : f s = .ok (a, s'))
    (h : I s) (h' : I s') (hQ : Q a s') : always I (attempt f) Q s := by
  simp only [attempt, always, hf]
  exact ⟨h, h', hQ⟩

theorem always.mono {Q' : α → σ → Prop} (h : always I p Q s) (hQ : ∀ a s', Q a s' → Q' a s') :
    always I p Q' s := by
  induction p generalizing s with
  | ret a => exact ⟨h.1, hQ _ _ h.2⟩
  | halt e => exact h
  | step f k ih => exact ⟨h.1, ih s h.2⟩

/-- A loop keeps an invariant indexed by its counter up to the bound of its condition. -/
theorem always_loop {cond : ℕ → σ → Bool} {body : ℕ → β → Prog σ β} {N : ℕ}
    {Inv : ℕ → β → σ → Prop} {Q : β → σ → Prop}
    (hI : ∀ i b s, Inv i b s → I s) (hcond : ∀ i b s, Inv i b s → cond i s = decide (i < N))
    (hbody : ∀ i b s, i < N → Inv i b s → always I (body i b) (Inv (i + 1)) s)
    (hQ : ∀ b s, Inv N b s → Q b s) {n i : ℕ} (hn : N < n + i) (hi : i ≤ N) {b : β} {s : σ}
    (h : Inv i b s) : always I (loop cond body n i b) Q s := by
  induction n generalizing i b s with
  | zero => omega
  | succ n ih =>
    refine always_bind (always_read (hI i b s h) ?_)
    rw [hcond i b s h]
    by_cases hlt : i < N
    · simp only [hlt, decide_true, if_true]
      refine always_bind ((hbody i b s hlt h).mono fun b' s' h' => ?_)
      exact ih (by omega) (by omega) h'
    · obtain rfl : i = N := by omega
      simpa using ⟨hI i b s h, hQ b s h⟩

theorem always.run_done (h : always I p Q s) : ∃ a s', p.run s = .done a s' ∧ Q a s' := by
  induction p generalizing s with
  | ret a => exact ⟨a, s, rfl, h.2⟩
  | halt e => exact h.elim
  | step f k ih => exact ih s h.2

theorem always.trace (h : always I p Q s) : ∀ t ∈ p.trace s, I t := by
  induction p generalizing s with
  | ret a => simpa [Prog.trace] using h.1
  | halt e => exact h.elim
  | step f k ih => simpa [Prog.trace] using ⟨h.1, ih s h.2⟩

end Always

/-! ### Programs that can no longer return -/

/-- Once `J` holds, and as long as the interference keeps it, the program does not return. -/
def Barred (J : σ → Prop) : Prog σ α → Prop
  | ret _ => False
  | halt _ => True
  | step f k => ∀ s, J s → J (f s) ∧ Barred J (k s)

/-- Every statement of the program keeps `J`. -/
def Keeps (J : σ → Prop) : Prog σ α → Prop
  | ret _ => True
  | halt _ => True
  | step f k => ∀ s, (J s → J (f s)) ∧ Keeps J (k s)

/-- At every boundary that the run from `s` reaches, the rest of the program is barred. -/
def Doomed (J : σ → Prop) : Prog σ α → σ → Prop
  | ret _, _ => True
  | halt _, _ => True
  | step f k, s => Barred J (step f k) ∧ Doomed J (k s) (f s)

section Barred

variable {J : σ → Prop} {p : Prog σ α} {g : α → Prog σ β} {s : σ}

theorem keeps_pure (a : α) : Keeps J (pure a : Prog σ α) := trivial

theorem keeps_halt (h : Halt) : Keeps J (halt h : Prog σ α) := trivial

theorem keeps_act {f : σ → α × σ} (h : ∀ s, J s → J (f s).2) : Keeps J (act f) :=
  fun s => ⟨h s, trivial⟩

theorem keeps_attempt {f : σ → Except Halt (α × σ)}
    (h : ∀ s a s', J s → f s = .ok (a, s') → J s') : Keeps J (attempt f) := by
  intro s
  dsimp only
  cases hf : f s with
  | error e => exact ⟨id, trivial⟩
  | ok r => exact ⟨fun hs => h s r.1 r.2 hs hf, trivial⟩

theorem Keeps.bind (hp : Keeps J p) (hg : ∀ a, Keeps J (g a)) : Keeps J (p >>= g) := by
  change Keeps J (p.bind g)
  induction p with
  | ret a => exact hg a
  | halt e => trivial
  | step f k ih => exact fun s => ⟨(hp s).1, ih s (hp s).2⟩

/-- What comes after a beginning that has returned. -/
theorem Keeps.of_bind (h : Keeps J (p >>= g)) {s t : σ} {a : α} (hr : p.run s = .done a t) :
    Keeps J (g a) := by
  change Keeps J (p.bind g) at h
  induction p generalizing s with
  | ret b =>
    cases hr
    exact h
  | halt e => cases hr
  | step f k ih => exact ih s hr (h s).2

theorem keeps_read (f : σ → α) : Keeps J (read f) := keeps_act fun _ h => h

theorem keeps_true (p : Prog σ α) : Keeps (fun _ => True) p := by
  induction p with
  | ret a => trivial
  | halt e => trivial
  | step f k ih => exact fun s => ⟨fun _ => trivial, ih s⟩

theorem keeps_ite {c : Prop} [Decidable c] {q : Prog σ α} (hp : Keeps J p) (hq : Keeps J q) :
    Keeps J (if c then p else q) := by
  split
  · exact hp
  · exact hq

/-- A check that may stop the program before it goes on. -/
theorem keeps_guard {c : Prop} [Decidable c] (e : Halt) {k : Unit → Prog σ β}
    (h : ∀ u, Keeps J (k u)) :
    Keeps J (if c then (halt e : Prog σ Unit) >>= k else k ()) :=
  keeps_ite trivial (h ())

theorem keeps_loop {cond : ℕ → σ → Bool} {body : ℕ → β → Prog σ β}
    (h : ∀ i b, Keeps J (body i b)) (n i : ℕ) (b : β) : Keeps J (loop cond body n i b) := by
  induction n generalizing i b with
  | zero => trivial
  | succ n ih =>
    refine Keeps.bind (keeps_act fun _ hs => hs) fun c => ?_
    cases c with
    | false => exact keeps_pure b
    | true => exact Keeps.bind (h i b) fun b' => ih (i + 1) b'

theorem keeps_forM {l : List α} {f : α → Prog σ PUnit} (h : ∀ a, Keeps J (f a)) :
    Keeps J (l.forM f) := by
  induction l with
  | nil => exact keeps_pure _
  | cons a l ih =>
    change Keeps J (f a >>= fun _ => l.forM f)
    exact (h a).bind fun _ => ih

theorem Keeps.and {J' : σ → Prop} (hp : Keeps J p) (hp' : Keeps J' p) :
    Keeps (fun s => J s ∧ J' s) p := by
  induction p with
  | ret a => trivial
  | halt e => trivial
  | step f k ih =>
    intro s
    exact ⟨And.imp (hp s).1 (hp' s).1, ih s (hp s).2 (hp' s).2⟩

theorem Keeps.congr {J' : σ → Prop} (h : ∀ s, J s ↔ J' s) (hp : Keeps J p) : Keeps J' p :=
  (funext fun s => propext (h s) : J = J') ▸ hp

/-- What depends on nothing that the program changes. -/
theorem keeps_of_frame {B : σ → σ → Prop} (hp : ∀ s, Keeps (B s) p) (hrefl : ∀ s, B s s)
    (hJ : ∀ s t, B s t → J s → J t) : Keeps J p := by
  induction p with
  | ret a => trivial
  | halt e => trivial
  | step f k ih => exact fun s => ⟨hJ s _ ((hp s s).1 (hrefl s)), ih s fun t => (hp t s).2⟩

theorem Keeps.weave (hp : Keeps J p) {qs : List (Prog σ Unit)} (hqs : ∀ q ∈ qs, Keeps J q) :
    Keeps J (weave qs p) := by
  induction p generalizing qs with
  | ret a => rw [weave_ret]; trivial
  | halt e => rw [weave_halt]; trivial
  | step f k ih =>
    cases qs with
    | nil => exact (weave_nil (step f k)).symm ▸ hp
    | cons q qs =>
      have hk : Keeps J (step f fun s => Prog.weave qs (k s)) := fun s =>
        ⟨(hp s).1, ih s (hp s).2 fun q' hq' => hqs q' (List.mem_cons_of_mem q hq')⟩
      exact Keeps.bind (hqs q List.mem_cons_self) fun _ => hk

theorem Keeps.state (hp : Keeps J p) (hs : J s) : J (p.run s).state := by
  induction p generalizing s with
  | ret a => exact hs
  | halt e => exact hs
  | step f k ih => exact ih s (hp s).2 ((hp s).1 hs)

theorem Keeps.run_done (hp : Keeps J p) (hs : J s) {a : α} {s' : σ}
    (h : p.run s = .done a s') : J s' :=
  Outcome.eq_state h ▸ hp.state hs

theorem Keeps.trace (hp : Keeps J p) (hs : J s) : ∀ t ∈ p.trace s, J t := by
  induction p generalizing s with
  | ret a => exact List.forall_mem_singleton.mpr hs
  | halt e => exact List.forall_mem_singleton.mpr hs
  | step f k ih => exact List.forall_mem_cons.mpr ⟨hs, ih s (hp s).2 ((hp s).1 hs)⟩

/-- A run that starts with `I` returns with `I`, or stops with `J`. What it does in between
is not looked at. -/
def Leaves (I J : σ → Prop) (p : Prog σ α) : Prop := ∀ s, I s → (p.run s).Left I J

theorem Leaves.bind {I : σ → Prop} (hp : Leaves I J p) (hg : ∀ a, Leaves I J (g a)) :
    Leaves I J (p >>= g) := by
  intro s hs
  have hs' := hp s hs
  rw [run_bind]
  cases hr : p.run s with
  | done a t =>
    rw [hr] at hs'
    exact hg a t hs'
  | halted e t =>
    rw [hr] at hs'
    exact hs'

theorem leaves_forM {I : σ → Prop} {l : List α} {f : α → Prog σ PUnit}
    (h : ∀ a, Leaves I J (f a)) : Leaves I J (l.forM f) := by
  induction l with
  | nil => exact fun _ hs => hs
  | cons a l ih =>
    change Leaves I J (f a >>= fun _ => l.forM f)
    exact (h a).bind fun _ => ih

/-- A loop over `i < N`, with an invariant indexed by its counter. -/
theorem left_loop (Inv : ℕ → σ → Prop) (N : ℕ) {cond : ℕ → σ → Bool}
    {body : ℕ → Unit → Prog σ Unit} (hle : ∀ i s, Inv i s → i ≤ N)
    (hbody : ∀ i s, cond i s = true → Inv i s → ((body i ()).run s).Left (Inv (i + 1)) J)
    {n i : ℕ} (hn : N < n + i) (h : Inv i s) :
    ((loop cond body n i ()).run s).Left (fun t => ∃ j, cond j t = false ∧ Inv j t) J := by
  induction n generalizing i s with
  | zero =>
    have hi := hle i s h
    omega
  | succ n ih =>
    cases hc : cond i s with
    | false =>
      rw [run_loop_stop hc]
      exact ⟨i, hc, h⟩
    | true =>
      rw [run_loop_go hc]
      have hb := hbody i s hc h
      cases hr : (body i ()).run s with
      | done u t =>
        rw [hr] at hb
        exact ih (by omega) hb
      | halted e t =>
        rw [hr] at hb
        exact hb

theorem Keeps.barred_bind (hp : Keeps J p) (hg : ∀ a, Barred J (g a)) :
    Barred J (p >>= g) := by
  change Barred J (p.bind g)
  induction p with
  | ret a => exact hg a
  | halt e => trivial
  | step f k ih => exact fun s hs => ⟨(hp s).1 hs, ih s (hp s).2⟩

theorem Keeps.doomed_bind (hp : Keeps J p) (hb : ∀ a, Barred J (g a))
    (hg : ∀ a s, Doomed J (g a) s) : Doomed J (p >>= g) s := by
  change Doomed J (p.bind g) s
  induction p generalizing s with
  | ret a => exact hg a s
  | halt e => trivial
  | step f k ih =>
    exact ⟨Keeps.barred_bind (show Keeps J (step f k) from hp) hb, ih s (hp s).2⟩

theorem Barred.bind (hp : Barred J p) : Barred J (p >>= g) := by
  change Barred J (p.bind g)
  induction p with
  | ret a => exact hp.elim
  | halt e => trivial
  | step f k ih => exact fun s hs => ⟨(hp s hs).1, ih s (hp s hs).2⟩

theorem barred_attempt {f : σ → Except Halt (α × σ)} (h : ∀ s, J s → ∃ e, f s = .error e) :
    Barred J (attempt f) := by
  intro s hs
  obtain ⟨e, he⟩ := h s hs
  simp only [he]
  exact ⟨hs, trivial⟩

/-- A loop that is sure to reach a barred round is barred. -/
theorem barred_loop {cond : ℕ → σ → Bool} {body : ℕ → β → Prog σ β} {j : ℕ}
    (hcond : ∀ i s, i ≤ j → J s → cond i s = true)
    (hbody : ∀ i b, i < j → Keeps J (body i b)) (hj : ∀ b, Barred J (body j b))
    {n i : ℕ} (hi : i ≤ j) (b : β) : Barred J (loop cond body n i b) := by
  induction n generalizing i b with
  | zero => trivial
  | succ n ih =>
    intro s hs
    refine ⟨hs, ?_⟩
    change Barred J (if cond i s then body i b >>= loop cond body n (i + 1) else pure b)
    rw [hcond i s hi hs, if_pos rfl]
    rcases Nat.lt_or_eq_of_le hi with hlt | rfl
    · exact Keeps.barred_bind (hbody i b hlt) fun b' => ih hlt b'
    · exact Barred.bind (hj b)

theorem Barred.not_done {qs : List (Prog σ Unit)} (hb : Barred J p) (hs : J s)
    (hqs : ∀ q ∈ qs, ∀ s s', J s → q.run s = .done () s' → J s') (a : α) (s' : σ) :
    (weave qs p).run s ≠ .done a s' := by
  induction p generalizing qs s with
  | ret b => exact hb.elim
  | halt e => simp
  | step f k ih =>
    cases qs with
    | nil =>
      have h := @ih s (f s) [] (hb s hs).2 (hb s hs).1 (by simp)
      simpa using h
    | cons q qs =>
      change (q >>= fun _ => step f fun s => weave qs (k s)).run s ≠ _
      rw [run_bind]
      cases hq : q.run s with
      | halted e s₁ => simp
      | done u s₁ =>
        have hs₁ : J s₁ := hqs q (by simp) s s₁ hs hq
        exact ih s₁ (hb s₁ hs₁).2 (hb s₁ hs₁).1 fun q' hq' => hqs q' (by simp [hq'])

theorem Barred.run_ne_done (hb : Barred J p) (hs : J s) (a : α) (s' : σ) :
    p.run s ≠ .done a s' := by
  have h := hb.not_done hs (List.forall_mem_nil _) a s'
  rwa [weave_nil] at h

theorem doomed_attempt {f : σ → Except Halt (α × σ)} (h : ∀ s, J s → ∃ e, f s = .error e) :
    Doomed J (attempt f) s := by
  refine ⟨barred_attempt h, ?_⟩
  dsimp only
  cases f s <;> trivial

/-- A run that is interrupted at a boundary it reaches by something that brings
about `J` does not return, when from there on the program is barred by `J`. What
interrupts may rely on what holds of every state of the undisturbed run. -/
theorem Doomed.not_done {K : σ → Prop} {qs : List (Prog σ Unit)} (hd : Doomed J p s)
    (hK : ∀ t ∈ p.trace s, K t) (hJK : ∀ t, J t → K t)
    (hqs : ∀ q ∈ qs, q = ret () ∨ ∀ s s', K s → q.run s = .done () s' → J s')
    (hi : ∃ i < p.steps s, ∃ q, qs[i]? = some q ∧ q ≠ ret ()) (a : α) (s' : σ) :
    (weave qs p).run s ≠ .done a s' := by
  induction p generalizing qs s with
  | ret b => simp [steps] at hi
  | halt e => simp
  | step f k ih =>
    cases qs with
    | nil => simp at hi
    | cons q qs =>
      have hqs' : ∀ q' ∈ qs, q' = ret () ∨ ∀ s s', K s → q'.run s = .done () s' → J s' :=
        fun q' hq' => hqs q' (by simp [hq'])
      rcases hqs q (by simp) with rfl | hq
      · obtain ⟨i, hlt, q', hq', hne⟩ := hi
        cases i with
        | zero => exact absurd (Option.some.inj hq').symm hne
        | succ i =>
          refine ih s hd.2 (fun t ht => hK t (List.mem_cons_of_mem _ ht)) hqs'
            ⟨i, by simpa [steps] using hlt, q', by simpa using hq', hne⟩
      · change (q >>= fun _ => step f fun s => weave qs (k s)).run s ≠ _
        rw [run_bind]
        cases hr : q.run s with
        | halted e s₁ => simp
        | done u s₁ =>
          have hJ := hq s s₁ (hK s List.mem_cons_self) hr
          refine Barred.not_done (hd.1 s₁ hJ).2 (hd.1 s₁ hJ).1 (fun q' hq' t t' ht hrun => ?_) a s'
          rcases hqs' q' hq' with rfl | h
          · simp only [run, Outcome.done.injEq, true_and] at hrun; exact hrun ▸ ht
          · exact h t t' (hJK t ht) hrun

end Barred

end ExactDaemon.Prog
