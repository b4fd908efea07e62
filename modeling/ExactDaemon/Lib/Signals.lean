import Mathlib.Data.Set.Insert
import ExactDaemon.Lib.Points

/-! # Programs amid signals

A signal may find a process between any two statements. Its handler runs before the process
goes on, and other signals may find the handler in the same way, but not its own. An invariant
and a relation, both for each set of running handlers, say what the handlers may do to each
other; every run of a process amid signals keeps to them.
-/

namespace ExactDaemon

open Prog

variable {ι σ α β : Type}

/-- What a process meets: the handlers, what the rest of the system may do between two
statements, when a signal comes in time, and what holds before every statement. -/
structure Surroundings (ι σ : Type) where
  handler : ι → Prog σ Unit
  move : σ → σ → Prop
  timely : σ → ι → Prop
  steady : σ → Prop

/-- While the handlers of `A` run, `p` starts in `s` and ends as the outcome says. If it is
stopped, the last argument tells by which handler, or that it stopped by itself. -/
inductive Amid (S : Surroundings ι σ) :
    Set ι → Prog σ Unit → σ → Outcome σ Unit → Option ι → Prop where
  | ret {A : Set ι} (a : Unit) (s : σ) : Amid S A (.ret a) s (.done a s) none
  | halt {A : Set ι} (e : Halt) (s : σ) : Amid S A (.halt e) s (.halted e s) none
  | step {A : Set ι} {f : σ → σ} {k : σ → Prog σ Unit} {s : σ} {o : Outcome σ Unit}
      {i : Option ι} : S.steady s → Amid S A (k s) (f s) o i → Amid S A (.step f k) s o i
  | move {A : Set ι} {f : σ → σ} {k : σ → Prog σ Unit} {s t : σ} {o : Outcome σ Unit}
      {i : Option ι} : S.move s t → Amid S A (.step f k) t o i → Amid S A (.step f k) s o i
  | signal {A : Set ι} {f : σ → σ} {k : σ → Prog σ Unit} {s t : σ} {o : Outcome σ Unit} {i : ι}
      {j m : Option ι} : i ∉ A → S.timely s i →
      Amid S (insert i A) (S.handler i) s (.done () t) j → Amid S A (.step f k) t o m →
      Amid S A (.step f k) s o m
  | killed {A : Set ι} {f : σ → σ} {k : σ → Prog σ Unit} {s t : σ} {e : Halt} {i : ι}
      {j : Option ι} : i ∉ A → S.timely s i →
      Amid S (insert i A) (S.handler i) s (.halted e t) j →
      Amid S A (.step f k) s (.halted e t) (some (j.getD i))

namespace Prog

/-- Whatever `R`-moves precede its statements, `p` stops only with `E`. -/
def Stops (R : σ → σ → Prop) (E : Halt → σ → Prop) : Prog σ α → σ → Prop
  | ret _, _ => True
  | halt e, s => E e s
  | step f k, s => ∀ s', R s s' → Stops R E (k s') (f s')

/-- Every state that `p` brings about satisfies `I`, it returns only with `Q`, and it stops
only with `E`. -/
def Meets (R : σ → σ → Prop) (I : σ → Prop) (E : Halt → σ → Prop) (p : Prog σ α)
    (Q : α → σ → Prop) (s : σ) : Prop := Upholds R I p Q s ∧ Stops R E p s

variable {R : σ → σ → Prop} {I : σ → Prop} {E : Halt → σ → Prop} {p : Prog σ α}
  {g : α → Prog σ β} {Q : α → σ → Prop} {s t : σ}

theorem meets_pure {a : α} (h : Q a s) : Meets R I E (pure a) Q s := ⟨h, trivial⟩

theorem meets_bind {Q : β → σ → Prop} (h : Meets R I E p (fun a t => Meets R I E (g a) Q t) s) :
    Meets R I E (p >>= g) Q s := by
  obtain ⟨hp, he⟩ := h
  refine ⟨upholds_bind (hp.mono fun _ _ hg => hg.1), ?_⟩
  change Stops R E (p.bind g) s
  induction p generalizing s with
  | ret a => exact hp.2
  | halt e => exact he
  | step f k ih => exact fun s' hs => ih s' (hp s' hs).2 (he s' hs)

/-- One statement, which does not fail. -/
theorem meets_attempt {f : σ → Except Halt (α × σ)}
    (h : ∀ s', R s s' → ∃ a s'', f s' = .ok (a, s'') ∧ I s'' ∧ Q a s'') :
    Meets R I E (attempt f) Q s := by
  constructor
  · refine upholds_attempt (fun s' a s'' hs hf => ?_) fun s' e hs hf => ?_
    · obtain ⟨b, u, hb, hu⟩ := h s' hs
      rw [hf] at hb
      cases hb
      exact hu
    · obtain ⟨b, u, hb, -⟩ := h s' hs
      rw [hf] at hb
      cases hb
  · intro s' hs
    obtain ⟨b, u, hb, -⟩ := h s' hs
    simp only [hb]
    trivial

/-- One statement, with which the program stops. -/
theorem meets_exit {e : Halt} (h : ∀ s', R s s' → I s' ∧ E e s') :
    Meets R I E (attempt fun _ => .error e : Prog σ α) Q s :=
  ⟨fun s' hs => ⟨(h s' hs).1, trivial⟩, fun s' hs => (h s' hs).2⟩

theorem Upholds.meets (h : Upholds R I p Q s) : Meets R I (fun _ _ => True) p Q s := by
  refine ⟨h, ?_⟩
  clear h
  induction p generalizing s with
  | ret a => trivial
  | halt e => trivial
  | step f k ih => exact fun s' _ => ih s'

/-- A rely that composes holds from a later state on. -/
theorem Meets.later {f : σ → σ} {k : σ → Prog σ α} (h : Meets R I E (.step f k) Q s)
    (hR : ∀ u, R t u → R s u) : Meets R I E (.step f k) Q t :=
  ⟨fun u hu => h.1 u (hR u hu), fun u hu => h.2 u (hR u hu)⟩

theorem Meets.next {f : σ → σ} {k : σ → Prog σ α} (h : Meets R I E (.step f k) Q s)
    (hs : R s t) : I (f t) ∧ Meets R I E (k t) Q (f t) := ⟨(h.1 t hs).1, (h.1 t hs).2, h.2 t hs⟩

end Prog

/-! ### Runs without a signal -/

section Run

variable {S : Surroundings ι σ} {A : Set ι} {s t : σ} {o : Outcome σ Unit} {i : Option ι}

/-- A program that no signal finds. -/
theorem Amid.of_run {p : Prog σ Unit} (h : ∀ u ∈ p.trace s, S.steady u) :
    Amid S A p s (p.run s) none := by
  induction p generalizing s with
  | ret a => exact .ret a s
  | halt e => exact .halt e s
  | step f k ih =>
    obtain ⟨hs, hk⟩ := List.forall_mem_cons.mp h
    exact .step hs (ih s hk)

/-- A beginning of a program that no signal finds. -/
theorem Amid.of_run_bind {p : Prog σ α} {g : α → Prog σ Unit} {a : α}
    (h : ∀ u ∈ p.trace s, S.steady u) (hr : p.run s = .done a t) (hg : Amid S A (g a) t o i) :
    Amid S A (p >>= g) s o i := by
  change Amid S A (p.bind g) s o i
  induction p generalizing s with
  | ret b =>
    cases hr
    exact hg
  | halt e => cases hr
  | step f k ih =>
    obtain ⟨hs, hk⟩ := List.forall_mem_cons.mp h
    exact .step hs (ih s hk hr)

end Run

/-! ### What the handlers may rely on -/

/-- What may happen between two statements while the handlers of `A` run. -/
def Surroundings.Rely (S : Surroundings ι σ) (I : Set ι → σ → Prop) (G : Set ι → σ → σ → Prop)
    (A : Set ι) (s t : σ) : Prop := G A s t ∧ I A t ∧ S.steady t

/-- The handlers keep the invariant and do to each other only what the relation allows. A
handler that stops the process does so as `E` says. -/
structure Surroundings.Respects (S : Surroundings ι σ) (I : Set ι → σ → Prop)
    (G : Set ι → σ → σ → Prop) (E : ι → Halt → σ → Prop) : Prop where
  refl : ∀ A s, G A s s
  trans : ∀ A s t u, G A s t → G A t u → G A s u
  move : ∀ A s t, I A s → S.move s t → I A t ∧ G A s t
  handler : ∀ A i s, i ∉ A → I A s → S.timely s i → I (insert i A) s ∧
    Meets (S.Rely I G (insert i A)) (I (insert i A)) (E i) (S.handler i)
      (fun _ t => I A t ∧ G A s t) s

/-- The program returned with `Q`, or stopped by itself with `F`, or the handler that stopped
it did so with `E`. -/
def Judged (Q : σ → Prop) (F : Halt → σ → Prop) (E : ι → Halt → σ → Prop) :
    Outcome σ Unit → Option ι → Prop
  | .done _ t, _ => Q t
  | .halted e t, none => F e t
  | .halted e t, some i => E i e t

variable {S : Surroundings ι σ} {I : Set ι → σ → Prop} {G : Set ι → σ → σ → Prop}
  {E : ι → Halt → σ → Prop} {A : Set ι} {p : Prog σ Unit} {s : σ} {o : Outcome σ Unit}
  {j : Option ι}

/-- Amid signals a program does what it does under their relation. -/
theorem Amid.judged (h : Amid S A p s o j) (hS : S.Respects I G E) {Q : σ → Prop}
    {F : Halt → σ → Prop} (hs : I A s)
    (hp : Meets (S.Rely I G A) (I A) F p (fun _ => Q) s) : Judged Q F E o j := by
  have hlater : ∀ {A s t}, G A s t → ∀ u, S.Rely I G A t u → S.Rely I G A s u :=
    fun hst _ hu => ⟨hS.trans _ _ _ _ hst hu.1, hu.2⟩
  induction h generalizing Q F with
  | ret a s => exact hp.1
  | halt e s => exact hp.2
  | @step A _ _ s _ _ hsteady _ ih =>
    have hrely : S.Rely I G A s s := ⟨hS.refl _ _, hs, hsteady⟩
    obtain ⟨hs', hp'⟩ := hp.next hrely
    exact ih hs' hp'
  | move hmove _ ih =>
    obtain ⟨ht, hst⟩ := hS.move _ _ _ hs hmove
    exact ih ht (hp.later (hlater hst))
  | signal hi htimely _ _ ihh ih =>
    obtain ⟨hs', hmeets⟩ := hS.handler _ _ _ hi hs htimely
    obtain ⟨ht, hst⟩ := ihh hs' hmeets
    exact ih ht (hp.later (hlater hst))
  | @killed _ _ _ _ _ _ i j hi htimely _ ihh =>
    obtain ⟨hs', hmeets⟩ := hS.handler _ _ _ hi hs htimely
    have hj := ihh hs' hmeets
    cases j with
    | none => exact hj
    | some i' => exact hj

end ExactDaemon
