import Mathlib.Data.List.Basic
import Mathlib.Logic.Function.Basic
import Mathlib.Order.Defs.Unbundled

/-! # Interruptible programs

A program is a tree of atomic statements over a shared state. Between two
statements other code may run: a handler that runs to completion, or a move of
the environment. `weave` inserts such code at the statement boundaries, and
`rely` reasons about a program under every insertion a relation allows.
-/

namespace ExactDaemon

/-- The ways a program can stop without returning. -/
inductive Halt where
  | exit (code : ℕ)
  | abort
  | undefined
  | diverged
  deriving DecidableEq, Repr

/-- A program over the state `σ`, statement by statement. The statement `step f k`
changes the state by `f` and goes on with what `k` finds in the state before it. -/
inductive Prog (σ α : Type) where
  | ret (a : α)
  | halt (h : Halt)
  | step (f : σ → σ) (k : σ → Prog σ α)

/-- What a program run leaves: a result, or the reason for stopping. -/
inductive Outcome (σ α : Type) where
  | done (a : α) (s : σ)
  | halted (h : Halt) (s : σ)
  deriving DecidableEq, Repr

namespace Outcome

variable {σ α β : Type}

def bind : Outcome σ α → (α → σ → Outcome σ β) → Outcome σ β
  | done a s, g => g a s
  | halted h s, _ => halted h s

/-- The state in which the run ended. -/
def state : Outcome σ α → σ
  | done _ s => s
  | halted _ s => s

theorem eq_state {o : Outcome σ α} {a : α} {s : σ} (h : o = done a s) : s = o.state := by
  rw [h]
  rfl

/-- The run returned with `I`, or stopped with `J`. -/
def Left (I J : σ → Prop) : Outcome σ α → Prop
  | done _ s => I s
  | halted _ s => J s

theorem left_self {J : σ → Prop} {o : Outcome σ α} (h : J o.state) : o.Left J J := by
  cases o <;> exact h

theorem Left.mono {I I' J : σ → Prop} {o : Outcome σ α} (h : o.Left I J) (hI : ∀ s, I s → I' s) :
    o.Left I' J := by
  cases o with
  | done a s => exact hI s h
  | halted e s => exact h

theorem Left.state {I J : σ → Prop} {o : Outcome σ α} (h : o.Left I J) (hJ : ∀ s, I s → J s) :
    J o.state := by
  cases o with
  | done a s => exact hJ s h
  | halted e s => exact h

/-- The run returned, with `Q`. -/
def Returns : Outcome σ α → (α → σ → Prop) → Prop
  | done a s, Q => Q a s
  | halted _ _, _ => False

instance {Q : α → σ → Prop} [∀ a s, Decidable (Q a s)] : (o : Outcome σ α) → Decidable (o.Returns Q)
  | done a s => inferInstanceAs (Decidable (Q a s))
  | halted _ _ => instDecidableFalse

theorem returns_iff {o : Outcome σ α} {Q : α → σ → Prop} :
    o.Returns Q ↔ ∃ a s, o = done a s ∧ Q a s := by
  cases o with
  | done a s => exact ⟨fun h => ⟨a, s, rfl, h⟩, by rintro ⟨_, _, ⟨⟩, h⟩; exact h⟩
  | halted h s => exact ⟨False.elim, by rintro ⟨_, _, ⟨⟩, _⟩⟩

/-- The state in which the run returned. -/
def returned : Outcome σ α → Option σ
  | done _ s => some s
  | halted _ _ => none

@[simp] theorem bind_done (a : α) (s : σ) (g : α → σ → Outcome σ β) :
    (done a s).bind g = g a s := rfl

@[simp] theorem bind_halted (h : Halt) (s : σ) (g : α → σ → Outcome σ β) :
    (halted h s : Outcome σ α).bind g = halted h s := rfl

end Outcome

namespace Prog

variable {σ α β γ : Type}

def bind : Prog σ α → (α → Prog σ β) → Prog σ β
  | ret a, g => g a
  | halt h, _ => halt h
  | step f k, g => step f fun s => (k s).bind g

instance : Monad (Prog σ) where
  pure := ret
  bind := bind

theorem bind_ret (p : Prog σ α) : p.bind ret = p := by
  induction p with
  | ret a => rfl
  | halt h => rfl
  | step f k ih => exact congrArg (step f) (funext ih)

theorem bind_assoc (p : Prog σ α) (g : α → Prog σ β) (h : β → Prog σ γ) :
    (p.bind g).bind h = p.bind fun a => (g a).bind h := by
  induction p with
  | ret a => rfl
  | halt e => rfl
  | step f k ih => exact congrArg (step f) (funext ih)

instance : LawfulMonad (Prog σ) :=
  LawfulMonad.mk' (Prog σ) (fun p => bind_ret p) (fun _ _ => rfl) bind_assoc

/-- One statement, which reads and changes the state at once. -/
def act (f : σ → α × σ) : Prog σ α := step (fun s => (f s).2) fun s => ret (f s).1

def read (f : σ → α) : Prog σ α := act fun s => (f s, s)

def modify (f : σ → σ) : Prog σ Unit := act fun s => ((), f s)

/-- One statement that may stop the program. -/
def attempt (f : σ → Except Halt (α × σ)) : Prog σ α :=
  step (fun s => match f s with | .ok r => r.2 | .error _ => s)
    fun s => match f s with | .ok r => ret r.1 | .error h => halt h

/-- A `for` loop over `i, i + 1, …` that ends when `cond` fails, cut off after `n` rounds.
The body carries the local variables `b` from round to round. -/
def loop (cond : ℕ → σ → Bool) (body : ℕ → β → Prog σ β) : ℕ → ℕ → β → Prog σ β
  | 0, _, _ => halt .diverged
  | n + 1, i, b => do
    if ← read (cond i) then
      let b' ← body i b
      loop cond body n (i + 1) b'
    else
      pure b

/-- Run a program alone. -/
def run : Prog σ α → σ → Outcome σ α
  | ret a, s => .done a s
  | halt h, s => .halted h s
  | step f k, s => (k s).run (f s)

/-- The states a run goes through, from the first to the last. -/
def trace : Prog σ α → σ → List σ
  | ret _, s => [s]
  | halt _, s => [s]
  | step f k, s => s :: (k s).trace (f s)

/-- The number of statements a run executes. -/
def steps : Prog σ α → σ → ℕ
  | ret _, _ => 0
  | halt _, _ => 0
  | step f k, s => (k s).steps (f s) + 1

/-- Let the `i`-th program of the list run to completion before the `i`-th statement. -/
def weave : List (Prog σ Unit) → Prog σ α → Prog σ α
  | [], p => p
  | _ :: _, ret a => ret a
  | _ :: _, halt h => halt h
  | q :: qs, step f k => q.bind fun _ => step f fun s => weave qs (k s)

section Run

variable (p : Prog σ α) (g : α → Prog σ β) (s : σ)

@[simp] theorem run_pure (a : α) : (pure a : Prog σ α).run s = .done a s := rfl
@[simp] theorem run_ret (a : α) : (ret a : Prog σ α).run s = .done a s := rfl
@[simp] theorem run_halt (h : Halt) : (halt h : Prog σ α).run s = .halted h s := rfl
@[simp] theorem run_step (f : σ → σ) (k : σ → Prog σ α) :
    (step f k).run s = (k s).run (f s) := rfl

@[simp] theorem run_bind : (p >>= g).run s = (p.run s).bind fun a s' => (g a).run s' := by
  change (p.bind g).run s = _
  induction p generalizing s with
  | ret a => rfl
  | halt h => rfl
  | step f k ih => exact ih s (f s)

@[simp] theorem run_act (f : σ → α × σ) : (act f).run s = .done (f s).1 (f s).2 := rfl
@[simp] theorem run_read (f : σ → α) : (read f).run s = .done (f s) s := rfl
@[simp] theorem run_modify (f : σ → σ) : (modify f).run s = .done () (f s) := rfl

theorem run_attempt (f : σ → Except Halt (α × σ)) :
    (attempt f).run s =
      match f s with
      | .ok r => .done r.1 r.2
      | .error h => .halted h s := by
  simp only [attempt, run]
  cases f s <;> rfl

theorem run_attempt_ok {f : σ → Except Halt (α × σ)} {s : σ} {a : α} {s' : σ}
    (h : f s = .ok (a, s')) : (attempt f).run s = .done a s' := by
  rw [run_attempt, h]

theorem run_attempt_error {f : σ → Except Halt (α × σ)} {s : σ} {e : Halt}
    (h : f s = .error e) : (attempt f).run s = .halted e s := by
  rw [run_attempt, h]

variable {p g s} in
theorem done_of_bind {t : σ} {b : β} (h : (p >>= g).run s = .done b t) :
    ∃ a u, p.run s = .done a u ∧ (g a).run u = .done b t := by
  rw [run_bind] at h
  cases hp : p.run s with
  | done a u =>
    rw [hp] at h
    exact ⟨a, u, rfl, h⟩
  | halted e u =>
    rw [hp] at h
    cases h

theorem attempt_done {f : σ → Except Halt (α × σ)} {s t : σ} {a : α}
    (h : (attempt f).run s = .done a t) : f s = .ok (a, t) := by
  rw [run_attempt] at h
  split at h
  · next r hr =>
    cases h
    exact hr
  · cases h

/-- Checks that leave the state alone have all been passed in the same state. -/
theorem forM_done {f : α → σ → Except Halt (Unit × σ)}
    (hf : ∀ a s u t, f a s = .ok (u, t) → t = s) {l : List α} {s t : σ}
    (h : (l.forM fun a => attempt (f a)).run s = .done () t) :
    t = s ∧ ∀ a ∈ l, f a s = .ok ((), s) := by
  induction l with
  | nil =>
    cases h
    exact ⟨rfl, List.forall_mem_nil _⟩
  | cons a l ih =>
    change (attempt (f a) >>= fun _ => l.forM fun a => attempt (f a)).run s = .done () t at h
    obtain ⟨_, u, hu, hl⟩ := done_of_bind h
    have ha := attempt_done hu
    obtain rfl := hf _ _ _ _ ha
    obtain ⟨ht, hall⟩ := ih hl
    exact ⟨ht, List.forall_mem_cons.mpr ⟨ha, hall⟩⟩

theorem run_forM {f : α → σ → Except Halt (Unit × σ)} {l : List α} {s : σ}
    (h : ∀ a ∈ l, f a s = .ok ((), s)) : (l.forM fun a => attempt (f a)).run s = .done () s := by
  induction l with
  | nil => rfl
  | cons a l ih =>
    change (attempt (f a) >>= fun _ => l.forM fun a => attempt (f a)).run s = .done () s
    rw [run_bind, run_attempt_ok (h a List.mem_cons_self), Outcome.bind_done]
    exact ih fun b hb => h b (List.mem_cons_of_mem a hb)

theorem run_ite {c : Prop} [Decidable c] (p q : Prog σ α) :
    (if c then p else q).run s = if c then p.run s else q.run s := by
  split <;> rfl

variable {cond : ℕ → σ → Bool} {body : ℕ → β → Prog σ β} {n i : ℕ} {b : β} {s}

theorem run_loop_stop (h : cond i s = false) :
    (loop cond body (n + 1) i b).run s = .done b s := by
  simp [loop, h]

theorem run_loop_go (h : cond i s = true) :
    (loop cond body (n + 1) i b).run s =
      ((body i b).run s).bind fun b' s' => (loop cond body n (i + 1) b').run s' := by
  simp [loop, h]

end Run

end Prog

end ExactDaemon
