import ExactDaemon.Lib.Zoom

/-! # Two runs of one program

A program tracks a relation if from related states it takes the same course: it returns
the same result in related states, or it stops for the same reason. With the graph of a
function for the relation, this also says what the program leaves unchanged.
-/

namespace ExactDaemon

variable {σ τ α β : Type}

namespace Outcome

/-- The same result in related states, or the same reason for stopping. -/
def Agree (R : σ → σ → Prop) : Outcome σ α → Outcome σ α → Prop
  | done a s, done b t => a = b ∧ R s t
  | halted e _, halted e' _ => e = e'
  | _, _ => False

/-- What a run says about itself, apart from its last state. -/
def result : Outcome σ α → Except Halt α
  | done a _ => .ok a
  | halted e _ => .error e

/-- The outcome of a computation that leaves the state alone. -/
def ofExcept : Except Halt α → σ → Outcome σ α
  | .ok a, s => done a s
  | .error e, s => halted e s

@[simp] theorem result_ofExcept (x : Except Halt α) (s : σ) : (ofExcept x s).result = x := by
  cases x <;> rfl

theorem Agree.mono {R R' : σ → σ → Prop} (hR : ∀ s t, R s t → R' s t) {o o' : Outcome σ α}
    (h : o.Agree R o') : o.Agree R' o' := by
  cases o <;> cases o'
  · exact ⟨h.1, hR _ _ h.2⟩
  · exact h
  · exact h
  · exact h

/-- What is known of the first run's last state may be added to the relation. -/
theorem Agree.and {R : σ → σ → Prop} {P : σ → Prop} {o o' : Outcome σ α} (h : o.Agree R o')
    (hP : ∀ a s, o = done a s → P s) : o.Agree (fun s t => P s ∧ R s t) o' := by
  cases o <;> cases o'
  · exact ⟨h.1, hP _ _ rfl, h.2⟩
  · exact h
  · exact h
  · exact h

/-- Two runs that agree go on with what agrees from related states. -/
theorem Agree.bind {R R' : σ → σ → Prop} {o o' : Outcome σ α} {k k' : α → σ → Outcome σ β}
    (h : o.Agree R o') (hk : ∀ a s t, R s t → (k a s).Agree R' (k' a t)) :
    (o.bind k).Agree R' (o'.bind k') := by
  cases o with
  | done a s =>
    cases o' with
    | done b t =>
      obtain ⟨rfl, hst⟩ := h
      exact hk a s t hst
    | halted e t => exact h.elim
  | halted e s =>
    cases o' with
    | done b t => exact h.elim
    | halted e' t => exact h

theorem Agree.done {R : σ → σ → Prop} {o : Outcome σ α} {a : α} {s : σ}
    (h : (Outcome.done a s).Agree R o) : ∃ t, o = .done a t ∧ R s t := by
  cases o with
  | done b t =>
    obtain ⟨rfl, hst⟩ := h
    exact ⟨t, rfl, hst⟩
  | halted e t => exact h.elim

end Outcome

namespace Prog

def Tracks (R : σ → σ → Prop) (p : Prog σ α) : Prop :=
  ∀ s t, R s t → (p.run s).Agree R (p.run t)

section Tracks

variable {R : σ → σ → Prop} {p : Prog σ α} {g : α → Prog σ β} {s t : σ} {a : α}

theorem tracks_pure (a : α) : Tracks R (pure a : Prog σ α) := fun _ _ h => ⟨rfl, h⟩

theorem tracks_halt (e : Halt) : Tracks R (halt e : Prog σ α) := fun _ _ _ => rfl

theorem tracks_read {f : σ → α} (h : ∀ s t, R s t → f s = f t) : Tracks R (read f) :=
  fun s t hst => ⟨h s t hst, hst⟩

theorem tracks_modify {f : σ → σ} (h : ∀ s t, R s t → R (f s) (f t)) : Tracks R (modify f) :=
  fun s t hst => ⟨rfl, h s t hst⟩

/-- A statement that may stop has to do so in both states or in neither. -/
theorem tracks_attempt {f : σ → Except Halt (α × σ)}
    (h : ∀ s t, R s t → (∃ e, f s = .error e ∧ f t = .error e) ∨
      ∃ a s' t', f s = .ok (a, s') ∧ f t = .ok (a, t') ∧ R s' t') :
    Tracks R (attempt f) := by
  intro s t hst
  rcases h s t hst with ⟨e, hs, ht⟩ | ⟨a, s', t', hs, ht, hst'⟩
  · rw [run_attempt_error hs, run_attempt_error ht]
    rfl
  · rw [run_attempt_ok hs, run_attempt_ok ht]
    exact ⟨rfl, hst'⟩

theorem agree_bind (h : (p.run s).Agree R (p.run t)) (hg : ∀ a, Tracks R (g a)) :
    ((p >>= g).run s).Agree R ((p >>= g).run t) := by
  rw [run_bind, run_bind]
  exact h.bind fun a s t hst => hg a s t hst

theorem Tracks.bind (hp : Tracks R p) (hg : ∀ a, Tracks R (g a)) : Tracks R (p >>= g) :=
  fun s t hst => agree_bind (hp s t hst) hg

theorem tracks_ite {c : Prop} [Decidable c] {q : Prog σ α} (hp : Tracks R p) (hq : Tracks R q) :
    Tracks R (if c then p else q) := by
  split
  · exact hp
  · exact hq

theorem tracks_loop {cond : ℕ → σ → Bool} {body : ℕ → β → Prog σ β}
    (hc : ∀ i s t, R s t → cond i s = cond i t) (h : ∀ i b, Tracks R (body i b)) (n i : ℕ) (b : β) :
    Tracks R (loop cond body n i b) := by
  induction n generalizing i b with
  | zero => exact tracks_halt _
  | succ n ih =>
    refine (tracks_read (hc i)).bind fun c => ?_
    cases c with
    | false => exact tracks_pure b
    | true => exact (h i b).bind fun b' => ih (i + 1) b'

/-- On a part of the state. -/
theorem Tracks.zoom {l : Lens τ σ} {Q : τ → τ → Prop} (hp : Tracks R p)
    (hget : ∀ s t, Q s t → R (l.get s) (l.get t))
    (hset : ∀ s t a b, Q s t → R a b → Q (l.set s a) (l.set t b)) : Tracks Q (Prog.zoom l p) := by
  intro s t hst
  have h := hp _ _ (hget s t hst)
  rw [run_zoom, run_zoom]
  cases hs : p.run (l.get s) <;> cases ht : p.run (l.get t) <;> rw [hs, ht] at h
  · exact ⟨h.1, hset s t _ _ hst h.2⟩
  · exact h.elim
  · exact h.elim
  · exact h

end Tracks

end Prog

end ExactDaemon
