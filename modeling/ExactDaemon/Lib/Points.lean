import ExactDaemon.Lib.Zoom

/-! # The points between the statements

Something else may happen at every point between two statements of a program. `Reaches`
says in which states it may find the program, `Upholds` what holds of all of them.
-/

namespace ExactDaemon.Prog

variable {σ α β : Type}

/-- `p` starts in `s`, the environment makes an `R`-move before each statement, and `t` is
what it leaves at some point before, between or after the statements. -/
inductive Reaches (R : σ → σ → Prop) : Prog σ α → σ → σ → Prop where
  | here {p : Prog σ α} {s t : σ} : R s t → Reaches R p s t
  | later {f : σ → σ} {k : σ → Prog σ α} {s s' t : σ} :
      R s s' → Reaches R (k s') (f s') t → Reaches R (step f k) s t

/-- `p` starts in `s`, the environment makes an `R`-move before each statement, and `p`
returns `a` in `t`. -/
inductive Ends (R : σ → σ → Prop) : Prog σ α → σ → α → σ → Prop where
  | ret (a : α) (s : σ) : Ends R (ret a) s a s
  | step {f : σ → σ} {k : σ → Prog σ α} {s s' t : σ} {a : α} :
      R s s' → Ends R (k s') (f s') a t → Ends R (step f k) s a t

/-- Whatever `R`-moves precede its statements, every state that `p` brings about satisfies
`I`, and if it returns, it does so with `Q`. -/
def Upholds (R : σ → σ → Prop) (I : σ → Prop) : Prog σ α → (α → σ → Prop) → σ → Prop
  | ret a, Q, s => Q a s
  | halt _, _, _ => True
  | step f k, Q, s => ∀ s', R s s' → I (f s') ∧ Upholds R I (k s') Q (f s')

variable {R : σ → σ → Prop} {I J : σ → Prop} {p : Prog σ α} {g : α → Prog σ β}
  {Q : α → σ → Prop} {s t : σ}

theorem Reaches.bind (h : Reaches R p s t) : Reaches R (p >>= g) s t := by
  change Reaches R (p.bind g) s t
  induction h with
  | here h => exact .here h
  | later h _ ih => exact .later h ih

theorem reaches_read_bind {f : σ → α} {s' : σ} (h : R s s') (h' : Reaches R (g (f s')) s' t) :
    Reaches R (read f >>= g) s t := .later h h'

theorem reaches_attempt_bind {f : σ → Except Halt (α × σ)} {a : α} {s' s'' : σ} (h : R s s')
    (hf : f s' = .ok (a, s'')) (h' : Reaches R (g a) s'' t) : Reaches R (attempt f >>= g) s t := by
  refine .later h ?_
  simp only [hf]
  exact h'

/-- An undisturbed run is at each of its states once. -/
theorem reaches_of_trace (hR : ∀ u ∈ p.trace s, R u u) (ht : t ∈ p.trace s) : Reaches R p s t := by
  induction p generalizing s with
  | ret a =>
    obtain rfl := List.mem_singleton.mp ht
    exact .here (hR t ht)
  | halt e =>
    obtain rfl := List.mem_singleton.mp ht
    exact .here (hR t ht)
  | step f k ih =>
    have hs := hR s List.mem_cons_self
    rcases List.mem_cons.mp ht with rfl | ht
    · exact .here hs
    · exact .later hs (ih s (fun u hu => hR u (List.mem_cons_of_mem _ hu)) ht)

theorem upholds_bind {Q : β → σ → Prop}
    (h : Upholds R I p (fun a s' => Upholds R I (g a) Q s') s) : Upholds R I (p >>= g) Q s := by
  change Upholds R I (p.bind g) Q s
  induction p generalizing s with
  | ret a => exact h
  | halt e => trivial
  | step f k ih => exact fun s' hs => ⟨(h s' hs).1, ih s' (h s' hs).2⟩

theorem Upholds.mono {Q' : α → σ → Prop} (h : Upholds R I p Q s) (hQ : ∀ a s', Q a s' → Q' a s') :
    Upholds R I p Q' s := by
  induction p generalizing s with
  | ret a => exact hQ _ _ h
  | halt e => trivial
  | step f k ih => exact fun s' hs => ⟨(h s' hs).1, ih s' (h s' hs).2⟩

theorem Upholds.weaken (h : Upholds R I p Q s) (hI : ∀ s, I s → J s) : Upholds R J p Q s := by
  induction p generalizing s with
  | ret a => exact h
  | halt e => trivial
  | step f k ih => exact fun s' hs => ⟨hI _ (h s' hs).1, ih s' (h s' hs).2⟩

/-- Fewer moves, in the states that are known to come about. -/
theorem Upholds.of_fewer {R' : σ → σ → Prop} (h : Upholds R I p Q s) (hs : I s)
    (hR : ∀ s t, I s → R' s t → R s t) : Upholds R' I p Q s := by
  induction p generalizing s with
  | ret a => exact h
  | halt e => trivial
  | step f k ih =>
    intro s' hs'
    obtain ⟨hf, hk⟩ := h s' (hR s s' hs hs')
    exact ⟨hf, ih s' hk hf⟩

theorem Upholds.and {J : σ → Prop} {Q' : α → σ → Prop} (h : Upholds R I p Q s)
    (h' : Upholds R J p Q' s) :
    Upholds R (fun s => I s ∧ J s) p (fun a t => Q a t ∧ Q' a t) s := by
  induction p generalizing s with
  | ret a => exact ⟨h, h'⟩
  | halt e => trivial
  | step f k ih =>
    exact fun s' hs => ⟨⟨(h s' hs).1, (h' s' hs).1⟩, ih s' (h s' hs).2 (h' s' hs).2⟩

/-- What holds of every state holds at the end. -/
theorem Upholds.at_end (h : Upholds R I p Q s) (hs : I s) :
    Upholds R I p (fun a t => I t ∧ Q a t) s := by
  induction p generalizing s with
  | ret a => exact ⟨hs, h⟩
  | halt e => trivial
  | step f k ih => exact fun s' hs' => ⟨(h s' hs').1, ih s' (h s' hs').2 (h s' hs').1⟩

theorem upholds_act {f : σ → α × σ} (h : ∀ s', R s s' → I (f s').2 ∧ Q (f s').1 (f s').2) :
    Upholds R I (act f) Q s := h

theorem upholds_read {f : σ → α} (h : ∀ s', R s s' → I s' ∧ Q (f s') s') :
    Upholds R I (read f) Q s := h

theorem upholds_modify {f : σ → σ} {Q : Unit → σ → Prop}
    (h : ∀ s', R s s' → I (f s') ∧ Q () (f s')) : Upholds R I (modify f) Q s := h

theorem upholds_attempt {f : σ → Except Halt (α × σ)}
    (hok : ∀ s' a s'', R s s' → f s' = .ok (a, s'') → I s'' ∧ Q a s'')
    (herror : ∀ s' e, R s s' → f s' = .error e → I s') : Upholds R I (attempt f) Q s := by
  intro s' hs
  dsimp only
  cases hf : f s' with
  | ok r => exact hok s' r.1 r.2 hs hf
  | error e => exact ⟨herror s' e hs hf, trivial⟩

/-- A statement that only looks at the state, and may stop the program. -/
theorem upholds_look {f : σ → Except Halt α} (hs : I s) :
    Upholds Eq I (attempt fun s => (f s).map (·, s)) (fun _ t => t = s) s := by
  refine upholds_attempt ?_ ?_
  · rintro _ a t rfl h
    cases hf : f s with
    | error e =>
      rw [hf] at h
      cases h
    | ok b =>
      rw [hf] at h
      cases h
      exact ⟨hs, rfl⟩
  · rintro _ e rfl -
    exact hs

/-- A loop whose rounds keep an invariant indexed by its counter. -/
theorem upholds_loop (Inv : ℕ → β → σ → Prop) {cond : ℕ → σ → Bool} {body : ℕ → β → Prog σ β}
    {Q : β → σ → Prop} (hR : ∀ i b s t, R s t → Inv i b s → I t ∧ Inv i b t)
    (hbody : ∀ i b s, cond i s = true → Inv i b s → Upholds R I (body i b) (Inv (i + 1)) s)
    (hQ : ∀ i b s, Inv i b s → Q b s) (n i : ℕ) (b : β) (h : Inv i b s) :
    Upholds R I (loop cond body n i b) Q s := by
  induction n generalizing i b s with
  | zero => trivial
  | succ n ih =>
    refine upholds_bind (upholds_act fun s' hs => ⟨(hR i b s s' hs h).1, ?_⟩)
    have h' := (hR i b s s' hs h).2
    dsimp only
    split
    · next hc => exact upholds_bind ((hbody i b s' hc h').mono fun b' t ht => ih (i + 1) b' ht)
    · exact hQ i b s' h'

/-- What the run alone, without a disturbance, is known to lead to. -/
theorem Upholds.and_run (h : Upholds Eq I p Q s) {Q' : α → σ → Prop}
    (h' : ∀ a t, p.run s = .done a t → Q' a t) : Upholds Eq I p (fun a t => Q a t ∧ Q' a t) s := by
  induction p generalizing s with
  | ret a => exact ⟨h, h' a s rfl⟩
  | halt e => trivial
  | step f k ih =>
    rintro _ rfl
    exact ⟨(h s rfl).1, ih s (h s rfl).2 h'⟩

theorem upholds_zoom_set {τ : Type} {l : Lens τ σ} (t : τ) (h : Upholds Eq I p Q s) :
    Upholds Eq (fun t' => ∃ s', t' = l.set t s' ∧ I s') (zoom l p)
      (fun a t' => ∃ s', t' = l.set t s' ∧ Q a s') (l.set t s) := by
  induction p generalizing s with
  | ret a => exact ⟨s, rfl, h⟩
  | halt e => trivial
  | step f k ih =>
    rintro _ rfl
    dsimp only
    rw [l.get_set, l.set_set]
    exact ⟨⟨f s, rfl, (h s rfl).1⟩, ih s (h s rfl).2⟩

/-- A program on a part leaves the rest of the state as it finds it. -/
theorem upholds_zoom {τ : Type} {l : Lens τ σ} {t : τ} (h : Upholds Eq I p Q (l.get t)) :
    Upholds Eq (fun t' => ∃ s', t' = l.set t s' ∧ I s') (zoom l p)
      (fun a t' => ∃ s', t' = l.set t s' ∧ Q a s') t := by
  have hset := upholds_zoom_set (l := l) t h
  rwa [l.set_get] at hset

/-- The same under moves that concern the part as `R'` says, next to something else that
holds of the whole. -/
theorem upholds_zoom_beside {τ : Type} (R' : τ → τ → Prop) {l : Lens τ σ} {t : τ} {F : τ → Prop}
    (hR : ∀ t t', R' t t' → R (l.get t) (l.get t')) (hRF : ∀ t t', R' t t' → F t → F t')
    (hF : ∀ t s, F t → F (l.set t s)) (h : Upholds R I p Q (l.get t)) (ht : F t) :
    Upholds R' (fun t' => I (l.get t') ∧ F t') (zoom l p)
      (fun a t' => Q a (l.get t') ∧ F t') t := by
  induction p generalizing t with
  | ret a => exact ⟨h, ht⟩
  | halt e => trivial
  | step f k ih =>
    intro t' hs
    obtain ⟨hI, hk⟩ := h (l.get t') (hR t t' hs)
    have hF' := hF t' (f (l.get t')) (hRF t t' hs ht)
    refine ⟨⟨by rwa [l.get_set], hF'⟩, ih (l.get t') ?_ hF'⟩
    rwa [l.get_set]

theorem Upholds.run_done (h : Upholds Eq I p Q s) {a : α} (hr : p.run s = .done a t) : Q a t := by
  induction p generalizing s with
  | ret b =>
    cases hr
    exact h
  | halt e => cases hr
  | step f k ih => exact ih s (h s rfl).2 hr

/-- Every state that an undisturbed run brings about. -/
theorem Upholds.trace (h : Upholds Eq I p Q s) : ∀ t ∈ (p.trace s).tail, I t := by
  induction p generalizing s with
  | ret a => exact List.forall_mem_nil _
  | halt e => exact List.forall_mem_nil _
  | step f k ih =>
    change ∀ t ∈ (k s).trace (f s), I t
    have hk := ih s (h s rfl).2
    have hhead := head?_trace (k s) (f s)
    generalize (k s).trace (f s) = l at hk hhead
    cases l with
    | nil => cases hhead
    | cons t l =>
      obtain rfl : t = f s := Option.some.inj hhead
      exact List.forall_mem_cons.mpr ⟨(h s rfl).1, hk⟩

theorem Upholds.ends {a : α} (h : Upholds R I p Q s) (he : Ends R p s a t) : Q a t := by
  induction he with
  | ret a s => exact h
  | step hs _ ih => exact ih (h _ hs).2

theorem ends_of_run {a : α} (hR : ∀ s, R s s) (h : p.run s = .done a t) : Ends R p s a t := by
  induction p generalizing s with
  | ret b =>
    cases h
    exact .ret _ _
  | halt e => cases h
  | step f k ih => exact .step (hR s) (ih s h)

/-- What every statement and every move keeps. -/
theorem Keeps.upholds (hp : Keeps J p) (hR : ∀ s t, R s t → J s → J t) (hI : ∀ s, J s → I s)
    (hs : J s) : Upholds R I p (fun _ => J) s := by
  induction p generalizing s with
  | ret a => exact hs
  | halt e => trivial
  | step f k ih =>
    intro s' hs'
    have hf : J (f s') := (hp s').1 (hR s s' hs' hs)
    exact ⟨hI _ hf, ih s' (hp s').2 hf⟩

/-- A program that keeps `J`, before another. -/
theorem Keeps.upholds_bind {Q : β → σ → Prop} (hp : Keeps J p)
    (hR : ∀ s t, R s t → J s → J t) (hI : ∀ s, J s → I s) (hs : J s)
    (hg : ∀ a t, J t → Upholds R I (g a) Q t) : Upholds R I (p >>= g) Q s :=
  Prog.upholds_bind ((hp.upholds hR hI hs).mono hg)

/-- What holds of the states that a program brings about, and is kept by the moves, holds at
every point. -/
theorem Upholds.reaches (h : Upholds R I p Q s) (hR : ∀ s t, R s t → I s → I t) (hs : I s)
    (ht : Reaches R p s t) : I t := by
  induction ht with
  | here hst => exact hR _ _ hst hs
  | later hst _ ih => exact ih (h _ hst).2 (h _ hst).1

end ExactDaemon.Prog
