import ExactDaemon.Lib.Weave

/-! # Programs on a part of the state

A part of a state can be read and replaced. A program on the part is a program on the whole,
and leaves the rest of it alone. A program on the whole may do on the part what another
program does.
-/

namespace ExactDaemon

/-- A part of a state. -/
structure Lens (τ σ : Type) where
  get : τ → σ
  set : τ → σ → τ
  get_set : ∀ t s, get (set t s) = s
  set_get : ∀ t, set t (get t) = t
  set_set : ∀ t s s', set (set t s) s' = set t s'

/-- A part of a part. -/
def Lens.comp {τ σ ρ : Type} (l : Lens τ σ) (l' : Lens σ ρ) : Lens τ ρ where
  get t := l'.get (l.get t)
  set t r := l.set t (l'.set (l.get t) r)
  get_set t r := by rw [l.get_set, l'.get_set]
  set_get t := by rw [l'.set_get, l.set_get]
  set_set t r r' := by rw [l.get_set, l.set_set, l'.set_set]

variable {τ σ α β : Type} {l : Lens τ σ} {t : τ}

/-- What a run on the part leaves of the whole. -/
def Outcome.inside (l : Lens τ σ) (t : τ) : Outcome σ α → Outcome τ α
  | done a s => done a (l.set t s)
  | halted e s => halted e (l.set t s)

/-- What a run leaves, to one who sees of the state only what `f` shows. -/
def Outcome.mapState (f : τ → σ) : Outcome τ α → Outcome σ α
  | done a t => done a (f t)
  | halted e t => halted e (f t)

theorem Outcome.mapState_eq_done {f : τ → σ} {o : Outcome τ α} {a : α} {s : σ}
    (h : o.mapState f = .done a s) : ∃ t, o = .done a t ∧ f t = s := by
  cases o with
  | done b t =>
    cases h
    exact ⟨t, rfl, rfl⟩
  | halted e t => cases h

theorem Outcome.state_inside (o : Outcome σ α) : (o.inside l t).state = l.set t o.state := by
  cases o <;> rfl

namespace Prog

def zoom (l : Lens τ σ) : Prog σ α → Prog τ α
  | ret a => ret a
  | halt e => halt e
  | step f k => step (fun t => l.set t (f (l.get t))) fun t => zoom l (k (l.get t))

theorem run_zoom (p : Prog σ α) (t : τ) : (zoom l p).run t = (p.run (l.get t)).inside l t := by
  induction p generalizing t with
  | ret a => exact congrArg (Outcome.done a) (l.set_get t).symm
  | halt e => exact congrArg (Outcome.halted e) (l.set_get t).symm
  | step f k ih =>
    change (zoom l (k (l.get t))).run (l.set t (f (l.get t))) = _
    rw [ih, l.get_set, run_step]
    cases (k (l.get t)).run (f (l.get t)) <;> simp only [Outcome.inside, l.set_set]

theorem run_zoom_bind {p : Prog σ α} {g : α → Prog τ β} {a : α} {s : σ}
    (h : p.run (l.get t) = .done a s) : (zoom l p >>= g).run t = (g a).run (l.set t s) := by
  rw [run_bind, run_zoom, h]
  rfl

/-- A program on the part that changes nothing. -/
theorem run_zoom_same {p : Prog σ α} {g : α → Prog τ β} {a : α}
    (h : p.run (l.get t) = .done a (l.get t)) : (zoom l p >>= g).run t = (g a).run t := by
  rw [run_zoom_bind h, l.set_get]

theorem done_of_zoom {p : Prog σ α} {a : α} {t' : τ} (h : (zoom l p).run t = .done a t') :
    ∃ s, p.run (l.get t) = .done a s ∧ t' = l.set t s := by
  rw [run_zoom] at h
  cases hs : p.run (l.get t) with
  | halted e s =>
    rw [hs] at h
    cases h
  | done b s =>
    rw [hs] at h
    cases h
    exact ⟨s, rfl, rfl⟩

theorem zoom_bind (p : Prog σ α) (g : α → Prog σ β) :
    zoom l (p >>= g) = zoom l p >>= fun a => zoom l (g a) := by
  change zoom l (p.bind g) = (zoom l p).bind fun a => zoom l (g a)
  induction p with
  | ret a => rfl
  | halt e => rfl
  | step f k ih => exact congrArg (step _) (funext fun t => ih (l.get t))

theorem zoom_zoom {ρ : Type} {l' : Lens σ ρ} (p : Prog ρ α) :
    zoom l (zoom l' p) = zoom (l.comp l') p := by
  induction p with
  | ret a => rfl
  | halt e => rfl
  | step f k ih => exact congrArg (step _) (funext fun t => ih _)

theorem zoom_read (f : σ → α) : zoom l (read f) = read fun t => f (l.get t) :=
  congrArg (step · _) (funext l.set_get)

theorem zoom_ite {c : Prop} [Decidable c] (p q : Prog σ α) :
    zoom l (if c then p else q) = if c then zoom l p else zoom l q := by
  split <;> rfl

theorem zoom_loop (cond : ℕ → σ → Bool) (body : ℕ → β → Prog σ β)
    (n i : ℕ) (b : β) : zoom l (loop cond body n i b) =
      loop (fun i t => cond i (l.get t)) (fun i b => zoom l (body i b)) n i b := by
  induction n generalizing i b with
  | zero => rfl
  | succ n ih =>
    unfold loop
    rw [zoom_bind, zoom_read]
    refine congrArg _ (funext fun go => ?_)
    cases go with
    | false => rfl
    | true => exact (zoom_bind _ _).trans (congrArg _ (funext fun b' => ih (i + 1) b'))

/-- A program on the part keeps what does not look at the part. -/
theorem keeps_zoom {J : τ → Prop} (hJ : ∀ t s, J t → J (l.set t s)) (p : Prog σ α) :
    Keeps J (zoom l p) := by
  induction p with
  | ret a => trivial
  | halt e => trivial
  | step f k ih => exact fun t => ⟨hJ t _, ih (l.get t)⟩

/-- A program on the part keeps what it keeps of the part. -/
theorem Keeps.zoom {J : σ → Prop} {p : Prog σ α} (hp : Keeps J p) :
    Keeps (fun t => J (l.get t)) (zoom l p) := by
  induction p with
  | ret a => trivial
  | halt e => trivial
  | step f k ih =>
    intro t
    refine ⟨fun ht => ?_, ih (l.get t) (hp (l.get t)).2⟩
    change J (l.get (l.set t _))
    rw [l.get_set]
    exact (hp (l.get t)).1 ht

/-! ### Forgetting the rest -/

/-- To one who sees of the state only what `f` shows, `p` runs as `q` does. -/
def Erases (f : τ → σ) (p : Prog τ α) (q : Prog σ α) : Prop :=
  ∀ t, (p.run t).mapState f = q.run (f t)

section Erases

variable {f : τ → σ} {p : Prog τ α} {q : Prog σ α}

theorem erases_pure (a : α) : Erases f (pure a) (pure a) := fun _ => rfl

theorem erases_halt (e : Halt) : Erases f (halt e : Prog τ α) (halt e) := fun _ => rfl

theorem erases_read {g : τ → α} {h : σ → α} (hg : ∀ t, g t = h (f t)) :
    Erases f (read g) (read h) := fun t => congrArg (Outcome.done · (f t)) (hg t)

theorem erases_modify {g : τ → τ} {h : σ → σ} (hg : ∀ t, f (g t) = h (f t)) :
    Erases f (modify g) (modify h) := fun t => congrArg (Outcome.done ()) (hg t)

theorem erases_attempt {g : τ → Except Halt (α × τ)} {h : σ → Except Halt (α × σ)}
    (hg : ∀ t, (g t).map (fun r => (r.1, f r.2)) = h (f t)) :
    Erases f (attempt g) (attempt h) := by
  intro t
  rw [run_attempt, run_attempt, ← hg t]
  cases g t <;> rfl

theorem erases_zoom (q : Prog σ α) : Erases l.get (zoom l q) q := by
  intro t
  rw [run_zoom]
  cases q.run (l.get t) with
  | done a s => exact congrArg (Outcome.done a) (l.get_set t s)
  | halted e s => exact congrArg (Outcome.halted e) (l.get_set t s)

theorem Erases.run_done (h : Erases f p q) {t : τ} {a : α} {s : σ}
    (hr : q.run (f t) = .done a s) : ∃ t', p.run t = .done a t' ∧ f t' = s := by
  rw [← h t] at hr
  cases hp : p.run t with
  | done b t' =>
    rw [hp] at hr
    obtain ⟨rfl, rfl⟩ := Outcome.done.inj hr
    exact ⟨t', rfl, rfl⟩
  | halted e t' =>
    rw [hp] at hr
    cases hr

theorem Erases.bind {g : α → Prog τ β} {h : α → Prog σ β} (hp : Erases f p q)
    (hg : ∀ a, Erases f (g a) (h a)) : Erases f (p >>= g) (q >>= h) := by
  intro t
  rw [run_bind, run_bind, ← hp t]
  cases p.run t with
  | done a t' => exact hg a t'
  | halted e t' => rfl

/-- One run of `p` looks like one of `q`, if this is so of what comes after the states that
the beginning leaves. -/
theorem mapState_bind {g : α → Prog τ β} {h : α → Prog σ β} {I : τ → Prop} {t : τ}
    (hp : (p.run t).mapState f = q.run (f t)) (hI : ∀ a t', p.run t = .done a t' → I t')
    (hg : ∀ a t', I t' → ((g a).run t').mapState f = (h a).run (f t')) :
    ((p >>= g).run t).mapState f = (q >>= h).run (f t) := by
  rw [run_bind, run_bind, ← hp]
  cases hr : p.run t with
  | done a t' => exact hg a t' (hI a t' hr)
  | halted e t' => rfl

theorem erases_ite {c : Prop} [Decidable c] {p' : Prog τ α} {q' : Prog σ α} (hp : Erases f p q)
    (hp' : Erases f p' q') : Erases f (if c then p else p') (if c then q else q') := by
  split
  · exact hp
  · exact hp'

/-- A statement of which nothing is shown. -/
theorem Erases.skip {g : τ → τ} {p : Unit → Prog τ α} (hg : ∀ t, f (g t) = f t)
    (hp : Erases f (p ()) q) : Erases f (modify g >>= p) q := by
  intro t
  rw [run_bind, run_modify, Outcome.bind_done, hp, hg]

theorem erases_loop {c : ℕ → τ → Bool} {c' : ℕ → σ → Bool} {b : ℕ → β → Prog τ β}
    {b' : ℕ → β → Prog σ β} (hc : ∀ i t, c i t = c' i (f t))
    (hb : ∀ i x, Erases f (b i x) (b' i x)) (n i : ℕ) (x : β) :
    Erases f (loop c b n i x) (loop c' b' n i x) := by
  induction n generalizing i x with
  | zero => exact erases_halt _
  | succ n ih =>
    refine (erases_read (hc i)).bind fun go => ?_
    cases go with
    | false => exact erases_pure x
    | true => exact (hb i x).bind fun y => ih (i + 1) y

end Erases

end Prog

end ExactDaemon
