import ExactDaemon.Lib.Twin
import ExactDaemon.Lib.Zoom

/-! # How a run ends

`Ends E Q` says that a run returns with `Q`, or stops in one of the ways that `E` allows. So it
says of every run how it ends, of the ones that stop as well.
-/

namespace ExactDaemon

variable {σ τ α β : Type} {E : Halt → Prop} {Q Q' : α → σ → Prop}

namespace Outcome

/-- The run returned with `Q`, or it stopped in a way that `E` allows. -/
def Ends (E : Halt → Prop) (Q : α → σ → Prop) : Outcome σ α → Prop
  | done a s => Q a s
  | halted e _ => E e

variable {o : Outcome σ α}

theorem Ends.mono (h : o.Ends E Q) (hQ : ∀ a t, Q a t → Q' a t) : o.Ends E Q' := by
  cases o with
  | done a t => exact hQ a t h
  | halted e t => exact h

theorem Ends.and (h : o.Ends E Q) (h' : ∀ a t, o = .done a t → Q' a t) :
    o.Ends E fun a t => Q a t ∧ Q' a t := by
  cases o with
  | done a t => exact ⟨h, h' a t rfl⟩
  | halted e t => exact h

theorem Ends.of_done {a : α} {t : σ} (h : o.Ends E Q) (ho : o = .done a t) : Q a t := by
  rw [ho] at h
  exact h

theorem Ends.of_error {e : Halt} (h : o.Ends E Q) (ho : o.result = .error e) : E e := by
  cases o with
  | done a t => cases ho
  | halted e' t =>
    obtain rfl : e' = e := Except.error.inj ho
    exact h

theorem returned_eq_some {t : σ} : o.returned = some t ↔ ∃ a, o = .done a t := by
  cases o with
  | done a s => exact ⟨fun h => ⟨a, congrArg _ (Option.some.inj h)⟩, by rintro ⟨_, ⟨⟩⟩; rfl⟩
  | halted e s => exact ⟨nofun, nofun⟩

end Outcome

namespace Prog

variable {p : Prog σ α} {s : σ}

theorem ends_bind {g : α → Prog σ β} {R : β → σ → Prop} :
    ((p >>= g).run s).Ends E R ↔
      (p.run s).Ends E fun a t => ((g a).run t).Ends E R := by
  rw [run_bind]
  cases p.run s <;> rfl

theorem ends_attempt {f : σ → Except Halt (α × σ)} (hok : ∀ a t, f s = .ok (a, t) → Q a t)
    (herror : ∀ e, f s = .error e → E e) : ((attempt f).run s).Ends E Q := by
  rw [run_attempt]
  cases hf : f s with
  | ok r => exact hok r.1 r.2 hf
  | error e => exact herror e hf

theorem ends_zoom {l : Lens τ σ} {t : τ} {R : α → τ → Prop}
    (h : (p.run (l.get t)).Ends E fun a s => R a (l.set t s)) : ((zoom l p).run t).Ends E R := by
  rw [run_zoom]
  cases hr : p.run (l.get t) <;> rw [hr] at h <;> exact h

/-- A program that looks like another one ends as that one does. -/
theorem Erases.ends {f : τ → σ} {q : Prog τ α} {t : τ} (hq : Erases f q p)
    (h : (p.run (f t)).Ends E Q) : (q.run t).Ends E fun a t => Q a (f t) := by
  rw [← hq t] at h
  cases hr : q.run t <;> rw [hr] at h <;> exact h

/-- Checks that leave the state alone. If one of them stops the run, it does so in an allowed
way; otherwise all of them were passed. -/
theorem ends_forM {f : α → σ → Except Halt (Unit × σ)} {R : PUnit → σ → Prop}
    (hsame : ∀ a s u t, f a s = .ok (u, t) → t = s) {l : List α}
    (herror : ∀ a ∈ l, ∀ e, f a s = .error e → E e)
    (h : (∀ a ∈ l, f a s = .ok ((), s)) → R () s) :
    ((l.forM fun a => attempt (f a)).run s).Ends E R := by
  induction l with
  | nil => exact h (List.forall_mem_nil _)
  | cons a l ih =>
    change ((attempt (f a) >>= fun _ => l.forM fun a => attempt (f a)).run s).Ends E R
    refine ends_bind.mpr (ends_attempt (fun u t hf => ?_) (herror a List.mem_cons_self))
    obtain rfl := hsame _ _ _ _ hf
    exact ih (fun b hb => herror b (List.mem_cons_of_mem a hb)) fun hall =>
      h (List.forall_mem_cons.mpr ⟨hf, hall⟩)

end Prog

end ExactDaemon
