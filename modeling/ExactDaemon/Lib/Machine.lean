import Mathlib.Data.List.Basic

/-! # Runs of a machine

A machine takes one event after another, and not every event is possible in every state.
A run may be asked to meet a condition before each of its steps.
-/

namespace ExactDaemon

variable {σ ε : Type}

/-- The machine `step` goes from the first state to the last, and `ok` holds of each state
and the event that comes next. -/
inductive Run (step : σ → ε → Option σ) (ok : σ → ε → Prop) : σ → List ε → σ → Prop where
  | nil {s : σ} : Run step ok s [] s
  | cons {s t u : σ} {e : ε} {es : List ε} :
      ok s e → step s e = some t → Run step ok t es u → Run step ok s (e :: es) u

/-- Any run, whatever comes next. -/
abbrev Runs (step : σ → ε → Option σ) : σ → List ε → σ → Prop := Run step fun _ _ => True

/-- The state after these events. -/
def exec (step : σ → ε → Option σ) (s : σ) (es : List ε) : Option σ := es.foldlM step s

variable {step : σ → ε → Option σ} {ok : σ → ε → Prop} {s t u : σ} {e : ε} {es fs : List ε}

theorem runs_iff : Runs step s es u ↔ exec step s es = some u := by
  unfold exec
  induction es generalizing s with
  | nil =>
    constructor
    · intro h
      cases h
      rfl
    · intro h
      cases h
      exact .nil
  | cons e es ih =>
    rw [List.foldlM_cons]
    constructor
    · intro h
      cases h with
      | cons _ hs hr =>
        rw [hs]
        exact ih.mp hr
    · intro h
      obtain ⟨t, ht, hu⟩ := Option.bind_eq_some_iff.mp h
      exact .cons trivial ht (ih.mpr hu)

namespace Run

theorem mono {ok' : σ → ε → Prop} (hok : ∀ s e, ok s e → ok' s e) (h : Run step ok s es u) :
    Run step ok' s es u := by
  induction h with
  | nil => exact .nil
  | cons hs ht _ ih => exact .cons (hok _ _ hs) ht ih

theorem append (h : Run step ok s es t) (h' : Run step ok t fs u) :
    Run step ok s (es ++ fs) u := by
  induction h with
  | nil => exact h'
  | cons hs ht _ ih => exact .cons hs ht (ih h')

/-- What every step that meets the condition keeps holds at the end of the run. -/
theorem invariant {I : σ → Prop}
    (hI : ∀ s e t, ok s e → step s e = some t → I s → I t) (h : Run step ok s es u)
    (hs : I s) : I u := by
  induction h with
  | nil => exact hs
  | cons ho ht _ ih => exact ih (hI _ _ _ ho ht hs)

end Run

end ExactDaemon
