import Mathlib.Data.List.Induction
import Mathlib.Data.Int.Order.Basic
import Mathlib.Logic.Function.Basic

/-! # Leases

A lease table maps keys to the times they were last granted. Granting overwrites
the time, and a cleaning drops what is older than a timeout. With clocks that do
not run backwards, what a cleaning leaves depends on the grants alone.
-/

namespace ExactDaemon.Lease

variable {κ : Type} [DecidableEq κ]

inductive Event (κ : Type) where
  | add (k : κ)
  | clean
  deriving DecidableEq, Repr

def step (timeout : ℤ) (m : κ → Option ℤ) : ℤ × Event κ → κ → Option ℤ
  | (c, .add k) => Function.update m k (some c)
  | (c, .clean) => fun k => (m k).filter fun t => c - t < timeout

/-- The leases after a history of events, each with the clock at which it happened. -/
def after (timeout : ℤ) (es : List (ℤ × Event κ)) : κ → Option ℤ :=
  es.foldl (step timeout) fun _ => none

def latest (k : κ) (last : Option ℤ) : ℤ × Event κ → Option ℤ
  | (c, .add k') => if k' = k then some c else last
  | (_, .clean) => last

/-- When the key was last granted. -/
def lastAdd (es : List (ℤ × Event κ)) (k : κ) : Option ℤ := es.foldl (latest k) none

def IsAdd (e : ℤ × Event κ) : Bool := e.2 ≠ .clean

/-- The clock does not run backwards. -/
def Chronological (es : List (ℤ × Event κ)) : Prop := es.Pairwise fun a b => a.1 ≤ b.1

variable {timeout : ℤ} {es es' pre post : List (ℤ × Event κ)} {e : ℤ × Event κ} {k : κ} {c t : ℤ}

@[simp] theorem after_nil : after timeout ([] : List (ℤ × Event κ)) = fun _ => none := rfl

@[simp] theorem lastAdd_nil : lastAdd ([] : List (ℤ × Event κ)) k = none := rfl

theorem after_concat : after timeout (es ++ [e]) = step timeout (after timeout es) e := by
  rw [after, List.foldl_append]; rfl

theorem lastAdd_concat : lastAdd (es ++ [e]) k = latest k (lastAdd es k) e := by
  rw [lastAdd, List.foldl_append]; rfl

theorem after_concat_clean :
    after timeout (es ++ [(c, .clean)]) k =
      (after timeout es k).filter fun t => c - t < timeout := by
  rw [after_concat]; rfl

/-- A lease holds the time of the last grant. -/
theorem lastAdd_of_after (h : after timeout es k = some t) : lastAdd es k = some t := by
  induction es using List.reverseRecOn with
  | nil => simp at h
  | append_singleton es e ih =>
    obtain ⟨c, e⟩ := e
    rw [after_concat] at h
    rw [lastAdd_concat]
    cases e with
    | add k' =>
      by_cases hk : k' = k
      · subst hk
        simpa [step, latest] using h
      · rw [step, Function.update_of_ne (Ne.symm hk)] at h
        rw [latest, if_neg hk, ih h]
    | clean => exact ih (Option.filter_eq_some_iff.mp h).1

/-- A lease is lost only when some event found it expired. -/
theorem expired_of_after (h : lastAdd es k = some t) (hn : after timeout es k = none) :
    ∃ e ∈ es, timeout ≤ e.1 - t := by
  induction es using List.reverseRecOn with
  | nil => simp at h
  | append_singleton es e ih =>
    obtain ⟨c, e⟩ := e
    rw [after_concat] at hn
    rw [lastAdd_concat] at h
    cases e with
    | add k' =>
      by_cases hk : k' = k
      · subst hk
        simp [step] at hn
      · rw [step, Function.update_of_ne (Ne.symm hk)] at hn
        rw [latest, if_neg hk] at h
        obtain ⟨e, he, hle⟩ := ih h hn
        exact ⟨e, List.mem_append_left _ he, hle⟩
    | clean =>
      cases ha : after timeout es k with
      | none =>
        obtain ⟨e, he, hle⟩ := ih h ha
        exact ⟨e, List.mem_append_left _ he, hle⟩
      | some u =>
        obtain rfl : u = t := Option.some.inj ((lastAdd_of_after ha).symm.trans h)
        refine ⟨(c, .clean), by simp, ?_⟩
        simpa [step, ha] using hn

/-- As long as the last grant is within the timeout, the lease is there. -/
theorem isSome_after_of_live {now : ℤ} (hnow : ∀ e ∈ es, e.1 ≤ now)
    (h : lastAdd es k = some t) (hl : now - t < timeout) : (after timeout es k).isSome := by
  by_contra hn
  obtain ⟨e, he, hle⟩ := expired_of_after h (Option.not_isSome_iff_eq_none.mp hn)
  have := hnow e he
  omega

/-- What a cleaning leaves depends on the last grants and its clock alone. -/
theorem isSome_after_clean_iff (hc : Chronological (es ++ [(c, .clean)])) :
    (after timeout (es ++ [(c, .clean)]) k).isSome ↔
      ∃ t, lastAdd es k = some t ∧ c - t < timeout := by
  have hle : ∀ e ∈ es, e.1 ≤ c := fun e he =>
    (List.pairwise_append.mp hc).2.2 e he (c, .clean) (by simp)
  rw [after_concat_clean, Option.isSome_iff_exists]
  constructor
  · rintro ⟨t, ht⟩
    obtain ⟨ha, hl⟩ := Option.filter_eq_some_iff.mp ht
    exact ⟨t, lastAdd_of_after ha, by simpa using hl⟩
  · rintro ⟨t, ht, hl⟩
    obtain ⟨u, hu⟩ := Option.isSome_iff_exists.mp (isSome_after_of_live hle ht hl)
    obtain rfl : u = t := Option.some.inj ((lastAdd_of_after hu).symm.trans ht)
    exact ⟨u, Option.filter_eq_some_iff.mpr ⟨hu, by simpa using hl⟩⟩

/-- Between two grants of a key its lease can only be dropped. -/
theorem isSome_after_append (h : (after timeout (pre ++ post) k).isSome) :
    (∃ c', (c', .add k) ∈ post) ∨ (after timeout pre k).isSome := by
  induction post using List.reverseRecOn with
  | nil => exact Or.inr (by simpa using h)
  | append_singleton post e ih =>
    obtain ⟨c', e⟩ := e
    rw [← List.append_assoc, after_concat] at h
    have hprev : (∃ c'', e = .add k ∧ c'' = c') ∨ (after timeout (pre ++ post) k).isSome := by
      cases e with
      | add k' =>
        by_cases hk : k' = k
        · exact Or.inl ⟨c', by rw [hk], rfl⟩
        · rw [step, Function.update_of_ne (Ne.symm hk)] at h
          exact Or.inr h
      | clean =>
        obtain ⟨t, ht⟩ := Option.isSome_iff_exists.mp h
        exact Or.inr (Option.isSome_iff_exists.mpr ⟨t, (Option.filter_eq_some_iff.mp ht).1⟩)
    rcases hprev with ⟨c'', rfl, rfl⟩ | hs
    · exact Or.inl ⟨c'', by simp⟩
    · rcases ih hs with ⟨c'', hm⟩ | hp
      · exact Or.inl ⟨c'', List.mem_append_left _ hm⟩
      · exact Or.inr hp

/-- A lease that is there was granted after the last cleaning, or survived it. -/
theorem isSome_after_since_clean
    (h : (after timeout (pre ++ (c, .clean) :: post) k).isSome) :
    (∃ c', (c', .add k) ∈ post) ∨ ∃ t, lastAdd pre k = some t ∧ c - t < timeout := by
  rw [← List.singleton_append, ← List.append_assoc] at h
  rcases isSome_after_append h with hp | hs
  · exact Or.inl hp
  · obtain ⟨t, ht⟩ := Option.isSome_iff_exists.mp hs
    rw [after_concat_clean] at ht
    obtain ⟨ha, hl⟩ := Option.filter_eq_some_iff.mp ht
    exact Or.inr ⟨t, lastAdd_of_after ha, by simpa using hl⟩

theorem lastAdd_filter_isAdd (es : List (ℤ × Event κ)) (k : κ) :
    lastAdd (es.filter IsAdd) k = lastAdd es k := by
  induction es using List.reverseRecOn with
  | nil => rfl
  | append_singleton es e ih =>
    obtain ⟨c, e⟩ := e
    rw [lastAdd_concat, List.filter_append]
    cases e with
    | add k' =>
      have he : [(c, Event.add k')].filter IsAdd = [(c, .add k')] := rfl
      rw [he, lastAdd_concat, ih]
    | clean =>
      have he : [(c, (Event.clean : Event κ))].filter IsAdd = [] := rfl
      rw [he, List.append_nil, ih]; rfl

/-- Cleanings before the last one do not matter. -/
theorem isSome_after_clean_congr (hc : Chronological (es ++ [(c, .clean)]))
    (hc' : Chronological (es' ++ [(c, .clean)])) (h : es.filter IsAdd = es'.filter IsAdd) :
    (after timeout (es ++ [(c, .clean)]) k).isSome ↔
      (after timeout (es' ++ [(c, .clean)]) k).isSome := by
  rw [isSome_after_clean_iff hc, isSome_after_clean_iff hc', ← lastAdd_filter_isAdd es, h,
    lastAdd_filter_isAdd]

/-! ### How old a lease can be -/

/-- When the last cleaning was, or the start when there was none. -/
def lastClean (start : ℤ) (es : List (ℤ × Event κ)) : ℤ :=
  es.foldl (fun last e => if IsAdd e then last else e.1) start

@[simp] theorem lastClean_nil (start : ℤ) : lastClean start ([] : List (ℤ × Event κ)) = start := rfl

theorem lastClean_concat_add (start : ℤ) :
    lastClean start (es ++ [(c, .add k)]) = lastClean start es := by
  rw [lastClean, List.foldl_append]; rfl

theorem lastClean_concat_clean (start : ℤ) : lastClean start (es ++ [(c, .clean)]) = c := by
  rw [lastClean, List.foldl_append]; rfl

theorem lastClean_of_adds (start : ℤ) (h : ∀ e ∈ es', IsAdd e = true) :
    lastClean start (es ++ es') = lastClean start es := by
  induction es' using List.reverseRecOn with
  | nil => rw [List.append_nil]
  | append_singleton es' e ih =>
    obtain ⟨c, e⟩ := e
    cases e with
    | add k =>
      rw [← List.append_assoc, lastClean_concat_add]
      exact ih fun e he => h e (List.mem_append_left _ he)
    | clean => cases h (c, .clean) (by simp)

end ExactDaemon.Lease
