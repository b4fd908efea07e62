import ExactDaemon.Conf.Accepted

/-! # What the lines of a configuration file define

The loop of `conffile_read` looks at nothing but the file and the parameters so far. What
it leaves of them is computed here line by line.
-/

namespace ExactDaemon

open Prog

/-- The parameters after the first `k` of the lines to come, or after all of them. -/
def Conf.readLines (lib : RegexLib) : ℕ → Reader → Conf → Except Halt Conf
  | 0, _, cf => .ok cf
  | k + 1, f, cf =>
    match f.fgets 1023 with
    | (none, _) => .ok cf
    | (some s, f) =>
      match Conf.readLine lib s cf with
      | .error e => .error e
      | .ok cf => Conf.readLines lib k f cf

variable {lib : RegexLib} {f f' : Reader} {cf cf' cf'' : Conf} {s : Bytes} {k n : ℕ}
  {w u v : World} {name val : CStr}

/-- The parameters of the first configuration are a beginning of those of the second. -/
def Conf.Before (cf cf' : Conf) : Prop := cf.param <+: cf'.param

theorem Conf.readLines_of_none (h : (f.fgets 1023).1 = none) :
    Conf.readLines lib k f cf = .ok cf := by
  cases k with
  | zero => rfl
  | succ k =>
    rw [Conf.readLines]
    split
    · rfl
    · next hs =>
      rw [hs] at h
      cases h

theorem Conf.readLines_succ (h : f.fgets 1023 = (some s, f'))
    (hr : Conf.readLine lib s cf = .ok cf') :
    Conf.readLines lib (k + 1) f cf = Conf.readLines lib k f' cf' := by
  rw [Conf.readLines, h]
  simp only [hr]

/-- There is no line, or the first one is read and then the others. -/
theorem Conf.readLines_succ_ok (h : Conf.readLines lib (k + 1) f cf = .ok cf') :
    ((f.fgets 1023).1 = none ∧ cf' = cf) ∨
      ∃ s f₁ cf₁, f.fgets 1023 = (some s, f₁) ∧ Conf.readLine lib s cf = .ok cf₁ ∧
        Conf.readLines lib k f₁ cf₁ = .ok cf' := by
  rw [Conf.readLines] at h
  split at h
  · next hf =>
    cases h
    exact .inl ⟨congrArg Prod.fst hf, rfl⟩
  · next s f₁ hf =>
    split at h
    · cases h
    · next cf₁ hr => exact .inr ⟨s, f₁, cf₁, hf, hr, h⟩

theorem add_before {p : Param} (h : cf.add p = .ok cf') : cf.Before cf' := by
  unfold Conf.add at h
  split at h <;> cases h
  exact ⟨_, rfl⟩

theorem readLine_before (h : Conf.readLine lib s cf = .ok cf') : cf.Before cf' := by
  simp only [Conf.readLine] at h
  split at h
  · cases h
  split at h
  · cases h
    exact List.prefix_rfl
  split at h
  · cases h
  split at h
  · split at h
    · obtain ⟨name, -, hvalue⟩ := ok_of_bind h
      obtain ⟨value, -, hadd⟩ := ok_of_bind hvalue
      exact add_before hadd
    · cases h
      exact List.prefix_rfl
  · cases h
    exact List.prefix_rfl

theorem readLines_before (h : Conf.readLines lib k f cf = .ok cf') : cf.Before cf' := by
  induction k generalizing f cf with
  | zero =>
    cases h
    exact List.prefix_rfl
  | succ k ih =>
    rcases Conf.readLines_succ_ok h with ⟨-, rfl⟩ | ⟨s, f₁, cf₁, -, hr, h₁⟩
    · exact List.prefix_rfl
    · exact (readLine_before hr).trans (ih h₁)

/-- More lines define what fewer lines define. -/
theorem readLines_mono (hkn : k ≤ n) (h : Conf.readLines lib k f cf = .ok cf')
    (h' : Conf.readLines lib n f cf = .ok cf'') : cf'.Before cf'' := by
  induction k generalizing n f cf with
  | zero =>
    cases h
    exact readLines_before h'
  | succ k ih =>
    obtain ⟨n, rfl⟩ : ∃ m, n = m + 1 := ⟨n - 1, by omega⟩
    rcases Conf.readLines_succ_ok h with ⟨hf, rfl⟩ | ⟨s, f₁, cf₁, hf, hr, h₁⟩
    · exact readLines_before h'
    · rw [Conf.readLines_succ hf hr] at h'
      exact ih (by omega) h₁ h'

/-! ### The loop alone -/

theorem readLines_of_conffileLines (h : (conffileLines lib n f).run w = .done () u) :
    Conf.readLines lib n f w.conf = .ok u.conf ∧ u = w.withParam u.conf.param := by
  induction n generalizing f w with
  | zero => cases h
  | succ n ih =>
    rw [conffileLines] at h
    split at h
    · next hf =>
      cases h
      exact ⟨Conf.readLines_of_none (congrArg Prod.fst hf), rfl⟩
    · next s f' hf =>
      obtain ⟨_, w₁, hw₁, hrest⟩ := done_of_bind h
      have hline := attempt_done hw₁
      unfold World.onConf at hline
      cases hr : Conf.readLine lib s w.conf with
      | error e =>
        rw [hr] at hline
        cases hline
      | ok cf =>
        rw [hr] at hline
        cases hline
        obtain ⟨hl, hu⟩ := ih hrest
        refine ⟨(Conf.readLines_succ hf hr).trans hl, ?_⟩
        have hw : ({ w with conf := cf } : World) = w.withParam cf.param := by
          rw [readLine_param hr]
          rfl
        rw [hu, hw]
        rfl

theorem readLines_of_conffileRead (h : (conffileRead lib).run w = .done () u) :
    ∃ text, w.fs.contents w.conf.filename = some text ∧
      Conf.readLines lib (text.length + 1) ⟨text, false⟩ w.conf = .ok u.conf := by
  obtain ⟨f, w₁, hw₁, hlines⟩ := done_of_bind h
  cases hw₁
  dsimp only at hlines
  cases htext : w.fs.contents w.conf.filename with
  | none =>
    rw [htext] at hlines
    cases hlines
  | some text =>
    rw [htext] at hlines
    exact ⟨text, rfl, (readLines_of_conffileLines hlines).1⟩

/-! ### The whole reading -/

/-- What the check adds to the parameters of the file. -/
theorem param_of_readCheck (h : (readCheck lib).run w = .done () u) :
    ∃ s o p, (conffileRead lib).run w = .done () s ∧
      u.conf.param = s.conf.param ++ [⟨cstr "order", o, true⟩, ⟨cstr "match", p, true⟩] := by
  rw [readCheck_eq] at h
  obtain ⟨sd, s, hparams, hserver⟩ := done_of_bind h
  obtain ⟨_, s₀, hread, hchecks⟩ := done_of_bind hparams
  obtain ⟨_, s₁, hs₁, hints⟩ := done_of_bind hchecks
  obtain ⟨_, s₂, hs₂, hs⟩ := done_of_bind hints
  obtain ⟨rfl, -⟩ := forM_done (fun _ _ _ _ => require_same) hs₁
  obtain ⟨rfl, -⟩ := forM_done (fun _ _ _ _ => requireInt_same) hs₂
  obtain rfl := derefParam_same (attempt_done hs)
  obtain ⟨sec, s₃, hs₃, hadd⟩ := done_of_bind hserver
  have hconf := serverSection_conf (attempt_done hs₃)
  obtain ⟨_, s₄, hs₄, hadd'⟩ := done_of_bind hadd
  obtain ⟨o, -, ho⟩ := addLiteral_done (attempt_done hs₄)
  obtain ⟨_, s₅, hs₅, horder⟩ := done_of_bind hadd'
  obtain ⟨p, -, hp⟩ := addLiteral_done (attempt_done hs₅)
  obtain ⟨_, s₆, hs₆, htype⟩ := done_of_bind horder
  obtain rfl := oneOf_same (attempt_done hs₆)
  obtain rfl := oneOf_same (attempt_done htype)
  refine ⟨s, o, p, hread, ?_⟩
  rw [hp, ho, hconf, List.append_assoc]
  rfl

end ExactDaemon
