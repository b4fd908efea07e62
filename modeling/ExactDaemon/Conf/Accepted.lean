import ExactDaemon.Conf.Reload

/-! # What an accepted configuration has

`conffile_check` returns only if the parameters that it looks for are there. Parameters
are only appended, so what was found once is found from then on.
-/

namespace ExactDaemon

open Prog

/-- The value is one of two. -/
def OneOf (v v₁ v₂ : CStr) : Prop := v = v₁ ∨ v = v₂

/-- What `conffile_check` has found when it returns. -/
structure World.Accepted (w : World) : Prop where
  required : ∀ name ∈ requiredS.take 6, ∃ v, w.conffileParam name = some v
  numbers : ∀ name ∈ requiredI, ∃ v, w.conffileParam name = some v ∧ atoi v ≠ 0
  order : ∃ v, w.conffileParam (cstr "order") = some v ∧
    OneOf v (cstr "username,address") (cstr "address,username")
  pattern : ∃ v, w.conffileParam (cstr "match") = some v
  authtype : ∃ v, w.conffileParam (cstr "authtype") = some v ∧ OneOf v (cstr "db") (cstr "text")
  literal : ∃ p ∈ w.conf.param, p.literal = true

variable {lib : RegexLib} {w s t u : World} {name v : CStr} {e : Halt}

/-! ### Appended parameters -/

/-- The parameters of the first state are a beginning of those of the second. -/
def World.Extends (w s : World) : Prop := w.conf.param <+: s.conf.param

theorem World.Extends.refl (w : World) : w.Extends w := List.prefix_rfl

theorem World.Extends.trans (h : w.Extends s) (h' : s.Extends t) : w.Extends t :=
  List.IsPrefix.trans h h'

theorem World.Extends.conffileParam (h : w.Extends s) (hv : w.conffileParam name = some v) :
    s.conffileParam name = some v := by
  obtain ⟨l, hl⟩ := h
  unfold World.conffileParam at hv ⊢
  obtain ⟨p, hp, rfl⟩ := Option.map_eq_some_iff.mp hv
  rw [← hl, List.find?_append, hp]
  rfl

/-- A parameter that is appended is there, under its name or behind another of that name. -/
theorem World.conffileParam_isSome {p : Param} (hp : p ∈ w.conf.param) (hname : p.name = name) :
    ∃ v, w.conffileParam name = some v := by
  have hs : (w.conf.param.find? fun p => strcmp name p.name = 0).isSome := by
    rw [List.find?_isSome]
    exact ⟨p, hp, by simp [hname]⟩
  obtain ⟨q, hq⟩ := Option.isSome_iff_exists.mp hs
  exact ⟨q.value, by rw [World.conffileParam, hq]; rfl⟩

theorem addLiteral_done {value : Option CStr} (h : w.addLiteral name value = .ok ((), s)) :
    ∃ v, value = some v ∧ s = { w with conf := { w.conf with
      param := w.conf.param ++ [⟨name, v, true⟩] } } := by
  cases value with
  | none => cases h
  | some v =>
    refine ⟨v, rfl, ?_⟩
    simp only [World.addLiteral, World.onConf, Conf.add] at h
    split at h
    · cases h
      rfl
    · cases h

theorem World.Accepted.of_conf (h : s.Accepted) (hc : t.conf = s.conf) : t.Accepted := by
  have hp : t.conffileParam = s.conffileParam :=
    World.conffileParam_congr hc
  constructor <;> simp only [hp, hc]
  · exact h.required
  · exact h.numbers
  · exact h.order
  · exact h.pattern
  · exact h.authtype
  · exact h.literal

theorem World.Accepted.conffileParamInt (h : w.Accepted) (hn : name ∈ requiredI) :
    ∃ n, w.conffileParamInt name = .ok n ∧ n ≠ 0 := by
  obtain ⟨v, hv, hne⟩ := h.numbers name hn
  exact ⟨atoi v, by rw [World.conffileParamInt, hv], hne⟩

/-! ### The checks that were passed -/

theorem exists_of_require (h : w.require name = .ok ((), s)) :
    ∃ v, w.conffileParam name = some v := by
  unfold World.require at h
  split at h
  · cases h
  · next v hv => exact ⟨v, hv⟩

theorem exists_of_requireInt (h : w.requireInt name = .ok ((), s)) :
    ∃ v, w.conffileParam name = some v ∧ atoi v ≠ 0 := by
  unfold World.requireInt at h
  split at h
  · cases h
  · next v hv =>
    split at h
    · cases h
    · next hne => exact ⟨v, hv, hne⟩

theorem exists_of_oneOf {v₁ v₂ : CStr} (h : w.oneOf name v₁ v₂ = .ok ((), s)) :
    ∃ v, w.conffileParam name = some v ∧ OneOf v v₁ v₂ := by
  unfold World.oneOf at h
  split at h
  · cases h
  · next v hv =>
    split at h
    · cases h
    · next hne =>
      refine ⟨v, hv, ?_⟩
      rw [not_and_or, not_not, not_not, strcmp_eq_zero, strcmp_eq_zero] at hne
      exact hne

/-! ### The checks that were failed -/

theorem require_error (h : w.require name = .error e) :
    e = .exit 4 ∧ w.conffileParam name = none := by
  unfold World.require at h
  split at h
  · next hv => exact ⟨(Except.error.inj h).symm, hv⟩
  · cases h

theorem requireInt_error (h : w.requireInt name = .error e) :
    e = .exit 4 ∧ ¬ ∃ v, w.conffileParam name = some v ∧ atoi v ≠ 0 := by
  unfold World.requireInt at h
  split at h
  · next hv =>
    refine ⟨(Except.error.inj h).symm, ?_⟩
    rintro ⟨v, hv', -⟩
    rw [hv] at hv'
    cases hv'
  · next v hv =>
    split at h
    · next hzero =>
      refine ⟨(Except.error.inj h).symm, ?_⟩
      rintro ⟨v', hv', hne⟩
      obtain rfl : v = v' := Option.some.inj (hv.symm.trans hv')
      exact hne hzero
    · cases h

theorem oneOf_error {v₁ v₂ : CStr} (hv : w.conffileParam name = some v)
    (h : w.oneOf name v₁ v₂ = .error e) :
    e = .exit 4 ∧ ¬ ∃ v, w.conffileParam name = some v ∧ OneOf v v₁ v₂ := by
  unfold World.oneOf at h
  rw [hv] at h
  dsimp only at h
  split at h
  · next hne =>
    refine ⟨(Except.error.inj h).symm, ?_⟩
    rintro ⟨v', hv', hone⟩
    obtain rfl : v = v' := Option.some.inj (hv.symm.trans hv')
    rw [ne_eq, ne_eq, strcmp_eq_zero, strcmp_eq_zero] at hne
    exact hone.elim hne.1 hne.2
  · cases h

theorem serverSection_conf {sd : CStr} {sec : Section}
    (h : w.serverSection lib sd = .ok (sec, s)) : s.conf = w.conf := by
  unfold World.serverSection at h
  split at h
  · cases h
  · cases h
  · split at h
    · cases h
    · split at h
      · cases h
      · cases h
        rfl

/-- What `conffile_read` and `conffile_check` accept has all that they look for. -/
theorem accepted_of_readCheck (h : (readCheck lib).run w = .done () u) : u.Accepted := by
  rw [readCheck_eq] at h
  obtain ⟨sd, s, hparams, hserver⟩ := done_of_bind h
  unfold readParams at hparams
  obtain ⟨_, s₀, -, hchecks⟩ := done_of_bind hparams
  obtain ⟨_, s₁, hs₁, hints⟩ := done_of_bind hchecks
  obtain ⟨_, s₂, hs₂, hs⟩ := done_of_bind hints
  obtain ⟨rfl, hrequired⟩ := forM_done (fun _ _ _ _ => require_same) hs₁
  obtain ⟨rfl, hnumbers⟩ := forM_done (fun _ _ _ _ => requireInt_same) hs₂
  obtain rfl := derefParam_same (attempt_done hs)
  unfold readServer at hserver
  obtain ⟨sec, s₃, hs₃, hadd⟩ := done_of_bind hserver
  have hconf := serverSection_conf (attempt_done hs₃)
  obtain ⟨_, s₄, hs₄, hadd'⟩ := done_of_bind hadd
  obtain ⟨o, -, ho⟩ := addLiteral_done (attempt_done hs₄)
  obtain ⟨_, s₅, hs₅, horder⟩ := done_of_bind hadd'
  obtain ⟨p, -, hp⟩ := addLiteral_done (attempt_done hs₅)
  obtain ⟨_, s₆, hs₆, htype⟩ := done_of_bind horder
  obtain rfl := oneOf_same (attempt_done hs₆)
  obtain rfl := oneOf_same (attempt_done htype)
  have hparam : u.conf.param =
      (s.conf.param ++ [⟨cstr "order", o, true⟩]) ++ [⟨cstr "match", p, true⟩] := by
    rw [hp, ho, hconf]
  have hext : s.Extends u := ⟨_, by rw [hparam, List.append_assoc]⟩
  exact
    { required := fun name hn =>
        let ⟨v, hv⟩ := exists_of_require (hrequired name hn)
        ⟨v, hext.conffileParam hv⟩
      numbers := fun name hn =>
        let ⟨v, hv, hne⟩ := exists_of_requireInt (hnumbers name hn)
        ⟨v, hext.conffileParam hv, hne⟩
      order := exists_of_oneOf (attempt_done hs₆)
      pattern := World.conffileParam_isSome (p := ⟨cstr "match", p, true⟩)
        (by rw [hparam]; simp) rfl
      authtype := exists_of_oneOf (attempt_done htype)
      literal := ⟨⟨cstr "match", p, true⟩, by rw [hparam]; simp, rfl⟩ }

/-- The parameters of an accepted configuration, with short values and this authtype. -/
def acceptedParam (authtype : CStr) : List Param :=
  [⟨cstr "pidfile", cstr "pid", false⟩, ⟨cstr "maillog", cstr "log", false⟩,
    ⟨cstr "serverdefs", cstr "defs", false⟩, ⟨cstr "server", cstr "imapd", false⟩,
    ⟨cstr "authfile", cstr "relay", false⟩, ⟨cstr "dumpfile", cstr "dump", false⟩,
    ⟨cstr "authtemp", cstr "tmp", false⟩, ⟨cstr "timeout", cstr "60", false⟩,
    ⟨cstr "flush", cstr "60", false⟩, ⟨cstr "suspicious", cstr "60", false⟩,
    ⟨cstr "authtype", authtype, false⟩, ⟨cstr "order", cstr "username,address", true⟩,
    ⟨cstr "match", cstr "a", true⟩]

theorem accepted_boot {authtype : CStr} (h : OneOf authtype (cstr "db") (cstr "text")) :
    (World.boot (acceptedParam authtype)).Accepted where
  required := by
    simp only [requiredS, List.take_succ_cons, List.take_zero, List.forall_mem_cons]
    exact ⟨⟨_, rfl⟩, ⟨_, rfl⟩, ⟨_, rfl⟩, ⟨_, rfl⟩, ⟨_, rfl⟩, ⟨_, rfl⟩, List.forall_mem_nil _⟩
  numbers := by
    simp only [requiredI, List.forall_mem_cons]
    exact ⟨⟨_, rfl, by decide⟩, ⟨_, rfl, by decide⟩, ⟨_, rfl, by decide⟩, List.forall_mem_nil _⟩
  order := ⟨_, rfl, .inl rfl⟩
  pattern := ⟨_, rfl⟩
  authtype := ⟨_, rfl, h⟩
  literal := ⟨⟨cstr "match", cstr "a", true⟩, by simp [World.boot, acceptedParam], rfl⟩

end ExactDaemon
