import ExactDaemon.Conf.Reread

/-! # Reloading and restarting

A configuration that a fresh daemon accepts is what a reload leaves in the table of
parameters. What was made of the parameters at the start is not made again: the compiled
expression and the period of the alarm stay those of the first configuration.
-/

namespace ExactDaemon

open Prog

/-- The same daemon with other parameters. -/
def World.withParam (w : World) (ps : List Param) : World :=
  { w with conf := { w.conf with param := ps } }

/-- Nothing but the parameters and the static section of the parser differs. -/
def World.OnlyConf (w w' : World) : Prop :=
  w' = { w.withParam w'.conf.param with staticSection := w'.staticSection }

variable {lib : RegexLib} {onLiteral : Except Halt Unit} {w v u s t : World} {c : Config}
  {fn : CStr} {n : ℕ} {f : Reader} {cf cf' : Conf}

namespace World.OnlyConf

theorem refl (w : World) : w.OnlyConf w := rfl

theorem withParam (h : w.OnlyConf s) (ps : List Param) : w.OnlyConf (s.withParam ps) := by
  unfold OnlyConf at h
  rw [h]
  rfl

theorem withSection (h : w.OnlyConf s) (x : Section) :
    w.OnlyConf { s with staticSection := x } := by
  unfold OnlyConf at h
  rw [h]
  rfl

end World.OnlyConf

/-! ### What a reading changes -/

theorem derefParam_same {name : CStr} {a : CStr} (h : s.derefParam name = .ok (a, t)) : t = s := by
  unfold World.derefParam at h
  split at h
  · cases h
  · cases h
    rfl

theorem require_same {name : CStr} {a : Unit} (h : s.require name = .ok (a, t)) : t = s := by
  unfold World.require at h
  split at h
  · cases h
  · cases h
    rfl

theorem requireInt_same {name : CStr} {a : Unit} (h : s.requireInt name = .ok (a, t)) : t = s := by
  unfold World.requireInt at h
  split at h
  · cases h
  · split at h
    · cases h
    · cases h
      rfl

theorem oneOf_same {name v₁ v₂ : CStr} {a : Unit} (h : s.oneOf name v₁ v₂ = .ok (a, t)) :
    t = s := by
  unfold World.oneOf at h
  split at h
  · cases h
  · split at h
    · cases h
    · cases h
      rfl

theorem add_param {p : Param} (h : cf.add p = .ok cf') : cf' = { cf with param := cf'.param } := by
  unfold Conf.add at h
  split at h <;> cases h
  rfl

theorem ok_of_bind {ε α β : Type} {x : Except ε α} {g : α → Except ε β} {b : β}
    (h : (x >>= g) = .ok b) : ∃ a, x = .ok a ∧ g a = .ok b := by
  cases x with
  | error e => cases h
  | ok a => exact ⟨a, rfl, h⟩

theorem readLine_param {l : Bytes} (h : Conf.readLine lib l cf = .ok cf') :
    cf' = { cf with param := cf'.param } := by
  simp only [Conf.readLine] at h
  split at h
  · cases h
  split at h
  · cases h
    rfl
  split at h
  · cases h
  split at h
  · split at h
    · obtain ⟨name, -, hvalue⟩ := ok_of_bind h
      obtain ⟨value, -, hadd⟩ := ok_of_bind hvalue
      exact add_param hadd
    · cases h
      rfl
  · cases h
    rfl

section Keeps

variable {J : World → Prop}

/-- A statement that only looks something up. -/
theorem keeps_lookup {α : Type} {g : World → Except Halt (α × World)}
    (h : ∀ s a s', g s = .ok (a, s') → s' = s) : Keeps J (attempt g) :=
  keeps_attempt fun s a s' hs he => by
    rw [h s a s' he]
    exact hs

variable (hJ : ∀ s ps, J s → J (s.withParam ps))
include hJ

theorem keeps_onConf {g : Conf → Except Halt Conf}
    (hg : ∀ cf cf', g cf = .ok cf' → cf' = { cf with param := cf'.param }) :
    Keeps J (attempt (World.onConf g)) := by
  refine keeps_attempt fun s a s' h hs => ?_
  unfold World.onConf at hs
  cases hcf : g s.conf with
  | error e =>
    rw [hcf] at hs
    cases hs
  | ok cf =>
    rw [hcf] at hs
    cases hs
    rw [hg _ _ hcf]
    exact hJ s cf.param h

theorem keeps_addLiteral (name : CStr) (value : Option CStr) :
    Keeps J (attempt (World.addLiteral name value)) := by
  cases value with
  | none => exact keeps_attempt fun s a s' _ hs => by cases hs
  | some v => exact keeps_onConf hJ fun _ _ => add_param

theorem keeps_conffileLines (n : ℕ) (f : Reader) : Keeps J (conffileLines lib n f) := by
  induction n generalizing f with
  | zero => exact keeps_halt _
  | succ n ih =>
    unfold conffileLines
    split
    · exact keeps_pure _
    · exact (keeps_onConf hJ fun _ _ => readLine_param).bind fun _ => ih _

theorem keeps_conffileRead : Keeps J (conffileRead lib) := by
  refine (keeps_read _).bind fun text => ?_
  cases text with
  | none => exact keeps_halt _
  | some text => exact keeps_conffileLines hJ _ _

end Keeps

/-! ### Freeing the table -/

theorem freeName_same {i : ℕ} {a : Unit} (h : s.freeName onLiteral i = .ok (a, t)) : t = s := by
  unfold World.freeName at h
  split at h
  · cases h
  · split at h
    · cases onLiteral with
      | error e => cases h
      | ok _ =>
        cases h
        rfl
    · cases h
      rfl

theorem run_conffileFree (s : World) :
    (conffileFree (.ok ())).run s = .done () (s.withParam []) := by
  have hal : always (fun _ => True) (loop (fun i w => i < w.conf.param.length)
      (fun i _ => attempt (World.freeName (.ok ()) i)) (s.conf.param.length + 1) 0 ())
      (fun _ t => t = s) s := by
    have hI : ∀ (_ : ℕ) (_ : Unit) t, t = s → True := fun _ _ _ _ => trivial
    refine always_loop (N := s.conf.param.length) hI ?_ ?_ (fun _ _ h => h) (by omega)
      (Nat.zero_le _) rfl
    · rintro i _ _ rfl
      rfl
    · rintro i _ _ hi rfl
      refine always_attempt (a := ()) ?_ trivial trivial rfl
      rw [World.freeName, List.getElem?_eq_getElem hi]
      dsimp only
      split <;> rfl
  obtain ⟨_, _, hr, rfl⟩ := hal.run_done
  unfold conffileFree
  rw [run_bind, run_read, Outcome.bind_done, run_bind, hr, Outcome.bind_done]
  rfl

/-- `conffile_read` and `conffile_check`. -/
def readCheck (lib : RegexLib) : Prog World Unit := do
  conffileRead lib
  conffileCheck lib

theorem conffileReload_eq (onLiteral : Except Halt Unit) (lib : RegexLib) :
    conffileReload onLiteral lib = conffileFree onLiteral >>= fun _ => readCheck lib := rfl

/-- The reading up to the name of the file with the server definitions. -/
def readParams (lib : RegexLib) : Prog World CStr := do
  conffileRead lib
  (requiredS.take 6).forM fun name => attempt (World.require name)
  requiredI.forM fun name => attempt (World.requireInt name)
  attempt (World.derefParam (cstr "serverdefs"))

/-- The reading from there on. -/
def readServer (lib : RegexLib) (serverdefs : CStr) : Prog World Unit := do
  let s ← attempt (World.serverSection lib serverdefs)
  attempt (World.addLiteral (cstr "order") s.order)
  attempt (World.addLiteral (cstr "match") s.pattern)
  attempt (World.oneOf (cstr "order") (cstr "username,address") (cstr "address,username"))
  attempt (World.oneOf (cstr "authtype") (cstr "db") (cstr "text"))

theorem readCheck_eq (lib : RegexLib) : readCheck lib = readParams lib >>= readServer lib := by
  unfold readCheck readParams conffileCheck serverCheck
  simp only [LawfulMonad.bind_assoc]
  rfl

theorem keeps_readParams {J : World → Prop} (hJ : ∀ s ps, J s → J (s.withParam ps)) :
    Keeps J (readParams lib) := by
  refine (keeps_conffileRead hJ).bind fun _ => ?_
  refine (keeps_forM fun name => keeps_lookup fun _ _ _ => require_same).bind fun _ => ?_
  refine (keeps_forM fun name => keeps_lookup fun _ _ _ => requireInt_same).bind fun _ => ?_
  exact keeps_lookup fun _ _ _ => derefParam_same

theorem keeps_readServer {J : World → Prop} (hJ : ∀ s ps, J s → J (s.withParam ps))
    (hJ' : ∀ s x, J s → J { s with staticSection := x }) (sd : CStr) :
    Keeps J (readServer lib sd) := by
  refine Keeps.bind (keeps_attempt fun s a s' h hs => ?_) fun sec => ?_
  · unfold World.serverSection at hs
    split at hs
    · cases hs
    · cases hs
    · split at hs
      · cases hs
      · split at hs
        · cases hs
        · cases hs
          exact hJ' s _ h
  · refine (keeps_addLiteral hJ _ _).bind fun _ => (keeps_addLiteral hJ _ _).bind fun _ => ?_
    refine (keeps_lookup fun _ _ _ => oneOf_same).bind fun _ => ?_
    exact keeps_lookup fun _ _ _ => oneOf_same

theorem keeps_readCheck : Keeps w.OnlyConf (readCheck lib) := by
  rw [readCheck_eq]
  refine (keeps_readParams fun s ps h => h.withParam ps).bind fun sd => ?_
  exact keeps_readServer (fun s ps h => h.withParam ps) (fun s x h => h.withSection x) sd

end ExactDaemon
