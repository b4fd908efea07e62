import ExactDaemon.Auth.RelayFile

/-! # Adding a host while the alarm goes off

`auth_text_clean` may run to completion between any two statements of
`auth_text_add`. For each boundary: in which state the clean starts, and what the
call does from the state that the clean leaves.
-/

namespace ExactDaemon

open Prog

/-- The boundaries between two statements of `auth_text_add`. -/
inductive Between where
  | lookupStore
  | lookupGrowth
  | growthHostname
  | hostnameTime
  | timeCount
  | countSort
  deriving DecidableEq, Repr

namespace Between

/-- The number of statements before the boundary. -/
def statements : Between → ℕ
  | lookupStore | lookupGrowth => 1
  | growthHostname => 2
  | hostnameTime => 3
  | timeCount => 4
  | countSort => 5

/-- The boundary lies on the path that refreshes a host. -/
def Refreshing (b : Between) : Prop := b = lookupStore

end Between

/-- `auth_text_add` with `auth_text_clean` run to completion at the boundary. -/
def addInterrupted (libc : Libc) (username host : CStr) (b : Between) : Prog World Unit :=
  weave (List.replicate b.statements (ret ()) ++ [authTextClean]) (authTextAdd libc username host)

variable {libc : Libc} {w s : World} {tmp file : CStr} {timeout : ℤ} {username host : CStr}
  {x : AuthEntry}

/-! ### What the interrupted call goes on to do -/

section Resume

theorem run_lookupStore {p : ℕ × ℕ} (hp : w.tables.authPresent libc host = some p)
    (hs : authTextClean.run w = .done () s) (hx : (s.tables.mem p.1)[p.2]? = some x) :
    (addInterrupted libc username host .lookupStore).run w =
      .done () (s.withTables (s.tables.put p { x with t := s.clock })) := by
  have h := World.store_ok (g := fun x => { x with t := s.clock }) hx
  unfold addInterrupted authTextAdd
  simp only [Between.statements, List.replicate, List.nil_append, List.cons_append,
    run_weave_read_bind, run_ret, Outcome.bind_done, hp]
  rw [← bind_pure (attempt _), run_weave_attempt_ok hs h]
  simp

variable (hp : w.tables.authPresent libc host = none)
include hp

theorem run_lookupGrowth (hs : authTextClean.run w = .done () s) (h : s.tables.Sound) :
    (addInterrupted libc username host .lookupGrowth).run w =
      authWriteText.run (s.inserted libc host) := by
  obtain ⟨x, hx⟩ := Tables.exists_getElem?_grow h.fitted
  unfold addInterrupted authTextAdd
  simp only [Between.statements, List.replicate, List.nil_append, List.cons_append,
    run_weave_read_bind, run_ret, Outcome.bind_done, hp]
  rw [run_weave_singleton_modify_bind, hs, Outcome.bind_done, run_bind, run_modify,
    Outcome.bind_done]
  exact run_append (w := s.onTables Tables.grow) hx

theorem run_growthHostname (hs : authTextClean.run (w.withTables w.tables.grow) = .done () s)
    (hx : (s.tables.mem s.tables.auth)[s.tables.authCur]? = some x) :
    (addInterrupted libc username host .growthHostname).run w = authWriteText.run (s.withTables
      ((s.tables.appended ⟨strncpy host matchLoginHostnameMax, s.clock⟩).qsort libc)) := by
  unfold addInterrupted authTextAdd
  simp only [Between.statements, List.replicate, List.nil_append, List.cons_append,
    run_weave_read_bind, run_ret, Outcome.bind_done, hp]
  rw [run_weave_modify_bind, run_ret, Outcome.bind_done, run_weave_singleton_attempt_bind]
  refine (congrArg (fun o => Outcome.bind o _) hs).trans ?_
  exact run_append hx

variable {x₀ : AuthEntry}
  (hx₀ : (w.tables.grow.mem w.tables.grow.auth)[w.tables.grow.authCur]? = some x₀)
include hx₀

theorem run_hostnameTime
    (hs : authTextClean.run (w.withTables (w.tables.grow.put
      (w.tables.grow.auth, w.tables.grow.authCur)
      ⟨strncpy host matchLoginHostnameMax, x₀.t⟩)) = .done () s)
    (hx : (s.tables.mem s.tables.auth)[s.tables.authCur]? = some x) :
    (addInterrupted libc username host .hostnameTime).run w = authWriteText.run
      (s.withTables ((s.tables.appended ⟨x.hostname, s.clock⟩).qsort libc)) := by
  have h₁ := World.store_ok (w := w.withTables w.tables.grow) (p := (_, _))
    (g := fun x => { x with hostname := strncpy host matchLoginHostnameMax }) hx₀
  have h₂ := World.store_ok (p := (_, _)) (g := fun x => { x with t := s.clock }) hx
  unfold addInterrupted authTextAdd
  simp only [Between.statements, List.replicate, List.nil_append, List.cons_append,
    run_weave_read_bind, run_ret, Outcome.bind_done, hp]
  rw [run_weave_modify_bind, run_ret, Outcome.bind_done, run_weave_attempt_ok rfl h₁,
    run_weave_singleton_attempt_bind]
  refine (congrArg (fun o => Outcome.bind o _) hs).trans ?_
  rw [Outcome.bind_done, run_bind, run_attempt_ok h₂]
  rfl

theorem run_timeCount
    (hs : authTextClean.run (w.withTables (w.tables.grow.put
      (w.tables.grow.auth, w.tables.grow.authCur)
      ⟨strncpy host matchLoginHostnameMax, w.clock⟩)) = .done () s) :
    (addInterrupted libc username host .timeCount).run w = authWriteText.run
      (s.withTables ({ s.tables with authCur := s.tables.authCur + 1 }.qsort libc)) := by
  have h₁ := World.store_ok (w := w.withTables w.tables.grow) (p := (_, _))
    (g := fun x => { x with hostname := strncpy host matchLoginHostnameMax }) hx₀
  have h₂ := World.store_ok (g := fun x => { x with t := w.clock })
    (w := w.withTables (w.tables.grow.put (w.tables.grow.auth, w.tables.grow.authCur)
      { x₀ with hostname := strncpy host matchLoginHostnameMax }))
    (p := (_, _)) (Tables.getElem?_put hx₀ _)
  unfold addInterrupted authTextAdd
  simp only [Between.statements, List.replicate, List.nil_append, List.cons_append,
    run_weave_read_bind, run_ret, Outcome.bind_done, hp]
  rw [run_weave_modify_bind, run_ret, Outcome.bind_done, run_weave_attempt_ok rfl h₁,
    run_weave_attempt_ok rfl h₂, run_weave_singleton_modify_bind]
  rw [World.withTables_withTables, World.tables_withTables, Tables.put_put]
  exact congrArg (fun o => Outcome.bind o _) hs

theorem run_countSort
    (hs : authTextClean.run (w.withTables (w.tables.grow.appended
      ⟨strncpy host matchLoginHostnameMax, w.clock⟩)) = .done () s) :
    (addInterrupted libc username host .countSort).run w =
      authWriteText.run (s.withTables (s.tables.qsort libc)) := by
  have h₁ := World.store_ok (w := w.withTables w.tables.grow) (p := (_, _))
    (g := fun x => { x with hostname := strncpy host matchLoginHostnameMax }) hx₀
  have h₂ := World.store_ok (g := fun x => { x with t := w.clock })
    (w := w.withTables (w.tables.grow.put (w.tables.grow.auth, w.tables.grow.authCur)
      { x₀ with hostname := strncpy host matchLoginHostnameMax }))
    (p := (_, _)) (Tables.getElem?_put hx₀ _)
  unfold addInterrupted authTextAdd
  simp only [Between.statements, List.replicate, List.nil_append, List.cons_append,
    run_weave_read_bind, run_ret, Outcome.bind_done, hp]
  rw [run_weave_modify_bind, run_ret, Outcome.bind_done, run_weave_attempt_ok rfl h₁,
    run_weave_attempt_ok rfl h₂, run_weave_modify_bind, run_ret, Outcome.bind_done,
    run_weave_singleton_modify_bind]
  rw [World.withTables_withTables, World.tables_withTables, Tables.put_put]
  exact congrArg (fun o => Outcome.bind o _) hs

end Resume

end ExactDaemon
