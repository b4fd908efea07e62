import ExactDaemon.Auth.Server
import ExactDaemon.Lib.CursorDb
import ExactDaemon.Lib.Zoom

/-! # The Berkeley database backend

`auth_db_add` stores the time under the hostname with its NUL. `auth_db_clean` walks over the
records with a cursor; what it compares with the clock is the address at which the library hands
it the stored time. The library is a parameter.
-/

namespace ExactDaemon

open Prog

def hostnameKey (hn : CStr) : Bytes := hn ++ [0]

theorem hostnameKey_injective {h h' : CStr} (he : hostnameKey h = hostnameKey h') : h = h' :=
  List.append_cancel_right he

/-- The daemon with the database that its handle stands for. -/
structure Backed (δ : Type) where
  world : World
  db : δ

namespace Backed

variable {δ κ : Type}

def toWorld : Lens (Backed δ) World where
  get := world
  set s w := { s with world := w }
  get_set _ _ := rfl
  set_get _ := rfl
  set_set _ _ _ := rfl

variable (lib : CursorDb δ κ Bytes ℤ) (address : Bytes → ℤ)

/-- `auth_db_add`, for a library that reports no errors. The username is only logged, and `sync`
changes nothing that is read back. -/
def authDbAdd (_username hostname : CStr) : Prog (Backed δ) Unit := do
  let now ← zoom toWorld (read World.clock)
  modify fun s => { s with db := lib.put (hostnameKey hostname) now s.db }

/-- `c_get` with `DB_NEXT`: the `data.data` of the next record as a number, and the cursor. -/
def cGet (c : κ) (s : Backed δ) : Option (ℤ × κ) × Backed δ :=
  match lib.next address c s.db with
  | none => (none, s)
  | some ((_, a), c, d) => (some (a, c), { s with db := d })

/-- The loop of `auth_db_clean`, cut off after `n` rounds. -/
def authDbSweep (now max : ℤ) : ℕ → κ → Prog (Backed δ) Unit
  | 0, _ => halt .diverged
  | n + 1, c => do
    let r ← act (cGet lib address c)
    match r with
    | none => pure ()
    | some (a, c) => do
      if now - a > max then modify fun s => { s with db := lib.cDel c s.db }
      authDbSweep now max n c

def authDbClean (n : ℕ) : Prog (Backed δ) Unit := do
  let now ← zoom toWorld (read World.clock)
  let max ← zoom toWorld (attempt fun w => (w.conffileParamInt (cstr "timeout")).map (·, w))
  let c ← act fun s => ((lib.cursor s.db).1, { s with db := (lib.cursor s.db).2 })
  authDbSweep lib address now max n c

end Backed

section

variable {δ κ : Type}

def AuthEvent.dbCall (lib : CursorDb δ κ Bytes ℤ) (address : Bytes → ℤ) (n : ℕ) :
    AuthEvent → Prog (Backed δ) Unit
  | add username host => Backed.authDbAdd lib username host
  | clean => Backed.authDbClean lib address n

/-- A history from its `k`-th event on; each event finds the stored bytes at other addresses. -/
def dbHistory (lib : CursorDb δ κ Bytes ℤ) (address : ℕ → Bytes → ℤ) (n : ℕ) :
    ℕ → List (ℤ × AuthEvent) → Prog (Backed δ) Unit
  | _, [] => pure ()
  | k, (t, e) :: es => do
    zoom Backed.toWorld (modify (·.atClock t))
    e.dbCall lib (address k) n
    dbHistory lib address n (k + 1) es

end

namespace Backed

variable {δ κ : Type} {lib : CursorDb δ κ Bytes ℤ} {address : Bytes → ℤ} {n : ℕ} {c : κ}
  {now max : ℤ} {w : World} {d d' : δ}

/-- The loop is a sweep of the library that chooses by the addresses. -/
theorem run_authDbSweep
    (h : lib.sweep address (fun a => decide (max < now - a)) n c d = some d') :
    (authDbSweep lib address now max n c).run ⟨w, d⟩ = .done () ⟨w, d'⟩ := by
  induction n generalizing c d with
  | zero => cases h
  | succ n ih =>
    unfold CursorDb.sweep at h
    unfold authDbSweep
    have hget : (act (cGet lib address c)).run ⟨w, d⟩ =
        .done (cGet lib address c ⟨w, d⟩).1 (cGet lib address c ⟨w, d⟩).2 := rfl
    rw [run_bind, hget, Outcome.bind_done, cGet]
    cases hnext : lib.next address c d with
    | none =>
      rw [hnext] at h
      cases h
      rfl
    | some r =>
      obtain ⟨⟨k, a⟩, c', d₁⟩ := r
      rw [hnext] at h
      dsimp only at h ⊢
      by_cases hmax : max < now - a
      · rw [if_pos (decide_eq_true hmax)] at h
        rw [if_pos hmax]
        exact ih h
      · rw [if_neg (by simpa using hmax)] at h
        rw [if_neg hmax]
        exact ih h

theorem run_authDbClean (hmax : w.conffileParamInt (cstr "timeout") = .ok max)
    (h : lib.sweep address (fun a => decide (max < w.clock - a)) n (lib.cursor d).1
      (lib.cursor d).2 = some d') :
    (authDbClean lib address n).run ⟨w, d⟩ = .done () ⟨w, d'⟩ := by
  have hf : (w.conffileParamInt (cstr "timeout")).map (·, w) = .ok (max, w) := by
    rw [hmax]
    rfl
  unfold authDbClean
  rw [run_zoom_bind (l := toWorld) (t := ⟨w, d⟩) (run_read _ _),
    run_zoom_bind (l := toWorld) (run_attempt_ok hf)]
  exact run_authDbSweep h

end Backed

section

variable {δ κ : Type} {lib : CursorDb δ κ Bytes ℤ}

theorem dbHistory_append (address : ℕ → Bytes → ℤ) (n k : ℕ) (es es' : List (ℤ × AuthEvent)) :
    dbHistory lib address n k (es ++ es') =
      dbHistory lib address n k es >>= fun _ =>
        dbHistory lib address n (k + es.length) es' := by
  induction es generalizing k with
  | nil => rfl
  | cons e es ih =>
    simp only [List.cons_append, dbHistory, LawfulMonad.bind_assoc, ih, List.length_cons,
      Nat.add_assoc, Nat.add_comm 1]

end

end ExactDaemon
