import ExactDaemon.Lib.Machine

/-! # The credentials of a process

The user and group ids of a process and the calls that change them. A process whose effective
user is root may set them to anything, any other one only back and forth between those that it
has. So a process that has given up all ids but one has no call left that changes anything.
-/

namespace ExactDaemon

/-- The real, the effective and the saved id. -/
structure Ids where
  real : ℕ
  effective : ℕ
  saved : ℕ
  deriving DecidableEq, Repr

namespace Ids

/-- One id for everything. -/
def only (n : ℕ) : Ids := ⟨n, n, n⟩

/-- `setuid` or `setgid`. -/
def set (privileged : Bool) (n : ℕ) (i : Ids) : Option Ids :=
  if privileged then some (only n)
  else if n = i.real ∨ n = i.saved then some { i with effective := n } else none

/-- `seteuid` or `setegid`. -/
def setEffective (privileged : Bool) (n : ℕ) (i : Ids) : Option Ids :=
  if privileged ∨ n = i.real ∨ n = i.saved then some { i with effective := n } else none

variable {i j : Ids} {b : Bool} {n m : ℕ}

theorem effective_of_set (h : i.set b n = some j) : j.effective = n := by
  unfold set at h
  split at h
  · obtain rfl := Option.some.inj h
    rfl
  · split at h
    · obtain rfl := Option.some.inj h
      rfl
    · cases h

theorem set_privileged (n : ℕ) (i : Ids) : i.set true n = some (only n) := rfl

theorem set_only (h : (only m).set false n = some j) : j = only m := by
  rw [set, if_neg Bool.false_ne_true] at h
  split at h
  · next hn =>
    obtain rfl : n = m := hn.elim id id
    exact (Option.some.inj h).symm
  · cases h

theorem setEffective_only (h : (only m).setEffective false n = some j) : j = only m := by
  unfold setEffective at h
  split at h
  · next hn =>
    obtain rfl : n = m := (hn.resolve_left Bool.false_ne_true).elim id id
    exact (Option.some.inj h).symm
  · cases h

/-- After `setgid` with an id, `setegid` with the same id changes nothing more. -/
theorem setEffective_of_set (h : i.set b n = some j) (b' : Bool) :
    (j.setEffective b' n).getD j = j := by
  have hn := effective_of_set h
  unfold setEffective
  split
  · rw [Option.getD_some, ← hn]
  · rfl

end Ids

structure Cred where
  user : Ids
  group : Ids
  supplementary : List ℕ
  deriving DecidableEq, Repr

/-- The calls that change credentials. -/
inductive CredCall where
  | setuid (n : ℕ)
  | seteuid (n : ℕ)
  | setgid (n : ℕ)
  | setegid (n : ℕ)
  | setgroups (gs : List ℕ)
  deriving DecidableEq, Repr

namespace Cred

def privileged (c : Cred) : Bool := c.user.effective = 0

def call (c : Cred) : CredCall → Option Cred
  | .setuid n => (c.user.set c.privileged n).map ({ c with user := · })
  | .seteuid n => (c.user.setEffective c.privileged n).map ({ c with user := · })
  | .setgid n => (c.group.set c.privileged n).map ({ c with group := · })
  | .setegid n => (c.group.setEffective c.privileged n).map ({ c with group := · })
  | .setgroups gs => if c.privileged then some { c with supplementary := gs } else none

/-- Nothing is left but one user, who is not root, and one group. -/
structure Dropped (u g : ℕ) (c : Cred) : Prop where
  user : c.user = .only u
  group : c.group = .only g
  unprivileged : u ≠ 0

variable {c d : Cred} {u g : ℕ} {k : CredCall} {ks : List CredCall}

theorem call_dropped (h : c.Dropped u g) (hk : c.call k = some d) : d = c := by
  have hp : c.privileged = false := by
    rw [privileged, h.user]
    exact decide_eq_false h.unprivileged
  cases k with
  | setuid n =>
    obtain ⟨j, hj, rfl⟩ := Option.map_eq_some_iff.mp hk
    rw [hp, h.user] at hj
    rw [Ids.set_only hj, ← h.user]
  | seteuid n =>
    obtain ⟨j, hj, rfl⟩ := Option.map_eq_some_iff.mp hk
    rw [hp, h.user] at hj
    rw [Ids.setEffective_only hj, ← h.user]
  | setgid n =>
    obtain ⟨j, hj, rfl⟩ := Option.map_eq_some_iff.mp hk
    rw [hp, h.group] at hj
    rw [Ids.set_only hj, ← h.group]
  | setegid n =>
    obtain ⟨j, hj, rfl⟩ := Option.map_eq_some_iff.mp hk
    rw [hp, h.group] at hj
    rw [Ids.setEffective_only hj, ← h.group]
  | setgroups gs =>
    rw [call, hp, if_neg Bool.false_ne_true] at hk
    cases hk

/-- After `setuid`, `seteuid` with the same id changes nothing. -/
theorem call_seteuid (h : c.call (.setuid u) = some d) : (d.call (.seteuid u)).getD d = d := by
  obtain ⟨j, hj, rfl⟩ := Option.map_eq_some_iff.mp h
  have hsame := Ids.setEffective_of_set hj (Cred.privileged { c with user := j })
  rw [call]
  cases hk : j.setEffective (Cred.privileged { c with user := j }) u with
  | none => rfl
  | some k =>
    rw [hk, Option.getD_some] at hsame
    rw [hsame]
    rfl

theorem call_setegid (h : c.call (.setgid g) = some d) : (d.call (.setegid g)).getD d = d := by
  obtain ⟨j, hj, rfl⟩ := Option.map_eq_some_iff.mp h
  have hsame := Ids.setEffective_of_set hj (Cred.privileged { c with group := j })
  rw [call]
  cases hk : j.setEffective (Cred.privileged { c with group := j }) g with
  | none => rfl
  | some k =>
    rw [hk, Option.getD_some] at hsame
    rw [hsame]
    rfl

theorem setgid_privileged (h : c.privileged = true) (g : ℕ) :
    c.call (.setgid g) = some { c with group := .only g } := by
  rw [call, h, Ids.set_privileged, Option.map_some]

theorem setuid_privileged (h : c.privileged = true) (u : ℕ) :
    c.call (.setuid u) = some { c with user := .only u } := by
  rw [call, h, Ids.set_privileged, Option.map_some]

/-- Whatever such a process calls, it keeps the credentials that it has. -/
theorem calls_dropped (h : c.Dropped u g) (hr : Runs call c ks d) : d = c :=
  hr.invariant (I := (· = c)) (fun _ _ _ _ hk hs => by
    rw [hs] at hk
    exact call_dropped h hk) rfl

end Cred

end ExactDaemon
