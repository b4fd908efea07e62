import ExactDaemon.Lib.Credentials
import ExactDaemon.World

/-! # Becoming a daemon

`daemonize` takes the group and the user that the configuration names, goes to the background
and moves to the root directory. What the system says to that is a parameter.
-/

namespace ExactDaemon

open Prog

/-- How `fork` returns, if it does not fail. -/
inductive Forked | child | parent
  deriving DecidableEq, Repr

/-- The system in which the program starts: whether the build knows a working `fork`, the
credentials of the process, the groups and users that there are, how the two calls of `fork`
return, whether `setsid` and `chdir` succeed, and whether the process is in the root directory
from the start. -/
structure Os where
  workingFork : Bool
  cred : Cred
  getgrnam : CStr → Option ℕ
  getpwnam : CStr → Option ℕ
  fork : Fin 2 → Option Forked
  setsid : Bool
  chdir : Bool
  inRoot : Bool

/-- Without the parameter nothing; else the id that belongs to its value becomes the real one
and all others, as far as the system allows. The result of the second call is not looked at. -/
def become (value : Option CStr) (lookup : CStr → Option ℕ) (set setEffective : ℕ → CredCall)
    (denied unknown : ℕ) (c : Cred) : Except Halt Cred :=
  match value with
  | none => .ok c
  | some name =>
    match lookup name with
    | none => .error (.exit unknown)
    | some n =>
      match c.call (set n) with
      | none => .error (.exit denied)
      | some d => .ok ((d.call (setEffective n)).getD d)

namespace Os

variable (os : Os)

def usergroup (w : World) : Except Halt Cred :=
  match become (w.conffileParam (cstr "group")) os.getgrnam .setgid .setegid 64 65 os.cred with
  | .error e => .error e
  | .ok c => become (w.conffileParam (cstr "user")) os.getpwnam .setuid .seteuid 66 67 c

/-- The parent exits, the child goes on. -/
def dofork (i : Fin 2) : Prog World Unit :=
  match os.fork i with
  | none => halt (.exit 61)
  | some .child => pure ()
  | some .parent => halt (.exit 0)

def sesslead : Prog World Unit := if os.setsid then pure () else halt (.exit 62)

def rootdir : Prog World Unit :=
  if os.chdir then modify fun w => if os.inRoot then w else { w with fs := w.fs.fromRoot }
  else halt (.exit 63)

/-- What happens if the program is not to stay in the foreground. -/
def background (foreground : Bool) : Prog World Unit :=
  if foreground then pure ()
  else do
    -- so the parent can exit, returning control
    os.dofork 0
    os.sesslead
    -- session group leader exits
    os.dofork 1

/-- `daemonize`, with the credentials that the daemon has from then on. -/
def daemonize (foreground : Bool) : Prog World Cred :=
  if os.workingFork then do
    let c ← attempt fun w => (os.usergroup w).map (·, w)
    os.background foreground
    os.rootdir
    pure c
  else pure os.cred

end Os

/-! ### What it leaves -/

section Credentials

variable {os : Os} {w u : World} {c d : Cred} {ks : List CredCall} {value : Option CStr}
  {lookup : CStr → Option ℕ} {set setEffective : ℕ → CredCall} {denied unknown n m uid gid : ℕ}
  {name user group : CStr} {f : Bool} {e : Halt}

theorem become_of_name (hv : value = some name) (hn : lookup name = some n)
    (hset : c.call (set n) = some d) (hsame : (d.call (setEffective n)).getD d = d) :
    become value lookup set setEffective denied unknown c = .ok d := by
  subst hv
  simp only [become, hn, hset, hsame]

/-- It ends with one of the two exits, if not with credentials. -/
theorem become_error (h : become value lookup set setEffective denied unknown c = .error e) :
    e = .exit denied ∨ e = .exit unknown := by
  unfold become at h
  split at h
  · cases h
  · split at h
    · cases h
      exact .inr rfl
    · split at h <;> cases h
      exact .inl rfl

namespace Os

theorem usergroup_error (h : os.usergroup w = .error e) : ∃ code, e = .exit code := by
  unfold usergroup at h
  split at h
  · next e' he =>
    cases h
    exact (become_error he).elim (⟨_, ·⟩) (⟨_, ·⟩)
  · exact (become_error h).elim (⟨_, ·⟩) (⟨_, ·⟩)

/-- Started by root, with a group and a user in its configuration that there are, the program
keeps nothing of the user and the group that it had. The supplementary groups it keeps. -/
theorem usergroup_root (hroot : os.cred.privileged = true)
    (hgroup : w.conffileParam (cstr "group") = some group) (hgid : os.getgrnam group = some gid)
    (huser : w.conffileParam (cstr "user") = some user) (huid : os.getpwnam user = some uid) :
    os.usergroup w = .ok ⟨.only uid, .only gid, os.cred.supplementary⟩ := by
  have hg := Cred.setgid_privileged hroot gid
  have hu := Cred.setuid_privileged (c := { os.cred with group := .only gid }) hroot uid
  unfold usergroup
  rw [become_of_name hgroup hgid hg (Cred.call_setegid hg)]
  exact become_of_name huser huid hu (Cred.call_seteuid hu)

theorem usergroup_of_daemonize (hfork : os.workingFork = true)
    (h : (os.daemonize f).run w = .done c u) : os.usergroup w = .ok c := by
  unfold daemonize at h
  rw [if_pos hfork] at h
  obtain ⟨c', w', hc, h⟩ := done_of_bind h
  obtain ⟨_, w₁, _, h⟩ := done_of_bind h
  obtain ⟨_, w₂, _, h⟩ := done_of_bind h
  cases h
  have hc' := attempt_done hc
  cases hg : os.usergroup w with
  | error e =>
    rw [hg] at hc'
    cases hc'
  | ok c =>
    rw [hg] at hc'
    cases hc'
    rfl

/-- A daemon that root has started as another user cannot go back: whatever it calls later,
its user and its group stay. -/
theorem daemonize_drops (hfork : os.workingFork = true) (hroot : os.cred.privileged = true)
    (hgroup : w.conffileParam (cstr "group") = some group) (hgid : os.getgrnam group = some gid)
    (huser : w.conffileParam (cstr "user") = some user) (huid : os.getpwnam user = some uid)
    (h0 : uid ≠ 0) (h : (os.daemonize f).run w = .done c u) (hr : Runs Cred.call c ks d) :
    d = ⟨.only uid, .only gid, os.cred.supplementary⟩ := by
  have hc := usergroup_of_daemonize hfork h
  rw [usergroup_root hroot hgroup hgid huser huid] at hc
  cases hc
  exact Cred.calls_dropped ⟨rfl, rfl, h0⟩ hr

end Os

end Credentials

end ExactDaemon
