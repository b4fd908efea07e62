import Mathlib.Data.List.Forall2
import ExactDaemon.Conf.Conffile
import ExactDaemon.Lib.Twin

/-! # Reading the configuration again

A configuration that a fresh daemon accepts is read to the same parameters in any later
reload. The one thing that survives in between is the static section of the parser: what
it still holds can only fill gaps, and an accepted server definition has none.
-/

namespace ExactDaemon

open Prog

/-! ### The static section -/

variable {lib : RegexLib} {f f' : Reader} {s s' r u : Section} {a a' b : List Section} {n : ℕ}

/-- The text of exact.conf, and a file with server definitions. -/
structure Config where
  conf : Bytes
  serverdefs : CStr
  defs : Bytes
  deriving DecidableEq, Repr

namespace World

/-- Someone puts the files of a configuration in their places. -/
def install (c : Config) (w : World) : World :=
  (w.withFile w.conf.filename c.conf).withFile c.serverdefs c.defs

/-- A process that has only been told the name of its configuration file. -/
def fresh (filename : CStr) : World := { boot [] with conf := ⟨filename, []⟩ }

variable {w v : World} {c : Config} {path : CStr}

theorem contents_withFile (w : World) (path : CStr) (bs : Bytes) :
    (w.withFile path bs).fs.contents path = some bs := by
  simp [withFile, Fs.contents]

theorem contents_withFile_of_ne {path' : CStr} (h : path' ≠ path) {bs : Bytes}
    (hi : w.fs.dir path' ≠ some w.fs.nextIno) :
    (w.withFile path bs).fs.contents path' = w.fs.contents path' := by
  simp only [withFile, Fs.contents, Function.update_of_ne h]
  cases hd : w.fs.dir path' with
  | none => rfl
  | some i =>
    have hne : i ≠ w.fs.nextIno := fun he => hi (hd.trans (congrArg some he))
    simp [Function.update_of_ne hne]

theorem contents_install_filename (h : w.conf.filename ≠ c.serverdefs) :
    (w.install c).fs.contents w.conf.filename = some c.conf := by
  rw [install, contents_withFile_of_ne h]
  · exact contents_withFile _ _ _
  · simp [withFile]

end World

/-! ### Twin runs of the reading -/

/-- The two states have the same parameters, and the same contents in the files of a
configuration. -/
structure SameConf (filename serverdefs : CStr) (s t : World) : Prop where
  conf : t.conf = s.conf
  files : ∀ path, path = filename ∨ path = serverdefs →
    t.fs.contents path = s.fs.contents path

section SameConf

variable {filename serverdefs : CStr} {w v t : World} {c : Config}

theorem SameConf.conffileParam (h : SameConf filename serverdefs w v) (name : CStr) :
    v.conffileParam name = w.conffileParam name :=
  congrFun (World.conffileParam_congr h.conf) name

end SameConf

end ExactDaemon
