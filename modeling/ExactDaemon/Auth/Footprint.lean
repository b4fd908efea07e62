import ExactDaemon.Auth.Calls
import ExactDaemon.Auth.Handle
import ExactDaemon.Conf.Reload

/-! # What the handlers leave alone

The functions of auth.c leave the configuration as it is, and create files only under the
names that some parameters give. What does not depend on anything else they keep.
-/

namespace ExactDaemon

open Prog DbWorld

/-- The program on the world leaves the configuration alone and creates files only under the
values of these parameters. -/
def Creating {α : Type} (names : List CStr) (p : Prog World α) : Prop :=
  ∀ w, Keeps (World.Creates names w) p

variable {α : Type} {names : List CStr}

/-! ### On the world alone -/

theorem creating_read (f : World → α) : Creating names (read f) := fun _ => keeps_read f

theorem creating_modify {f : World → World} (h : ∀ w, World.Creates names w (f w)) :
    Creating names (modify f) :=
  fun _ => keeps_act fun s hs => hs.trans (h s)

theorem creating_attempt {f : World → Except Halt (α × World)}
    (h : ∀ w a w', f w = .ok (a, w') → w.Creates names w') : Creating names (attempt f) :=
  fun _ => keeps_attempt fun s a s' hs hf => hs.trans (h s a s' hf)

theorem Creating.bind {β : Type} {p : Prog World α} {g : α → Prog World β}
    (hp : Creating names p) (hg : ∀ a, Creating names (g a)) : Creating names (p >>= g) :=
  fun w => Keeps.bind (hp w) fun a => hg a w

/-- What depends on nothing that such a program changes. -/
theorem Creating.keeps {p : Prog World α} {J : World → Prop} (hp : Creating names p)
    (hJ : ∀ w w', World.Creates names w w' → J w → J w') : Keeps J p := by
  induction p with
  | ret a => trivial
  | halt e => trivial
  | step f k ih =>
    intro w
    exact ⟨hJ w _ ((hp w w).1 (.refl w)), ih w fun w' => (hp w' w).2⟩

/-- The configuration, seen from the daemon with its handle. -/
theorem Creating.conf {p : Prog World α} (hp : Creating names p) (cf : Conf) :
    Keeps (fun d : DbWorld => d.world.conf = cf) (zoom toWorld p) := by
  have hk : Keeps (fun w : World => w.conf = cf) p := hp.keeps fun _ _ hc h => hc.conf.trans h
  exact hk.zoom (l := toWorld)

/-- A lookup of a number. -/
theorem creating_int (name : CStr) :
    Creating names (attempt fun w => (w.conffileParamInt name).map (·, w)) := by
  refine creating_attempt fun w a w' h => ?_
  cases hp : w.conffileParamInt name with
  | error e =>
    rw [hp] at h
    cases h
  | ok n =>
    rw [hp] at h
    cases h
    exact .refl w

theorem creating_authWriteText : Creating relayNames authWriteText := fun _ =>
  keeps_authWriteText fun _ _ _ hc h => h.trans hc

theorem creating_authTextAdd (libc : Libc) (username hostname : CStr) :
    Creating relayNames (authTextAdd libc username hostname) := fun _ =>
  keeps_authTextAdd (fun _ _ h => h.trans (.of_same rfl rfl)) (fun _ _ _ hc h => h.trans hc) _ _ _

theorem creating_authTextClean : Creating relayNames authTextClean := fun _ =>
  keeps_authTextClean (fun _ _ h => h.trans (.of_same rfl rfl)) fun _ _ _ hc h => h.trans hc

theorem creating_authInitTables : Creating relayNames authInitTables := by
  refine Creating.bind (creating_modify fun w => .of_same rfl rfl) fun _ => ?_
  refine Creating.bind (creating_int (cstr "flush")) fun _ => ?_
  refine Creating.bind (creating_modify fun w => .of_same rfl rfl) fun _ => ?_
  exact creating_modify fun w => .of_same rfl rfl

theorem creating_fopenWrite (name : CStr) :
    Creating [name] (attempt fun w => w.fopenWrite (w.conffileParam name)) :=
  creating_attempt fun _ _ _ h => .fopenWrite h

theorem World.Creates.printEntry {stamp : ℤ → Bytes} {w w' : World} {fd i : ℕ} {a : Unit}
    (h : w.printEntry stamp fd i = .ok (a, w')) : w.Creates names w' := by
  unfold World.printEntry at h
  split at h
  · cases h
  · split at h <;> cases h
    exact .of_same rfl rfl

theorem creating_authTextDump (stamp : ℤ → Bytes) :
    Creating [cstr "dumpfile"] (authTextDump stamp) := by
  refine Creating.bind (creating_fopenWrite _) fun f => ?_
  cases f with
  | none => exact fun _ => keeps_pure _
  | some f =>
    refine Creating.bind (creating_read _) fun n => ?_
    refine Creating.bind (fun w => keeps_loop (fun i _ => ?_) _ _ _) fun _ => ?_
    · exact creating_attempt (fun _ _ _ h => .printEntry h) w
    · exact creating_modify fun w => .of_same rfl rfl

/-! ### With the handle -/

theorem keeps_zoom_read {J : DbWorld → Prop} (f : World → α) :
    Keeps J (zoom toWorld (read f)) := fun _ => ⟨id, trivial⟩

theorem keeps_zoom_same {J : DbWorld → Prop} {f : World → Except Halt (α × World)}
    (h : ∀ w a w', f w = .ok (a, w') → w' = w) : Keeps J (zoom toWorld (attempt f)) := by
  intro d
  dsimp only
  cases hf : f (toWorld.get d) with
  | error e => exact ⟨id, trivial⟩
  | ok r =>
    dsimp only
    rw [h _ r.1 r.2 hf]
    exact ⟨id, trivial⟩

theorem keeps_byBackend {J : DbWorld → Prop} {withDb : Bool} {db : Prog DbWorld Unit}
    {text : Prog World Unit} (hdb : Keeps J db) (htext : Keeps J (zoom toWorld text)) :
    Keeps J (byBackend withDb db text) := by
  unfold byBackend
  split
  · refine Keeps.bind (Keeps.bind (keeps_zoom_same fun _ _ _ => derefParam_same) fun _ =>
      keeps_pure _) fun b => ?_
    cases b
    · exact htext
    · exact hdb
  · exact htext

theorem keeps_call {J : DbWorld → Prop} {c : DbCall} {code : ℕ} {g : World → World}
    (h : ∀ d, J d → J (afterCall c code g d)) : Keeps J (DbWorld.call c code g) := by
  intro d
  refine ⟨h d, ?_⟩
  dsimp only
  cases d.callResult code <;> trivial

/-- What no handler that creates files under these names can break. -/
structure Untouched (names : List CStr) (J : DbWorld → Prop) : Prop where
  world : ∀ d w', d.world.Creates names w' → J d → J (toWorld.set d w')
  call : ∀ d c code (g : World → World), (∀ w, World.Creates names w (g w)) → J d →
    J (afterCall c code g d)
  faults : ∀ d l, J d → J { d with faults := l }

namespace Untouched

variable {J : DbWorld → Prop} (hJ : Untouched names J)

include hJ in
theorem mono {names' : List CStr} (hn : names' ⊆ names) : Untouched names' J where
  world d w' h := hJ.world d w' (h.mono hn)
  call d c code g h := hJ.call d c code g fun w => (h w).mono hn
  faults := hJ.faults

include hJ in
theorem zoom {p : Prog World α} (hp : Creating names p) : Keeps J (zoom toWorld p) := by
  induction p with
  | ret a => trivial
  | halt e => trivial
  | step f k ih =>
    intro d
    exact ⟨hJ.world d _ ((hp _ d.world).1 (.refl _)), ih d.world fun w => (hp w d.world).2⟩

include hJ in
theorem keeps_call {c : DbCall} {code : ℕ} {g : World → World}
    (hg : ∀ w, World.Creates names w (g w)) : Keeps J (DbWorld.call c code g) :=
  ExactDaemon.keeps_call fun d => hJ.call d c code g hg

include hJ in
theorem byBackend {withDb : Bool} {db : Prog DbWorld Unit} {text : Prog World Unit}
    (hdb : Keeps J db) (htext : Creating names text) : Keeps J (byBackend withDb db text) :=
  keeps_byBackend hdb (hJ.zoom htext)

end Untouched

theorem keeps_tryCall {J : DbWorld → Prop} {code : ℕ} {g : DbWorld → DbWorld}
    (hG : ∀ d l, J d → J (g { d with faults := l })) : Keeps J (tryCall code g) := by
  refine keeps_attempt fun d a d' h hs => ?_
  split at hs
  · cases hs
  · cases hs
    exact hG d _ h

section Handlers

variable {J : DbWorld → Prop} {withDb : Bool}

theorem keeps_authAdd (hJ : Untouched relayNames J) (libc : Libc) (username hostname : CStr) :
    Keeps J (authAdd withDb libc username hostname) := by
  refine hJ.byBackend ?_ (creating_authTextAdd _ _ _)
  refine Keeps.bind (hJ.zoom (creating_read _)) fun now => ?_
  refine Keeps.bind (hJ.keeps_call fun w => .of_same rfl rfl) fun _ => ?_
  exact hJ.keeps_call fun w => .refl w

theorem keeps_authDump (hJ : Untouched [cstr "dumpfile"] J) (stamp : ℤ → Bytes) :
    Keeps J (authDump withDb stamp) := by
  refine hJ.byBackend ?_ (creating_authTextDump _)
  refine Keeps.bind (hJ.zoom (creating_fopenWrite _)) fun f => ?_
  cases f with
  | none => exact keeps_pure _
  | some f =>
    refine Keeps.bind (hJ.keeps_call fun w => .refl w) fun _ => ?_
    refine Keeps.bind (hJ.zoom (creating_read _)) fun records => ?_
    refine Keeps.bind (keeps_forM fun r => ?_) fun _ => ?_
    · exact hJ.zoom (creating_modify fun _ => .of_same rfl rfl)
    · exact hJ.zoom (creating_modify fun _ => .of_same rfl rfl)

theorem keeps_authDbSweep (hJ : Untouched names J) (data : DbRecord → ℤ) (now max : ℤ)
    (l : List DbRecord) : Keeps J (DbWorld.authDbSweep data now max l) := by
  induction l with
  | nil => exact keeps_pure _
  | cons r l ih =>
    unfold DbWorld.authDbSweep
    split
    · refine (keeps_tryCall fun d l h => ?_).bind fun _ => ih
      exact hJ.world { d with faults := l } _ (.of_same rfl rfl) (hJ.faults d l h)
    · exact ih

theorem keeps_authClean (hJ : Untouched relayNames J) (data : DbRecord → ℤ) :
    Keeps J (DbWorld.authClean withDb data) := by
  refine Keeps.bind (hJ.byBackend ?_ creating_authTextClean) fun _ => ?_
  · refine Keeps.bind (hJ.zoom (creating_read _)) fun now => ?_
    refine Keeps.bind (hJ.zoom (creating_int _)) fun max => ?_
    refine Keeps.bind (hJ.keeps_call fun w => .refl w) fun _ => ?_
    refine Keeps.bind (hJ.zoom (creating_read _)) fun records => ?_
    exact keeps_authDbSweep hJ _ _ _ _
  · exact hJ.zoom (creating_modify fun _ => .of_same rfl rfl)

end Handlers

end ExactDaemon
