import ExactDaemon.Auth.Handle
import ExactDaemon.Lib.Own
import ExactDaemon.Lib.Points

/-! # Which files the daemon writes

The functions of auth.c write no files but those that five parameters name, also when the
handlers of signals run between their statements. What other names lead to they leave alone.
-/

namespace ExactDaemon

open Prog

/-- The parameters that name the files which the daemon writes. -/
def fileNames : List CStr :=
  [cstr "authtemp", cstr "authfile", cstr "dumpfile", cstr "pidfile", cstr "logfile"]

/-- The names of the daemon's own files, the name of its configuration file, and what is known
of the files under all other names. -/
structure Domain where
  own : CStr → Prop
  filename : CStr
  kept : ({x // ¬ own x} → Option (ℕ × Bytes)) → Prop

/-- The configuration names own files only, no other name leads to one of them, and the
files under other names are as they are known. -/
structure World.Keeping (D : Domain) (w : World) : Prop where
  divided : w.fs.Divided D.own
  confined : ∀ p ∈ w.conf.param, p.name ∈ fileNames → D.own p.value
  filename : w.conf.filename = D.filename
  kept : D.kept (w.fs.outside D.own)

/-- The open streams and the globals of tail.c are left alone, and in the second state all is
as it should be. -/
structure World.Rely (D : Domain) (s t : World) : Prop where
  others : s.fs.Others D.own t.fs
  tail : t.tail = s.tail
  keeping : t.Keeping D

/-- The state while a stream of one's own is open that was opened after `s`. -/
structure World.Drafting (D : Domain) (s : World) (f : ℕ) (t : World) : Prop where
  rely : s.Rely D t
  later : s.fs.nextFd ≤ f
  mine : t.fs.Mine D.own f

variable {D : Domain} {s t u w : World} {name x : CStr} {f : ℕ}

namespace World

theorem Keeping.own (h : w.Keeping D) (hn : name ∈ fileNames)
    (hx : w.conffileParam name = some x) : D.own x := by
  unfold conffileParam at hx
  obtain ⟨p, hp, rfl⟩ := Option.map_eq_some_iff.mp hx
  have hcmp := List.find?_some hp
  have hname : name = p.name := strcmp_eq_zero.mp (of_decide_eq_true hcmp)
  exact h.confined p (List.mem_of_find?_eq_some hp) (hname ▸ hn)

theorem Keeping.rely (h : w.Keeping D) : w.Rely D w := ⟨.refl _, rfl, h⟩

theorem Rely.trans (h : s.Rely D t) (h' : t.Rely D u) : s.Rely D u :=
  ⟨h.others.trans h'.others, h'.tail.trans h.tail, h'.keeping⟩

/-- A step that changes own files only. -/
theorem Keeping.changes (h : t.Keeping D) (hc : t.fs.Changes D.own u.fs)
    (hconf : u.conf = t.conf) : u.Keeping D where
  divided := hc.divided
  confined := hconf ▸ h.confined
  filename := hconf ▸ h.filename
  kept := hc.outside_eq ▸ h.kept

theorem Rely.changes (h : s.Rely D t) (hc : t.fs.Changes D.own u.fs)
    (hn : t.fs.nextFd ≤ u.fs.nextFd)
    (hs : ∀ fd < s.fs.nextFd, u.fs.stream fd = t.fs.stream fd) (hconf : u.conf = t.conf)
    (htail : u.tail = t.tail) : s.Rely D u :=
  ⟨hc.others h.others hn hs, htail.trans h.tail, h.keeping.changes hc hconf⟩

/-- A step that changes neither files nor parameters. -/
theorem Rely.same (h : s.Rely D t) (hfs : u.fs = t.fs) (hconf : u.conf = t.conf)
    (htail : u.tail = t.tail) : s.Rely D u :=
  h.changes (by rw [hfs]; exact .refl h.keeping.divided) (by rw [hfs]) (fun _ _ => by rw [hfs])
    hconf htail

namespace Drafting

theorem next (h : s.Drafting D f t) (h' : t.Rely D u) : s.Drafting D f u :=
  ⟨h.rely.trans h', h.later, h'.others.mine h.mine⟩

theorem same (h : s.Drafting D f t) (hfs : u.fs = t.fs) (hconf : u.conf = t.conf)
    (htail : u.tail = t.tail) : s.Drafting D f u :=
  ⟨h.rely.same hfs hconf htail, h.later, hfs ▸ h.mine⟩

theorem fprintf (h : s.Drafting D f t) (bs : Bytes) : s.Drafting D f (t.fprintf f bs) where
  rely := by
    have hd := h.rely.keeping.divided
    refine h.rely.changes (Fs.changes_put hd h.mine.spare bs _) le_rfl (fun fd hfd => ?_) rfl rfl
    exact Fs.stream_put_of_ne (hfd.trans_le h.later).ne bs _
  later := h.later
  mine := h.mine.put h.rely.keeping.divided bs _

theorem fclose (h : s.Drafting D f t) : s.Drafting D f (t.fclose f) where
  rely := by
    have hd := h.rely.keeping.divided
    refine h.rely.changes (Fs.changes_flush hd h.mine.spare _) le_rfl (fun fd hfd => ?_) rfl rfl
    exact Fs.stream_flush_of_ne (hfd.trans_le h.later).ne _
  later := h.later
  mine := h.mine.flush h.rely.keeping.divided _

end Drafting

/-- `fopen` for writing under the value of one of the parameters. -/
theorem Rely.fopenWrite (h : s.Rely D t) (hn : name ∈ fileNames)
    (ho : t.fopenWrite (t.conffileParam name) = .ok (some f, u)) : s.Drafting D f u := by
  cases hx : t.conffileParam name with
  | none =>
    rw [hx] at ho
    cases ho
  | some path =>
    have hp := h.keeping.own hn hx
    have hd := h.keeping.divided
    rw [hx, World.fopenWrite, Fs.openWrite] at ho
    split at ho
    · cases ho
    · next fs hfs =>
      split at hfs
      · cases hfs
        cases ho
        refine ⟨h.changes (Fs.changes_truncated hd hp) (Nat.le_succ _) (fun fd hfd => ?_) rfl rfl,
          h.others.nextFd, Fs.mine_truncated hd hp⟩
        exact Function.update_of_ne (hfd.trans_le h.others.nextFd).ne _ _
      · cases hfs

theorem Rely.fopenWrite_none (h : s.Rely D t)
    (ho : t.fopenWrite (t.conffileParam name) = .ok (none, u)) : s.Rely D u := by
  unfold World.fopenWrite at ho
  split at ho
  · cases ho
    exact h
  · split at ho <;> cases ho
    exact h

/-- A rename of one own file to another leaves the streams alone. -/
theorem Rely.publish (h : s.Rely D t) {a : Unit} (ho : t.publish = .ok (a, u)) :
    s.Rely D u ∧ t.Rely D u := by
  unfold World.publish at ho
  split at ho
  · next old new hold hnew =>
    split at ho
    · cases ho
    · next fs hfs =>
      cases ho
      have hc := Fs.changes_rename h.keeping.divided (h.keeping.own (by simp [fileNames]) hold)
        (h.keeping.own (by simp [fileNames]) hnew) hfs
      have hstream : fs.stream = t.fs.stream ∧ fs.nextFd = t.fs.nextFd := by
        unfold Fs.rename at hfs
        split at hfs
        · cases hfs
        · split at hfs <;> cases hfs <;> exact ⟨rfl, rfl⟩
      have hs : ∀ v : World, v.Rely D t → v.Rely D { t with fs := fs } := fun v hv =>
        hv.changes hc hstream.2.ge (fun _ _ => congrFun hstream.1 _) rfl rfl
      exact ⟨hs s h, hs t h.keeping.rely⟩
  · cases ho

end World

/-! ### Programs -/

variable {τ α β : Type} {v : τ → World}

/-- Amid what others do, the program writes own files only, and to the others it leaves what it
found. `v` is the world in a larger state. -/
def Confines (v : τ → World) (D : Domain) (p : Prog τ α) : Prop :=
  ∀ s, (v s).Keeping D → Upholds (fun s t => (v s).Rely D (v t)) (fun t => (v t).Keeping D) p
    (fun _ t => (v s).Rely D (v t)) s

/-- The same with a stream of one's own. -/
def Drafts (v : τ → World) (D : Domain) (f : ℕ) (p : Prog τ α) : Prop :=
  ∀ s, Keeps (fun t => (v s).Drafting D f (v t)) p

section Programs

theorem confines_pure (a : α) : Confines v D (pure a) := fun _ hs => hs.rely

theorem confines_halt (e : Halt) : Confines v D (halt e : Prog τ α) := fun _ _ => trivial

theorem Confines.bind {p : Prog τ α} {g : α → Prog τ β} (hp : Confines v D p)
    (hg : ∀ a, Confines v D (g a)) : Confines v D (p >>= g) := by
  intro s hs
  refine upholds_bind ((hp s hs).mono fun a t ht => ?_)
  exact (hg a t ht.keeping).mono fun _ u hu => ht.trans hu

/-- What a run alone leaves. -/
theorem Confines.run_done {p : Prog World α} {a : α} (hp : Confines id D p) (hs : s.Keeping D)
    (hr : p.run s = .done a t) : s.Rely D t := by
  refine Upholds.run_done ((hp s hs).of_fewer hs ?_) hr
  rintro u _ hu rfl
  exact hu.rely

/-- One statement. -/
theorem confines_attempt {f : τ → Except Halt (α × τ)}
    (h : ∀ s a s', (v s).Keeping D → f s = .ok (a, s') → (v s).Rely D (v s')) :
    Confines v D (attempt f) := by
  intro s _
  refine upholds_attempt (fun s' a s'' hs' hf => ?_) fun s' _ hs' _ => hs'.keeping
  have hr := h s' a s'' hs'.keeping hf
  exact ⟨hr.keeping, hs'.trans hr⟩

theorem confines_act {f : τ → α × τ} (h : ∀ s, (v s).Keeping D → (v s).Rely D (v (f s).2)) :
    Confines v D (act f) := by
  intro s _
  refine upholds_act fun s' hs' => ?_
  have hr := h s' hs'.keeping
  exact ⟨hr.keeping, hs'.trans hr⟩

theorem confines_read (f : τ → α) : Confines v D (read f) := confines_act fun _ h => h.rely

theorem confines_modify {f : τ → τ} (hfs : ∀ s, (v (f s)).fs = (v s).fs)
    (hconf : ∀ s, (v (f s)).conf = (v s).conf) (htail : ∀ s, (v (f s)).tail = (v s).tail) :
    Confines v D (modify f) :=
  confines_act fun s h => h.rely.same (hfs s) (hconf s) (htail s)

theorem confines_ite {c : Prop} [Decidable c] {p q : Prog τ α} (hp : Confines v D p)
    (hq : Confines v D q) : Confines v D (if c then p else q) := by
  split
  · exact hp
  · exact hq

theorem confines_loop {cond : ℕ → τ → Bool} {body : ℕ → β → Prog τ β}
    (h : ∀ i b, Confines v D (body i b)) (n i : ℕ) (b : β) :
    Confines v D (loop cond body n i b) := by
  induction n generalizing i b with
  | zero => exact confines_halt _
  | succ n ih =>
    refine (confines_read _).bind fun c => ?_
    cases c with
    | false => exact confines_pure b
    | true => exact (h i b).bind fun b' => ih (i + 1) b'

/-- A program on a part that holds the world. -/
theorem upholds_zoom_part {σ : Type} {l : Lens τ σ} {v' : σ → World} {p : Prog σ α}
    {Q : α → σ → Prop} {t : τ} (hv : ∀ t, v t = v' (l.get t))
    (h : Upholds (fun s t => (v' s).Rely D (v' t)) (fun t => (v' t).Keeping D) p Q (l.get t)) :
    Upholds (fun s t => (v s).Rely D (v t)) (fun t => (v t).Keeping D) (zoom l p)
      (fun a t' => Q a (l.get t')) t := by
  have hz := upholds_zoom_beside (fun s t => (v s).Rely D (v t)) (l := l) (t := t)
    (F := fun _ => True) (fun t t' h => by rwa [← hv, ← hv]) (fun _ _ _ h => h) (fun _ _ h => h)
    h trivial
  refine (hz.weaken fun t' ht => ?_).mono fun a t' ht => ht.1
  rw [hv]
  exact ht.1

theorem Confines.zoom {σ : Type} {l : Lens τ σ} {v' : σ → World} {p : Prog σ α}
    (hp : Confines v' D p) (hv : ∀ t, v t = v' (l.get t)) : Confines v D (zoom l p) := by
  intro s hs
  refine (upholds_zoom_part hv (hp (l.get s) (hv s ▸ hs))).mono fun a t ht => ?_
  rwa [hv, hv]

/-- The program opens an own file for writing, unless it returns nothing. -/
def Opens (v : τ → World) (D : Domain) (p : Prog τ (Option ℕ)) : Prop :=
  ∀ s, (v s).Keeping D → Upholds (fun s t => (v s).Rely D (v t)) (fun t => (v t).Keeping D) p
    (fun o t => (v s).Rely D (v t) ∧ ∀ f, o = some f → (v s).Drafting D f (v t)) s

theorem opens_fopenWrite (hn : name ∈ fileNames) :
    Opens id D (attempt fun w => w.fopenWrite (w.conffileParam name)) := by
  intro s _
  refine upholds_attempt (fun s' o u hs' ho => ?_) fun s' _ hs' _ => hs'.keeping
  cases o with
  | none =>
    have hu := World.Rely.fopenWrite_none hs' ho
    exact ⟨hu.keeping, hu, nofun⟩
  | some f =>
    have hu := World.Rely.fopenWrite hs' hn ho
    refine ⟨hu.rely.keeping, hu.rely, fun f' hf' => ?_⟩
    cases hf'
    exact hu

/-- What is done with a file that was opened for writing. -/
theorem Opens.bind {p : Prog τ (Option ℕ)} {g : Option ℕ → Prog τ β} (hp : Opens v D p)
    (hnone : Confines v D (g none)) (hsome : ∀ f, Drafts v D f (g (some f))) :
    Confines v D (p >>= g) := by
  intro s hs
  refine upholds_bind ((hp s hs).mono fun o u hu => ?_)
  cases o with
  | none => exact (hnone u hu.1.keeping).mono fun _ t ht => hu.1.trans ht
  | some f =>
    exact ((hsome f s).upholds (fun _ _ h' h => h.next h') (fun _ h => h.rely.keeping)
      (hu.2 f rfl)).mono fun _ t ht => ht.rely

theorem Opens.zoom {σ : Type} {l : Lens τ σ} {v' : σ → World} {p : Prog σ (Option ℕ)}
    (hp : Opens v' D p) (hv : ∀ t, v t = v' (l.get t)) : Opens v D (zoom l p) := by
  intro s hs
  refine (upholds_zoom_part hv (hp (l.get s) (hv s ▸ hs))).mono fun o t ht => ?_
  rwa [hv, hv]

theorem drafts_fclose (f : ℕ) : Drafts id D f (modify (·.fclose f)) :=
  fun _ => keeps_act fun _ h => h.fclose

theorem drafts_loop {cond : ℕ → τ → Bool} {body : ℕ → β → Prog τ β}
    (h : ∀ i b, Drafts v D f (body i b)) (n i : ℕ) (b : β) : Drafts v D f (loop cond body n i b) :=
  fun s => keeps_loop (fun i b => h i b s) n i b

theorem Drafts.bind {p : Prog τ α} {g : α → Prog τ β} (hp : Drafts v D f p)
    (hg : ∀ a, Drafts v D f (g a)) : Drafts v D f (p >>= g) :=
  fun s => (hp s).bind fun a => hg a s

end Programs

/-! ### auth.c -/

/-- A lookup of a number. -/
theorem confines_int (name : CStr) :
    Confines id D (attempt fun w => (w.conffileParamInt name).map (·, w)) := by
  refine confines_attempt fun w a w' h hf => ?_
  cases hp : w.conffileParamInt name with
  | error e =>
    rw [hp] at hf
    cases hf
  | ok n =>
    rw [hp] at hf
    cases hf
    exact h.rely

theorem confines_onTables (g : Tables → Tables) : Confines id D (modify (·.onTables g)) :=
  confines_modify (fun _ => rfl) (fun _ => rfl) fun _ => rfl

theorem confines_store (p : World → ℕ × ℕ) (g : World → AuthEntry → AuthEntry) :
    Confines id D (attempt fun w => w.store (p w) (g w)) := by
  refine confines_attempt fun w a w' hw h => ?_
  unfold World.store at h
  cases hs : w.tables.store (p w) (g w) with
  | error e =>
    rw [hs] at h
    cases h
  | ok tb =>
    rw [hs] at h
    cases h
    exact hw.rely.same rfl rfl rfl

theorem confines_authWriteText : Confines id D authWriteText := by
  refine (opens_fopenWrite (by simp [fileNames])).bind (confines_halt _) fun f => ?_
  have hread : Drafts id D f (read fun w : World => w.tables.authCur + 1) := fun _ => keeps_read _
  refine hread.bind fun n => (drafts_loop (fun i _ s => ?_) _ _ _).bind fun _ =>
    (drafts_fclose f).bind fun _ s => ?_
  · refine keeps_attempt fun t _ u ht hp => ?_
    unfold World.printHost at hp
    split at hp
    · cases hp
    · split at hp <;> cases hp
      exact ht.fprintf _
  · exact keeps_attempt fun t _ u ht hp => ht.next (ht.rely.publish hp).2

theorem confines_authTextAdd (libc : Libc) (username hostname : CStr) :
    Confines id D (authTextAdd libc username hostname) := by
  refine (confines_read _).bind fun e => ?_
  cases e with
  | some p => exact confines_store _ _
  | none =>
    refine (confines_onTables _).bind fun _ => ?_
    refine (confines_store _ _).bind fun _ => ?_
    refine (confines_store _ _).bind fun _ => ?_
    exact (confines_onTables _).bind fun _ => (confines_onTables _).bind fun _ =>
      confines_authWriteText

theorem confines_cleanEntry (c max : ℤ) (i n : ℕ) : Confines id D (cleanEntry c max i n) := by
  refine Confines.bind (confines_attempt fun w a w' h hl => ?_) fun e => confines_ite ?_ ?_
  · cases hp : w.tables.load (w.tables.auth, i) with
    | error e =>
      rw [hp] at hl
      cases hl
    | ok e =>
      rw [hp] at hl
      cases hl
      exact h.rely
  · refine (confines_store _ _).bind fun _ => ?_
    exact (confines_store _ _).bind fun _ => confines_pure _
  · exact confines_pure _

theorem confines_authTextClean : Confines id D authTextClean := by
  refine (confines_read _).bind fun c => (confines_int _).bind fun max =>
    (confines_read _).bind fun m => ?_
  refine (confines_loop (confines_cleanEntry c max) _ _ _).bind fun n =>
    (confines_read _).bind fun tmp => ?_
  exact (confines_onTables _).bind fun _ => (confines_onTables _).bind fun _ =>
    (confines_onTables _).bind fun _ => confines_authWriteText

theorem confines_authInitTables : Confines id D authInitTables := by
  refine (confines_onTables _).bind fun _ => (confines_int _).bind fun flush => ?_
  exact (confines_onTables _).bind fun _ =>
    confines_modify (fun _ => rfl) (fun _ => rfl) fun _ => rfl

/-! ### With the database -/

section Db

open DbWorld

theorem confines_call {c : DbCall} {code : ℕ} {g : World → World}
    (hg : ∀ w : World, w.Keeping D → w.Rely D (g w)) : Confines world D (call c code g) := by
  intro d _ d' hd'
  have hstep : d'.world.Rely D (afterCall c code g d').world := by
    unfold afterCall
    dsimp only
    split
    · exact hg _ hd'.keeping
    · exact hd'.keeping.rely
  refine ⟨hstep.keeping, ?_⟩
  dsimp only
  split
  · exact hd'.trans hstep
  · trivial

theorem World.Keeping.ensureFile (h : w.Keeping D) {path : Option CStr}
    (hx : ∀ x, path = some x → D.own x) : w.Rely D (w.ensureFile path) := by
  unfold World.ensureFile
  split
  · exact h.rely
  · next x =>
    split
    · exact h.rely.changes (Fs.changes_create h.divided (hx x rfl) rfl rfl rfl) le_rfl
        (fun _ _ => rfl) rfl rfl
    · exact h.rely

end Db

end ExactDaemon
