import ExactDaemon.Daemon.Nesting
import ExactDaemon.Tail.Growing

/-! # The termination

Once `exit_handler` has run to its end neither the pid file nor the relay file is there, in
whatever order the handlers find each other, if each signal comes in time: the termination
while the table is whole and, with the database, the handle is open, and no other signal that
may create a file which `exit_handler` has just removed.
-/

namespace ExactDaemon

open Prog Daemon

variable {lib : RegexLib} {b : Build} {w u : World} {text : Bytes} {fn name x val : CStr}
  {ps : List Param} {A : Set Signal} {s t : Daemon} {i : Signal} {names : List CStr}

/-! ### The handler of the termination -/

/-- The table is whole and the two parameters are what they were at the start. -/
structure Daemon.Ready (w : World) (s : Daemon) : Prop where
  unfreed : s.freed = 0
  lookup : ∀ name ∈ removedNames, s.db.world.conffileParam name = w.conffileParam name

theorem Daemon.Ready.of_timely (hw : w.FromFile lib text ps) (hs : s.Sound ps w A)
    (ht : Timely b w s .term) : s.Ready w := by
  refine ⟨ht.1, fun name hn => ?_⟩
  obtain ⟨v, hv⟩ := ht.2.1 name hn
  obtain ⟨qs, hqs, happ⟩ := hs.partly
  rw [hv, happ.lookup hqs hw.appends (not_appended_of_created (i := .hup) hn) hv]

/-- The table stays whole until the handler ends. -/
theorem Daemon.Ready.later (hw : w.FromFile lib text ps) (hs : s.Ready w)
    (hst : Daemon.Rely b w text ps A s t) : t.Ready w := by
  obtain ⟨hguar, hsound, -⟩ := hst
  by_cases hA : Signal.hup ∈ A
  · obtain ⟨hc, hf, -⟩ := hguar.reload hA
    refine ⟨hf.trans hs.unfreed, fun name hn => ?_⟩
    rw [← hs.lookup name hn, World.conffileParam, hc]
    rfl
  · obtain ⟨hf, -, happ⟩ := hsound.whole hA
    refine ⟨hf, fun name hn => ?_⟩
    have hne := not_appended_of_created (i := .hup) hn
    rw [happ.conffileParam hne, hw.appends.conffileParam hne]

/-- What the handler finds under one of its names. -/
theorem Daemon.Ready.exists_path (hw : w.FromFile lib text ps) (hs : s.Ready w)
    (hn : name ∈ removedNames) :
    ∃ x, w.conffileParam name = some x ∧ s.db.world.conffileParam name = some x := by
  have hreq : name ∈ requiredS.take 6 := by
    revert name
    decide
  obtain ⟨x, hx⟩ := hw.accepted.required name hreq
  exact ⟨x, hx, (hs.lookup name hn).trans hx⟩

/-- The daemon after one of its files was removed. -/
def Daemon.unlinked (s : Daemon) (name x : CStr) : Daemon :=
  { toWorld.set s { s.db.world with fs := s.db.world.fs.unlink x } with
    removed := name :: s.removed }

theorem unlinkParam_eq (hs : s.freed = 0) (hx : s.db.world.conffileParam name = some x) :
    unlinkParam name s = .ok ((), s.unlinked name x) := by
  unfold unlinkParam
  rw [if_pos hs, World.unlinkParam, hx]
  rfl

/-- The next of the two files is removed. -/
theorem meets_unlinkParam {E : Halt → Daemon → Prop} {Q : Unit → Daemon → Prop}
    (hw : w.FromFile lib text ps) (hs : s.Ready w) (hn : name ∈ removedNames)
    (hsound : ∀ t, Daemon.Rely b w text ps A s t → ∀ x, w.conffileParam name = some x →
      (t.unlinked name x).Sound ps w A)
    (hQ : ∀ t x, Daemon.Rely b w text ps A s t → (t.unlinked name x).Ready w →
      Q () (t.unlinked name x)) :
    Meets (Daemon.Rely b w text ps A) (fun t => t.Sound ps w A) E (attempt (unlinkParam name))
      Q s := by
  refine meets_attempt fun t hst => ?_
  have ht := hs.later hw hst
  obtain ⟨x, hx, hx'⟩ := ht.exists_path hw hn
  exact ⟨(), t.unlinked name x, unlinkParam_eq ht.unfreed hx', hsound t hst x hx,
    hQ t x hst ⟨ht.unfreed, ht.lookup⟩⟩

/-- Closing the open handle. -/
theorem meets_authExit {E : Halt → Daemon → Prop} {Q : Unit → Daemon → Prop}
    (hopen : b.withDb = true → s.db.handle = .opened)
    (hQ : Q () s)
    (hQ' : ∀ t d, Daemon.Rely b w text ps A s t → d.world = t.db.world →
      Q () { t with db := d }) :
    Meets (Daemon.Rely b w text ps A) (fun t => t.Sound ps w A) E
      (zoom toDb (DbWorld.authExit b.withDb)) Q s := by
  unfold DbWorld.authExit
  cases hb : b.withDb with
  | false => exact meets_pure hQ
  | true =>
    have hstep : ∀ t, Daemon.Rely b w text ps A s t → t.db.handle = .opened :=
      fun t hst => hst.1.handle.trans (hopen hb)
    refine ⟨fun t hst => ⟨?_, ?_⟩, fun t hst => ?_⟩
    · obtain ⟨-, hsound, -⟩ := hst
      exact ⟨hsound.partly, hsound.whole, hsound.fresh, hsound.clean⟩
    · dsimp only
      rw [show (toDb.get t).handle = .opened from hstep t hst, if_pos rfl]
      exact hQ' t _ hst rfl
    · dsimp only
      rw [show (toDb.get t).handle = .opened from hstep t hst, if_pos rfl]
      trivial

theorem gone_pid (hx : w.conffileParam (cstr "pidfile") = some x) {y : CStr}
    (hy : Gone w [cstr "pidfile"] y) : y = x := by
  rcases hy with ⟨-, hmem⟩ | ⟨hval, -⟩
  · exact absurd hmem (by decide)
  · exact Option.some.inj (hval.symm.trans hx)

/-- With both files removed, both are gone. -/
theorem gone_of_removed (hn : name ∈ removedNames) (hx : w.conffileParam name = some x) :
    Gone w [cstr "authfile", cstr "pidfile"] x := by
  by_cases hf : w.conffileParam (cstr "authfile") = some x
  · exact .inl ⟨hf, List.mem_cons_self⟩
  · refine .inr ⟨?_, List.mem_cons_of_mem _ List.mem_cons_self, hf⟩
    rcases List.mem_cons.mp hn with rfl | hn
    · exact hx
    · rw [List.mem_singleton.mp hn] at hx
      exact absurd hx hf

/-- How each handler ends the process, if it does. -/
def EndsBy (w : World) : Signal → Halt → Daemon → Prop
  | .term, e, t => e = .exit 0 ∧ Cleared w t
  | _, _, _ => True

/-- What is left of the handler once the pid file is removed. -/
theorem meets_removeAuthfile {Q : Unit → Daemon → Prop} (hw : w.FromFile lib text ps)
    (hA : .term ∈ A) (hs : s.Ready w) (hremoved : s.removed = [cstr "pidfile"]) :
    Meets (Daemon.Rely b w text ps A) (fun t => t.Sound ps w A) (EndsBy w .term)
      (attempt (unlinkParam (cstr "authfile")) >>= fun _ =>
        (attempt fun _ => .error (.exit 0) : Prog Daemon Unit)) Q s := by
  refine meets_bind (meets_unlinkParam hw hs (List.mem_cons_of_mem _ List.mem_cons_self) ?_ ?_)
  · rintro t ⟨hguar, hsound, -⟩ x hx
    refine ⟨hsound.partly, hsound.whole, fun h => absurd hA h, fun y hy => ?_⟩
    by_cases hyx : y = x
    · rw [hyx]
      exact Function.update_self _ _ _
    · -- the pid file, under another name
      refine (Function.update_of_ne hyx _ _).trans (hsound.clean y ?_)
      rw [hguar.removed, hremoved]
      rcases hy with ⟨hval, -⟩ | ⟨hval, -, hne⟩
      · exact absurd (Option.some.inj (hval.symm.trans hx)) hyx
      · exact .inr ⟨hval, List.mem_cons_self, hne⟩
  · rintro t x hst -
    refine meets_exit fun u hu => ⟨hu.2.1, rfl, fun name hn y hy => hu.2.1.clean y ?_⟩
    rw [hu.1.removed, Daemon.unlinked, hst.1.removed, hremoved]
    exact gone_of_removed hn hy

theorem meets_exitHandler (hp : b.preserve = false) (hw : w.FromFile lib text ps)
    (hA : .term ∉ A) (hs : s.Sound ps w A) (ht : Timely b w s .term) :
    Meets (Daemon.Rely b w text ps (insert .term A)) (fun t => t.Sound ps w (insert .term A))
      (EndsBy w .term) (Daemon.handler b .term)
      (fun _ t => t.Sound ps w A ∧ Undisturbed A s t) s := by
  have hterm : Signal.term ∈ insert Signal.term A := Set.mem_insert _ _
  have hready := Ready.of_timely hw hs ht
  have hnil := hs.fresh hA
  change Meets _ _ _ (Daemon.exitHandler b.withDb b.preserve) _ _
  unfold Daemon.exitHandler
  rw [hp, show Daemon.removeAuthfile false = attempt (unlinkParam (cstr "authfile")) from rfl]
  refine meets_bind (meets_unlinkParam hw hready List.mem_cons_self ?_ ?_)
  · rintro t ⟨hguar, hsound, -⟩ x hx
    refine ⟨hsound.partly, hsound.whole, fun h => absurd hterm h, fun y hy => ?_⟩
    have hy' : Gone w [cstr "pidfile"] y := by
      rw [← hnil, ← hguar.removed]
      exact hy
    rw [gone_pid hx hy']
    exact Function.update_self _ _ _
  rintro t₁ x₁ hst₁ hready₁
  have hremoved₁ : (t₁.unlinked (cstr "pidfile") x₁).removed = [cstr "pidfile"] := by
    rw [← hnil, ← hst₁.1.removed]
    rfl
  generalize ht₁ : t₁.unlinked (cstr "pidfile") x₁ = s₁ at hready₁ hremoved₁ ⊢
  refine meets_bind (meets_authExit ?_ (meets_removeAuthfile hw hterm hready₁ hremoved₁) ?_)
  · intro hb
    rw [← ht₁]
    exact hst₁.1.handle.trans (ht.2.2 hb)
  · intro t d hst hd
    have hready' := hready₁.later hw hst
    refine meets_removeAuthfile hw hterm ⟨hready'.unfreed, fun name hn => ?_⟩
      (hst.1.removed.trans hremoved₁)
    dsimp only
    rw [hd]
    exact hready'.lookup name hn

/-- The handlers keep the invariant among each other, and the termination clears up. -/
theorem respects (hp : b.preserve = false) (hw : w.FromFile b.lib text ps) :
    (surroundings b w text (Timely b w)).Respects (fun A s => s.Sound ps w A) Undisturbed
      (EndsBy w) where
  refl := Undisturbed.refl
  trans _ _ _ _ h h' := h.trans h'
  move _ _ _ hs hst := hs.elsewhere hst
  handler A i s hi hs ht := by
    refine ⟨hs.inserted i, ?_⟩
    cases i with
    | hup => exact meets_reload hw hi hs
    | alrm => exact meets_handler hw (.inl rfl) hs ht
    | usr1 => exact meets_handler hw (.inr rfl) hs ht
    | term => exact meets_exitHandler hp hw hi hs ht

/-! ### The loop of main -/

/-- Outside of the handlers nothing is removed and the table is whole. -/
theorem Daemon.sound_empty_iff : s.Sound ps w ∅ ↔ (s.freed = 0 ∧ s.lines = none ∧
    s.removed = []) ∧ s.db.world.Appends w.conf.filename ps := by
  constructor
  · intro h
    obtain ⟨hf, hl, happ⟩ := h.whole (Set.notMem_empty _)
    exact ⟨⟨hf, hl, h.fresh (Set.notMem_empty _)⟩, happ⟩
  · rintro ⟨⟨hf, hl, hr⟩, happ⟩
    refine ⟨⟨ps, List.prefix_rfl, happ⟩, fun _ => ⟨hf, hl, happ⟩, fun _ => hr, fun x hx => ?_⟩
    rw [hr] at hx
    rcases hx with ⟨-, hmem⟩ | ⟨-, hmem, -⟩ <;> cases hmem

section MainLoop

variable {α : Type}

theorem keeps_sound_toWorld {p : Prog World α}
    (hp : Keeps (World.Appends w.conf.filename ps) p) :
    Keeps (fun s : Daemon => s.Sound ps w ∅) (zoom Daemon.toWorld p) := by
  have hmarks : Keeps (fun s : Daemon => s.freed = 0 ∧ s.lines = none ∧ s.removed = [])
      (zoom Daemon.toWorld p) := keeps_zoom (fun _ _ h => h) _
  exact (hmarks.and (hp.zoom (l := Daemon.toWorld))).congr fun s => Daemon.sound_empty_iff.symm

theorem keeps_sound_toDb {p : Prog DbWorld α}
    (hp : Keeps (fun d => d.world.Appends w.conf.filename ps) p) :
    Keeps (fun s : Daemon => s.Sound ps w ∅) (zoom toDb p) := by
  have hmarks : Keeps (fun s : Daemon => s.freed = 0 ∧ s.lines = none ∧ s.removed = [])
      (zoom toDb p) := keeps_zoom (fun _ _ h => h) _
  exact (hmarks.and (hp.zoom (l := toDb))).congr fun s => Daemon.sound_empty_iff.symm

/-- A statement that looks at the world. -/
theorem keeps_appends_map (f : World → Except Halt α) :
    Keeps (World.Appends fn ps) (attempt fun v => (f v).map (·, v)) := by
  refine keeps_attempt fun v a v' hv h => ?_
  cases hf : f v with
  | error e =>
    rw [hf] at h
    cases h
  | ok r =>
    rw [hf] at h
    cases h
    exact hv

theorem keeps_appends_matchLine (buff : CStr) :
    Keeps (World.Appends fn ps) (matchLine lib buff) := by
  refine (keeps_attempt fun v a v' hv h => ?_).bind fun pos => ?_
  · unfold World.matchPositions at h
    split at h <;> cases h
    exact hv
  refine (keeps_attempt fun v a v' hv h => ?_).bind fun m => ?_
  · unfold World.regexec at h
    split at h <;> cases h
    exact hv
  cases m with
  | ok r =>
    exact (keeps_appends_map fun _ => capture buff (r pos.1) matchLoginUsernameMax).bind fun _ =>
      (keeps_appends_map fun _ => capture buff (r pos.2) matchLoginHostnameMax).bind fun _ =>
        keeps_pure _
  | «nomatch» => exact keeps_pure _
  | espace => exact keeps_halt _
  | other => exact keeps_halt _

theorem keeps_sound_handLine (buff : CStr) :
    Keeps (fun s : Daemon => s.Sound ps w ∅) (Daemon.handLine b buff) := by
  refine (keeps_sound_toWorld (keeps_appends_matchLine buff)).bind fun l => ?_
  cases l with
  | none => exact keeps_pure _
  | some l =>
    refine keeps_sound_toDb (keeps_authAdd ⟨fun _ _ hc h => h.of_conf hc.conf, ?_,
      fun _ _ h => h⟩ _ _ _)
    exact fun d c code g hg h => h.of_conf (conf_afterCall fun v => (hg v).conf)

theorem keeps_sound_scanRound (i : ℕ) (x : ℕ × List CStr) :
    Keeps (fun s : Daemon => s.Sound ps w ∅)
      (scanRoundIn Daemon.toWorld (Daemon.handLine b) i x) := by
  refine Keeps.bind ?_ fun y => keeps_ite (keeps_halt _) (keeps_pure _)
  refine (keeps_sound_toWorld (keeps_appends_map (·.tailByte i))).bind fun c => ?_
  refine keeps_ite ?_ (keeps_pure _)
  refine (keeps_sound_toWorld (keeps_act fun v h => h.of_conf rfl)).bind fun _ => ?_
  refine (keeps_sound_toWorld (keeps_read _)).bind fun l => ?_
  exact (keeps_sound_handLine l).bind fun _ => keeps_pure _

theorem keeps_sound_mainLoop (n : ℕ) :
    Keeps (fun s : Daemon => s.Sound ps w ∅) (mainLoop b n) := by
  have htail : Keeps (World.Appends w.conf.filename ps) tailRead :=
    keeps_of_frame (fun _ => keeps_tailRead) World.Beside.refl fun _ _ h hv => hv.of_conf h.conf
  induction n with
  | zero => exact keeps_halt _
  | succ n ih =>
    refine Keeps.bind ?_ fun _ => ih
    refine (keeps_sound_toWorld htail).bind fun _ => ?_
    refine (keeps_sound_toWorld (keeps_read _)).bind fun m => ?_
    exact (keeps_loop keeps_sound_scanRound _ _ _).bind fun _ => keeps_pure _

end MainLoop

/-- The daemon when `main` has installed its handlers, with the parameters it has read. -/
structure Daemon.Installed (w : World) (s : Daemon) : Prop where
  conf : s.db.world.conf = w.conf
  freed : s.freed = 0
  lines : s.lines = none
  removed : s.removed = []

/-- Whatever the order and the nesting of the signals, if each comes in time, a process that
has ended in `exit_handler` came to its end, and neither the pid file nor the relay file is
there. -/
theorem cleared_of_timely {n : ℕ} {e : Halt} (hp : b.preserve = false)
    (hw : Reads b.lib w.conf.filename text u w) (hs : s.Installed w)
    (h : Amid (surroundings b w text (Timely b w)) ∅ (mainLoop b n) s (.halted e t)
      (some .term)) : e = .exit 0 ∧ Cleared w t := by
  obtain ⟨ps, hloaded⟩ := exists_fromFile hw
  have hsound : s.Sound ps w ∅ := Daemon.sound_empty_iff.mpr
    ⟨⟨hs.freed, hs.lines, hs.removed⟩, hloaded.appends.of_conf hs.conf⟩
  refine h.judged (respects hp hloaded) hsound (Upholds.meets (Q := fun _ _ => True) ?_)
  exact ((keeps_sound_mainLoop n).upholds (fun _ _ hst _ => hst.2.1) (fun _ h => h) hsound).mono
    fun _ _ _ => trivial

/-! ### A daemon with both files -/

/-- The daemon with a pid file and a relay file. -/
def Daemon.running (v : World) : Daemon :=
  .boot ((v.withFile (cstr "p") (cstr "1")).withFile (cstr "a") (cstr "home\n")) []

/-- The configuration file is as it was. -/
def Daemon.Keeps (c : Config) (s : Daemon) : Prop :=
  s.db.world.fs.contents (cstr "c") = some c.conf

instance (c : Config) (s : Daemon) : Decidable (s.Keeps c) :=
  inferInstanceAs (Decidable (_ = _))

/-- What `exit_handler` does before it exits. -/
def removesBoth : Prog Daemon Unit := do
  attempt (Daemon.unlinkParam (cstr "pidfile"))
  attempt (Daemon.unlinkParam (cstr "authfile"))

theorem exitHandler_simple : Daemon.handler .simple .term =
    removesBoth >>= fun _ => attempt fun _ => .error (.exit 0) := by
  unfold removesBoth
  rw [LawfulMonad.bind_assoc]
  rfl

/-- The daemon reads the small configuration. Then `exit_handler` removes both files, also after
an alarm at the beginning of it, and an alarm at the end of it brings one of them back. -/
def RunsSmall (c : Config) : Prop :=
  ((World.fresh (cstr "c")).install c).fs.contents (cstr "c") = some c.conf ∧
    ((readCheck RegexLib.posix).run ((World.fresh (cstr "c")).install c)).Returns fun _ v =>
      v.conf.filename = cstr "c" ∧
        v.conffileParam (cstr "authfile") = some (cstr "a") ∧
        v.conffileParam (cstr "pidfile") = some (cstr "p") ∧
        (∀ s ∈ removesBoth.trace (Daemon.running v), s.Keeps c) ∧
        ((removesBoth.run (Daemon.running v)).Returns fun _ s =>
          (∀ s' ∈ (Daemon.handler .simple .alrm).trace s, s'.Keeps c) ∧
            ((Daemon.handler .simple .alrm).run s).Returns fun _ t =>
              t.Keeps c ∧ t.db.world.fs.dir (cstr "a") ≠ none) ∧
        (∀ s ∈ (Daemon.handler .simple .alrm).trace (Daemon.running v), s.Keeps c) ∧
        ((Daemon.handler .simple .alrm).run (Daemon.running v)).Returns fun _ s =>
          (∀ s' ∈ removesBoth.trace s, s'.Keeps c) ∧
            (removesBoth.run s).Returns fun _ t => t.Keeps c

theorem exists_runsSmall : ∃ c, RunsSmall c := by
  refine ⟨oneStanza (cstr "60") uwImapOrder uwImapMatch, ?_⟩
  unfold RunsSmall
  decide +kernel

/-- The daemon, the process that read its file, and the end of `exit_handler`; `r` is the state
after an alarm at the beginning of it. -/
structure Small (c : Config) (v : World) (s r s' : Daemon) : Prop where
  reads : Reads RegexLib.posix v.conf.filename c.conf ((World.fresh (cstr "c")).install c) v
  authfile : v.conffileParam (cstr "authfile") = some (cstr "a")
  timely : Timely .simple v (Daemon.running v) .term
  trace : ∀ t ∈ removesBoth.trace (Daemon.running v),
    t.db.world.fs.contents v.conf.filename = some c.conf
  removed : removesBoth.run (Daemon.running v) = .done () s
  alarm : ∀ t ∈ (Daemon.handler .simple .alrm).trace (Daemon.running v),
    t.db.world.fs.contents v.conf.filename = some c.conf
  alarmed : (Daemon.handler .simple .alrm).run (Daemon.running v) = .done () r
  trace' : ∀ t ∈ removesBoth.trace r,
    t.db.world.fs.contents v.conf.filename = some c.conf
  removed' : removesBoth.run r = .done () s'

theorem RunsSmall.exists_small {c : Config} (h : RunsSmall c) : ∃ v s r s' t, Small c v s r s' ∧
    (∀ s' ∈ (Daemon.handler .simple .alrm).trace s,
      s'.db.world.fs.contents v.conf.filename = some c.conf) ∧
    (Daemon.handler .simple .alrm).run s = .done () t ∧ t.db.world.fs.dir (cstr "a") ≠ none ∧
    t.db.world.fs.contents v.conf.filename = some c.conf := by
  obtain ⟨hfile, hread⟩ := h
  obtain ⟨_, v, hread, hfn, hauth, hpid, htrace, hrun, halarm, halarmed⟩ :=
    Outcome.returns_iff.mp hread
  obtain ⟨_, s, hs, htrace', hrun'⟩ := Outcome.returns_iff.mp hrun
  obtain ⟨_, t, ht, hkeeps, hdir⟩ := Outcome.returns_iff.mp hrun'
  obtain ⟨_, r, hr, hrtrace, hremoved⟩ := Outcome.returns_iff.mp halarmed
  obtain ⟨_, s', hs', -⟩ := Outcome.returns_iff.mp hremoved
  refine ⟨v, s, r, s', t, ⟨?_, hauth, ⟨rfl, ?_, fun h => by cases h⟩, ?_, hs, ?_, hr, ?_, hs'⟩, ?_,
    ht, hdir, ?_⟩
  · rw [hfn]
    exact ⟨rfl, hfile, hread⟩
  · exact List.forall_mem_cons.mpr ⟨⟨_, hpid⟩, List.forall_mem_singleton.mpr ⟨_, hauth⟩⟩
  · rw [hfn]
    exact htrace
  · rw [hfn]
    exact halarm
  · rw [hfn]
    exact hrtrace
  · rw [hfn]
    exact htrace'
  · rw [hfn]
    exact hkeeps

theorem installed_running (v : World) : (Daemon.running v).Installed v := ⟨rfl, rfl, rfl, rfl⟩

/-- The termination comes before the first statement of the loop. -/
theorem amid_mainLoop {S : Surroundings Signal Daemon} {v : World} {e : Halt}
    (hh : S.handler = Daemon.handler .simple) (ht : S.timely (Daemon.running v) .term)
    (h : Amid S {.term} (Daemon.handler .simple .term) (Daemon.running v) (.halted e t) none) :
    Amid S ∅ (mainLoop .simple 1) (Daemon.running v) (.halted e t) (some .term) := by
  refine Amid.killed (i := Signal.term) (j := none) (Set.notMem_empty Signal.term) ht ?_
  rw [hh, insert_empty_eq]
  exact h

/-- A termination removes both files, though an alarm comes at its beginning. -/
theorem cleared_small : ∃ (w u : World) (text : Bytes) (s t : Daemon) (e : Halt),
    Reads RegexLib.posix w.conf.filename text u w ∧ s.Installed w ∧
      Amid (surroundings .simple w text (Timely .simple w)) ∅ (mainLoop .simple 1) s
        (.halted e t) (some .term) ∧ e = .exit 0 ∧ Cleared w t := by
  obtain ⟨c, hc⟩ := exists_runsSmall
  obtain ⟨v, _, r, s, _, h, -⟩ := hc.exists_small
  have hend := h.trace' s (mem_trace_of_run h.removed')
  have hamid : Amid (surroundings .simple v c.conf (Timely .simple v)) ∅ (mainLoop .simple 1)
      (Daemon.running v) (.halted (.exit 0) s) (some .term) := by
    refine amid_mainLoop rfl h.timely ?_
    rw [exitHandler_simple]
    have hexit : Amid (surroundings .simple v c.conf (Timely .simple v)) {.term}
        (removesBoth >>= fun _ => attempt fun _ => .error (.exit 0)) r (.halted (.exit 0) s)
        none := .of_run_bind h.trace' h.removed' (.step hend (.halt _ _))
    refine .signal (i := Signal.alrm) (j := none) (by decide) ?_ ?_ hexit
    · rintro name - x - (⟨-, hn⟩ | ⟨-, hn, -⟩) <;> exact absurd hn List.not_mem_nil
    · rw [← h.alarmed]
      exact .of_run h.alarm
  exact ⟨v, _, _, _, s, _, h.reads, installed_running v, hamid,
    cleared_of_timely rfl h.reads (installed_running v) hamid⟩

/-- An alarm after the last file was removed makes the relay file anew. -/
theorem relay_file_stays : ∃ (w u : World) (text : Bytes) (s t : Daemon),
    Reads RegexLib.posix w.conf.filename text u w ∧ s.Installed w ∧
      Amid (surroundings .simple w text fun _ _ => True) ∅ (mainLoop .simple 1) s
        (.halted (.exit 0) t) (some .term) ∧ ¬ Cleared w t := by
  obtain ⟨c, hc⟩ := exists_runsSmall
  obtain ⟨v, s, _, _, t, h, htrace, halrm, hdir, hkept⟩ := hc.exists_small
  refine ⟨v, _, _, Daemon.running v, t, h.reads, installed_running v, ?_, fun hc => ?_⟩
  · refine amid_mainLoop rfl trivial ?_
    rw [exitHandler_simple]
    refine .of_run_bind h.trace h.removed ?_
    refine .signal (i := Signal.alrm) (j := none) (by decide) trivial ?_
      (.step hkept (.halt _ _))
    rw [← halrm]
    exact .of_run htrace
  · exact hdir (hc _ (List.mem_cons_of_mem _ List.mem_cons_self) _ h.authfile)

end ExactDaemon
