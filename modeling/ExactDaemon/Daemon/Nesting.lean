import ExactDaemon.Daemon.Main

/-! # Handlers among each other

The handlers of the daemon may find each other between any two statements. While no reload is
under way the table holds the parameters of the file; in the middle of a reload it holds a
beginning of them. What `exit_handler` has removed for good no handler brings back that comes
in time.
-/

namespace ExactDaemon

open Prog

/-- `exit_handler` has removed the file with this name for the last time. -/
def Gone (w : World) (removed : List CStr) (x : CStr) : Prop :=
  (w.conffileParam (cstr "authfile") = some x ∧ cstr "authfile" ∈ removed) ∨
    (w.conffileParam (cstr "pidfile") = some x ∧ cstr "pidfile" ∈ removed ∧
      w.conffileParam (cstr "authfile") ≠ some x)

/-- The parameters under which a handler creates files. -/
def Signal.creates : Signal → List CStr
  | .alrm => relayNames
  | .usr1 => [cstr "dumpfile"]
  | .hup | .term => []

/-- The files that `exit_handler` removes. -/
def removedNames : List CStr := [cstr "pidfile", cstr "authfile"]

namespace Daemon

/-- The termination finds the table whole, with its two parameters, and with the database an
open handle. Any other signal comes only while nothing is gone that its handler may create. -/
def Timely (b : Build) (w : World) (s : Daemon) : Signal → Prop
  | .term => s.freed = 0 ∧ (∀ name ∈ removedNames, ∃ v, s.db.world.conffileParam name = some v) ∧
      (b.withDb = true → s.db.handle = .opened)
  | i => ∀ name ∈ i.creates, ∀ x, w.conffileParam name = some x → ¬ Gone w s.removed x

/-- The rest of the system: time passes and files change, but nobody else creates the pid file
or the relay file. -/
def Elsewhere (w : World) (s t : Daemon) : Prop :=
  ∃ fs clock, t = toWorld.set s { s.db.world with fs := fs, clock := clock } ∧
    ∀ name ∈ removedNames, ∀ x, w.conffileParam name = some x →
      s.db.world.fs.dir x = none → fs.dir x = none

/-- What a daemon meets that was started with `w` out of a file with this text, which stays
as it is. -/
def surroundings (b : Build) (w : World) (text : Bytes) (timely : Daemon → Signal → Prop) :
    Surroundings Signal Daemon where
  handler := Daemon.handler b
  move := Elsewhere w
  timely := timely
  steady s := s.db.world.fs.contents w.conf.filename = some text

/-- Neither the pid file nor the relay file is there. -/
def Cleared (w : World) (s : Daemon) : Prop :=
  ∀ name ∈ removedNames, ∀ x, w.conffileParam name = some x → s.db.world.fs.dir x = none

end Daemon

/-- What main has made of a file with this text, which defines the parameters `ps`. -/
structure World.FromFile (lib : RegexLib) (text : Bytes) (ps : List Param) (w : World) : Prop where
  read : Conf.readLines lib (text.length + 1) ⟨text, false⟩ ⟨w.conf.filename, []⟩ =
    .ok ⟨w.conf.filename, ps⟩
  appends : w.Appends w.conf.filename ps
  accepted : w.Accepted

open Daemon

variable {lib : RegexLib} {b : Build} {w v u : World} {text : Bytes} {fn name x val : CStr}
  {ps qs : List Param} {A : Set Signal} {s t : Daemon} {i : Signal} {onLiteral : Except Halt Unit}

/-! ### Looking up -/

/-- The lookup in parameters of which some were appended by the check. -/
theorem World.Appends.conffileParam (h : w.Appends fn ps)
    (hname : name ≠ cstr "order" ∧ name ≠ cstr "match") :
    w.conffileParam name = (ps.find? fun p => strcmp name p.name = 0).map (·.value) := by
  obtain ⟨-, extra, hps, hextra⟩ := h
  have hnone : extra.find? (fun p => strcmp name p.name = 0) = none := by
    rw [List.find?_eq_none]
    intro p hp hcmp
    have heq : name = p.name := strcmp_eq_zero.mp (of_decide_eq_true hcmp)
    rcases hextra p hp with ho | hm
    · exact hname.1 (heq.trans ho)
    · exact hname.2 (heq.trans hm)
  unfold World.conffileParam
  rw [hps, List.find?_append, hnone, Option.or_none]

/-- What a beginning of the parameters defines is what all of them define. -/
theorem World.Appends.lookup (h : v.Appends fn qs) (hq : qs <+: ps) (hw : w.Appends fn ps)
    (hname : name ≠ cstr "order" ∧ name ≠ cstr "match") (hv : v.conffileParam name = some val) :
    w.conffileParam name = some val := by
  obtain ⟨rs, rfl⟩ := hq
  rw [h.conffileParam hname] at hv
  obtain ⟨p, hp, rfl⟩ := Option.map_eq_some_iff.mp hv
  rw [hw.conffileParam hname, List.find?_append, hp]
  rfl

/-- Neither of these names is one that the check appends. -/
theorem not_appended_of_created {i : Signal} (hn : name ∈ i.creates ++ removedNames) :
    name ≠ cstr "order" ∧ name ≠ cstr "match" := by
  revert name
  cases i <;> decide

theorem World.Appends.of_conf (h : v.Appends fn ps) (hc : u.conf = v.conf) : u.Appends fn ps := by
  unfold World.Appends
  rw [hc]
  exact h

theorem readLines_filename {k : ℕ} {f : Reader} {cf cf' : Conf}
    (h : Conf.readLines lib k f cf = .ok cf') : cf'.filename = cf.filename := by
  induction k generalizing f cf with
  | zero =>
    cases h
    rfl
  | succ k ih =>
    rcases Conf.readLines_succ_ok h with ⟨-, rfl⟩ | ⟨l, f₁, cf₁, -, hr, h₁⟩
    · rfl
    · rw [ih h₁, readLine_param hr]

/-- A process that reads the file has loaded it. -/
theorem exists_fromFile (h : Reads lib w.conf.filename text u w) :
    ∃ ps, w.FromFile lib text ps := by
  obtain ⟨u₁, o, p, hread, hparam⟩ := param_of_readCheck h.accepts
  obtain ⟨text', htext, hlines⟩ := readLines_of_conffileRead hread
  rw [h.conf] at htext hlines
  obtain rfl : text = text' := Option.some.inj (h.file.symm.trans htext)
  have hu : u₁.conf.filename = (⟨w.conf.filename, []⟩ : Conf).filename :=
    readLines_filename hlines
  refine ⟨u₁.conf.param, ?_, ⟨rfl, _, hparam, ?_⟩, accepted_of_readCheck h.accepts⟩
  · rw [hlines, ← hu]
  · intro p hp
    rcases List.mem_cons.mp hp with rfl | hp
    · exact .inl rfl
    · rw [List.mem_singleton.mp hp]
      exact .inr rfl

/-! ### What the handlers keep -/

/-- The invariant of the handlers of `A`: unless a reload is under way the table holds all the
parameters; before the termination nothing is removed; and what is gone does not come back. -/
structure Daemon.Sound (ps : List Param) (w : World) (A : Set Signal) (s : Daemon) : Prop where
  partly : ∃ qs, qs <+: ps ∧ s.db.world.Appends w.conf.filename qs
  whole : .hup ∉ A → s.freed = 0 ∧ s.lines = none ∧ s.db.world.Appends w.conf.filename ps
  fresh : .term ∉ A → s.removed = []
  clean : ∀ x, Gone w s.removed x → s.db.world.fs.dir x = none

/-- What the other handlers leave alone while those of `A` run. -/
structure Daemon.Undisturbed (A : Set Signal) (s t : Daemon) : Prop where
  removed : t.removed = s.removed
  handle : t.db.handle = s.db.handle
  reload : .hup ∈ A → t.db.world.conf = s.db.world.conf ∧ t.freed = s.freed ∧ t.lines = s.lines

theorem Daemon.Undisturbed.refl (A : Set Signal) (s : Daemon) : Undisturbed A s s :=
  ⟨rfl, rfl, fun _ => ⟨rfl, rfl, rfl⟩⟩

theorem Daemon.Undisturbed.trans (h : Undisturbed A s t) {u : Daemon}
    (h' : Undisturbed A t u) : Undisturbed A s u where
  removed := h'.removed.trans h.removed
  handle := h'.handle.trans h.handle
  reload hA :=
    have ⟨hc, hf, hl⟩ := h.reload hA
    have ⟨hc', hf', hl'⟩ := h'.reload hA
    ⟨hc'.trans hc, hf'.trans hf, hl'.trans hl⟩

theorem Daemon.Undisturbed.of_insert (h : Undisturbed (insert i A) s t) : Undisturbed A s t :=
  ⟨h.removed, h.handle, fun hA => h.reload (Set.mem_insert_of_mem i hA)⟩

theorem Daemon.Sound.inserted (h : s.Sound ps w A) (i : Signal) : s.Sound ps w (insert i A) where
  partly := h.partly
  whole hA := h.whole fun hmem => hA (Set.mem_insert_of_mem i hmem)
  fresh hA := h.fresh fun hmem => hA (Set.mem_insert_of_mem i hmem)
  clean := h.clean

theorem Daemon.Sound.of_insert (h : s.Sound ps w (insert i A)) (hi : i ≠ .hup ∧ i ≠ .term) :
    s.Sound ps w A where
  partly := h.partly
  whole hA := h.whole fun hmem => hmem.elim (fun he => hi.1 he.symm) hA
  fresh hA := h.fresh fun hmem => hmem.elim (fun he => hi.2 he.symm) hA
  clean := h.clean

/-- The rest of the system keeps it. -/
theorem Daemon.Sound.elsewhere (h : s.Sound ps w A) (hst : Elsewhere w s t) :
    t.Sound ps w A ∧ Undisturbed A s t := by
  obtain ⟨fs, clock, rfl, hdir⟩ := hst
  refine ⟨⟨h.partly, h.whole, h.fresh, fun x hx => ?_⟩, rfl, rfl, fun _ => ⟨rfl, rfl, rfl⟩⟩
  have hname : ∃ name ∈ removedNames, w.conffileParam name = some x := by
    rcases hx with ⟨hf, -⟩ | ⟨hp, -⟩
    · exact ⟨_, List.mem_cons_of_mem _ List.mem_cons_self, hf⟩
    · exact ⟨_, List.mem_cons_self, hp⟩
  obtain ⟨name, hn, hval⟩ := hname
  exact hdir name hn x hval (h.clean x hx)

/-! ### The alarm and the dump -/

/-- Each statement of a handler that only creates files under these names keeps the invariant
and changes nothing that the other handlers look at. -/
theorem keeps_zoom_toDb {names : List CStr} {p : Prog DbWorld Unit} (hw : w.FromFile lib text ps)
    (hp : ∀ J, Untouched names J → Keeps J p)
    (hn : ∀ name ∈ names, name ≠ cstr "order" ∧ name ≠ cstr "match")
    (hgone : ∀ name ∈ names, ∀ x, w.conffileParam name = some x → ¬ Gone w s.removed x) :
    Keeps (fun t => t.Sound ps w A ∧ Undisturbed A s t) (zoom toDb p) := by
  let J : DbWorld → Prop := fun d =>
    (∃ qs, qs <+: ps ∧ d.world.Appends w.conf.filename qs) ∧
      (.hup ∉ A → d.world.Appends w.conf.filename ps) ∧
      (∀ x, Gone w s.removed x → d.world.fs.dir x = none) ∧ d.handle = s.db.handle ∧
      (.hup ∈ A → d.world.conf = s.db.world.conf)
  have hset : ∀ d w', d.world.Creates names w' → J d → ∀ d' : DbWorld, d'.world = w' →
      d'.handle = d.handle → J d' := by
    rintro d w' hc ⟨⟨qs, hqs, hpartly⟩, hwhole, hclean, hhandle, hreload⟩ d' rfl hd'
    refine ⟨⟨qs, hqs, hpartly.of_conf hc.conf⟩, fun hA => (hwhole hA).of_conf hc.conf, ?_,
      hd'.trans hhandle, fun hA => hc.conf.trans (hreload hA)⟩
    intro x hx
    refine hc.absent x (fun name hname hval => ?_) (hclean x hx)
    exact hgone name hname x (hpartly.lookup hqs hw.appends (hn name hname) hval) hx
  have hJ : Untouched names J := by
    refine ⟨fun d w' hc hd => hset d w' hc hd _ rfl rfl, fun d c code g hg hd => ?_,
      fun d l hd => hset d d.world (.refl _) hd _ rfl rfl⟩
    refine hset d _ ?_ hd _ rfl rfl
    unfold DbWorld.afterCall
    dsimp only
    split
    · exact hg _
    · exact .refl _
  have hmarks : Keeps (fun t : Daemon => t.removed = s.removed ∧ (.term ∉ A → t.removed = []) ∧
      (.hup ∉ A → t.freed = 0 ∧ t.lines = none) ∧
      (.hup ∈ A → t.freed = s.freed ∧ t.lines = s.lines)) (zoom toDb p) :=
    keeps_zoom (fun _ _ h => h) _
  refine (hmarks.and ((hp J hJ).zoom (l := toDb))).congr fun t => ⟨?_, ?_⟩
  · rintro ⟨⟨hremoved, hfresh, hmark, hmark'⟩, hpartly, hwhole, hclean, hhandle, hreload⟩
    refine ⟨⟨hpartly, fun hA => ⟨(hmark hA).1, (hmark hA).2, hwhole hA⟩, hfresh, ?_⟩,
      hremoved, hhandle, fun hA => ⟨hreload hA, hmark' hA⟩⟩
    rw [hremoved]
    exact hclean
  · rintro ⟨hinv, hguar⟩
    refine ⟨⟨hguar.removed, hinv.fresh, fun hA => ⟨(hinv.whole hA).1, (hinv.whole hA).2.1⟩,
      fun hA => (hguar.reload hA).2⟩, hinv.partly, fun hA => (hinv.whole hA).2.2, ?_,
      hguar.handle, fun hA => (hguar.reload hA).1⟩
    rw [← hguar.removed]
    exact hinv.clean

/-- What may happen between two statements while the handlers of `A` run. -/
def Daemon.Rely (b : Build) (w : World) (text : Bytes) (ps : List Param) (A : Set Signal) :
    Daemon → Daemon → Prop :=
  (surroundings b w text (Timely b w)).Rely (fun A s => s.Sound ps w A) Undisturbed A

theorem keeps_lookUp {J : Daemon → Prop} : Keeps J lookUp := by
  refine keeps_attempt fun s a s' hs h => ?_
  split at h
  · cases h
    exact hs
  · cases h

/-- A handler that only creates files that are not gone. -/
theorem keeps_handler (hw : w.FromFile lib text ps) (hi : i = .alrm ∨ i = .usr1)
    (ht : Timely b w s i) :
    Keeps (fun t => t.Sound ps w A ∧ Undisturbed A s t) (Daemon.handler b i) := by
  have hn : ∀ name ∈ i.creates, name ≠ cstr "order" ∧ name ≠ cstr "match" := fun name hname =>
    not_appended_of_created (List.mem_append_left _ hname)
  rcases hi with rfl | rfl
  · refine keeps_lookUp.bind fun _ => (keeps_read _).bind fun v => ?_
    exact keeps_zoom_toDb hw (fun _ hJ => keeps_authClean hJ _) hn ht
  · refine keeps_lookUp.bind fun _ => ?_
    exact keeps_zoom_toDb hw (fun _ hJ => keeps_authDump hJ _) hn ht

theorem meets_handler (hw : w.FromFile lib text ps) (hi : i = .alrm ∨ i = .usr1)
    (hs : s.Sound ps w A) (ht : Timely b w s i) :
    Meets (Daemon.Rely b w text ps (insert i A)) (fun t => t.Sound ps w (insert i A))
      (fun _ _ => True) (Daemon.handler b i) (fun _ t => t.Sound ps w A ∧ Undisturbed A s t) s := by
  have hne : i ≠ .hup ∧ i ≠ .term := by rcases hi with rfl | rfl <;> decide
  refine Upholds.meets (Keeps.upholds (keeps_handler hw hi ht) ?_ ?_ ⟨hs, .refl A s⟩)
  · rintro t u ⟨hguar, hsound, -⟩ ⟨-, hst⟩
    exact ⟨hsound.of_insert hne, hst.trans hguar.of_insert⟩
  · rintro t ⟨hsound, -⟩
    exact hsound.inserted i

/-! ### The reload -/

section Reload

variable {r r' : Reloading} {cf : Conf} {n : ℕ} {f : Reader}

/-- Lines that define `cf` leave it in the table. -/
theorem upholds_readLines (hr : r.freed = 0) (h : Conf.readLines lib n f r.world.conf = .ok cf) :
    Upholds (Reloading.Meanwhile fn text) (fun _ => True) (Reloading.conffileLines lib n f)
      (fun _ r' => r'.freed = 0 ∧ r'.world.conf = cf) r := by
  induction n generalizing f r with
  | zero => trivial
  | succ n ih =>
    unfold Reloading.conffileLines
    rcases hf : f.fgets 1023 with ⟨_ | l, f'⟩
    · rw [Conf.readLines_of_none (by rw [hf])] at h
      exact ⟨hr, Except.ok.inj h⟩
    · refine upholds_bind (upholds_attempt (fun r₁ _ r₂ h₁ hline => ⟨trivial, ?_⟩)
        fun _ _ _ _ => trivial)
      rw [← h₁.conf] at h
      rcases Conf.readLines_succ_ok h with ⟨hnone, -⟩ | ⟨l', f₁, cf₁, hf₁, hl, hrest⟩
      · rw [hf] at hnone
        cases hnone
      · rw [hf] at hf₁
        cases hf₁
        unfold Reloading.readLine World.onConf at hline
        rw [hl] at hline
        cases hline
        exact ih (h₁.freed.trans hr) hrest

/-- The check changes nothing of what has been read. -/
theorem upholds_check (hr : r.freed = 0) (h : r.world.Appends fn ps) :
    Upholds (Reloading.Meanwhile fn text) (fun _ => True)
      (zoom Reloading.toWorld (conffileCheck lib))
      (fun _ r' => r'.freed = 0 ∧ r'.world.Appends fn ps) r := by
  have hfreed : Keeps (fun r : Reloading => r.freed = 0)
      (zoom Reloading.toWorld (conffileCheck lib)) := keeps_zoom (fun _ _ h => h) _
  refine (hfreed.and (keeps_conffileCheck.zoom (l := Reloading.toWorld))).upholds ?_
    (fun _ _ => trivial) ⟨hr, h⟩
  rintro u v hm ⟨hu, happ⟩
  exact ⟨hm.freed.trans hu, happ.of_conf hm.conf⟩

/-- A reload that returns has read the whole file again. -/
theorem upholds_reload (hw : w.FromFile lib text ps) (hr : r.Old v)
    (hfn : v.conf.filename = w.conf.filename) :
    Upholds (Reloading.Meanwhile w.conf.filename text) (fun _ => True)
      (Reloading.conffileReload onLiteral lib)
      (fun _ r' => r'.freed = 0 ∧ r'.world.Appends w.conf.filename ps) r := by
  rw [← hfn]
  have hfree : Upholds (Reloading.Meanwhile v.conf.filename text)
      (Reloading.Course lib v.conf.filename text v) (Reloading.conffileFree onLiteral) _ r :=
    upholds_conffileFree hr
  refine upholds_bind ((hfree.weaken fun _ _ => trivial).mono ?_)
  rintro _ r₁ ⟨hfilled, hnil⟩
  have hconf : r₁.world.conf = ⟨w.conf.filename, []⟩ := by
    rw [← hfn, ← hfilled.appends.1, ← hnil]
  refine upholds_bind ?_
  refine upholds_bind (upholds_act fun r₂ h₂ => ⟨trivial, ?_⟩)
  dsimp only
  rw [show r₂.world.conf.filename = v.conf.filename by rw [h₂.conf, hconf, hfn], h₂.file]
  have hread : Conf.readLines lib (text.length + 1) ⟨text, false⟩ r₂.world.conf =
      .ok ⟨w.conf.filename, ps⟩ := by
    rw [h₂.conf, hconf]
    exact hw.read
  refine (upholds_readLines (h₂.freed.trans hfilled.freed) hread).mono ?_
  rintro _ r₃ ⟨hfreed, hcf⟩
  refine upholds_check hfreed ⟨?_, [], ?_, List.forall_mem_nil _⟩
  · rw [hcf, hfn]
  · rw [hcf, List.append_nil]

/-- The check changes the parameters and the static section of the parser. -/
theorem keeps_check {J : World → Prop} (hparam : ∀ w ps, J w → J (w.withParam ps))
    (hsection : ∀ (w : World) x, J w → J { w with staticSection := x }) :
    Keeps J (conffileCheck lib) := by
  refine (keeps_forM fun _ => keeps_lookup fun _ _ _ => require_same).bind fun _ => ?_
  refine (keeps_forM fun _ => keeps_lookup fun _ _ _ => requireInt_same).bind fun _ => ?_
  refine (keeps_lookup fun _ _ _ => derefParam_same).bind fun sd => ?_
  refine (keeps_attempt fun w a w' h hs => ?_).bind fun sec => ?_
  · unfold World.serverSection at hs
    split at hs
    · cases hs
    · cases hs
    · split at hs
      · cases hs
      · split at hs <;> cases hs
        exact hsection w _ h
  · refine (keeps_addLiteral hparam _ _).bind fun _ => ?_
    refine (keeps_addLiteral hparam _ _).bind fun _ => ?_
    exact (keeps_lookup fun _ _ _ => oneOf_same).bind fun _ => keeps_lookup fun _ _ _ => oneOf_same

/-- A reload does not touch the files. -/
theorem keeps_reload_fs (P : Fs → Prop) : Keeps (fun r : Reloading => P r.world.fs)
    (Reloading.conffileReload onLiteral lib) := by
  have hfree : Keeps (fun r : Reloading => P r.world.fs) (Reloading.conffileFree onLiteral) := by
    refine (keeps_read _).bind fun n => (keeps_loop (fun i _ => ?_) _ _ _).bind fun _ =>
      keeps_act fun _ h => h
    refine Keeps.bind (keeps_attempt fun r _ r' h hf => ?_) fun _ => keeps_act fun _ h => h
    unfold Reloading.freeName at hf
    cases hname : r.world.freeName onLiteral i with
    | error e =>
      rw [hname] at hf
      cases hf
    | ok x =>
      rw [hname] at hf
      cases hf
      rwa [show x.2 = r.world from freeName_same hname]
  have hlines : ∀ n f, Keeps (fun r : Reloading => P r.world.fs)
      (Reloading.conffileLines lib n f) := by
    intro n
    induction n with
    | zero => exact fun f => keeps_halt _
    | succ n ih =>
      intro f
      unfold Reloading.conffileLines
      split
      · exact keeps_pure _
      · refine Keeps.bind (keeps_attempt fun r _ r' h hl => ?_) fun _ => ih _
        unfold Reloading.readLine World.onConf at hl
        cases hcf : Conf.readLine lib _ r.world.conf with
        | error e =>
          rw [hcf] at hl
          cases hl
        | ok cf =>
          rw [hcf] at hl
          cases hl
          exact h
  refine hfree.bind fun _ => Keeps.bind ((keeps_read _).bind fun f => ?_) fun _ => ?_
  · cases f with
    | none => exact keeps_halt _
    | some text => exact hlines _ _
  · have hcheck : Keeps (fun w : World => P w.fs) (conffileCheck lib) :=
      keeps_check (fun _ _ h => h) fun _ _ h => h
    exact hcheck.zoom (l := Reloading.toWorld)

end Reload

theorem meets_reload (hw : w.FromFile b.lib text ps) (hA : .hup ∉ A) (hs : s.Sound ps w A) :
    Meets (Daemon.Rely b w text ps (insert .hup A)) (fun t => t.Sound ps w (insert .hup A))
      (fun _ _ => True) (Daemon.handler b .hup)
      (fun _ t => t.Sound ps w A ∧ Undisturbed A s t) s := by
  obtain ⟨hfreed, hlines, happ⟩ := hs.whole hA
  set A' := insert Signal.hup A with hA'
  have hup : Signal.hup ∈ A' := Set.mem_insert _ _
  set r : Reloading := toReloading.get s
  have hold : r.Old s.db.world := ⟨hlines, rfl⟩
  -- what the others do is what the reload relies on
  have hmeanwhile : ∀ t u, Daemon.Rely b w text ps A' t u →
      Reloading.Meanwhile w.conf.filename text (toReloading.get t) (toReloading.get u) := by
    rintro t u ⟨hguar, -, hsteady⟩
    obtain ⟨hc, hf, hl⟩ := hguar.reload hup
    exact ⟨hf, hl, hc, hsteady⟩
  have hmarks : ∀ t u, Daemon.Rely b w text ps A' t u →
      (t.removed = s.removed ∧ t.db.handle = s.db.handle) →
      u.removed = s.removed ∧ u.db.handle = s.db.handle := by
    rintro t u ⟨hguar, -⟩ ⟨hremoved, hhandle⟩
    exact ⟨hguar.removed.trans hremoved, hguar.handle.trans hhandle⟩
  have hcourse : Upholds (Reloading.Meanwhile s.db.world.conf.filename text)
      (Reloading.Course b.lib s.db.world.conf.filename text s.db.world)
      (Reloading.conffileReload b.onLiteral b.lib) _ r := upholds_conffileReload hold
  have hread : Upholds (Reloading.Meanwhile w.conf.filename text) _
      (Reloading.conffileReload b.onLiteral b.lib) _ r := upholds_reload hw hold happ.1
  rw [happ.1] at hcourse
  have hzoom := upholds_zoom_beside (Daemon.Rely b w text ps A') (l := toReloading) hmeanwhile
    hmarks (fun _ _ h => h) (hcourse.and hread) (t := s) ⟨rfl, rfl⟩
  have hdir : Keeps (fun t : Daemon => ∀ x, Gone w s.removed x → t.db.world.fs.dir x = none)
      (zoom toReloading (Reloading.conffileReload b.onLiteral b.lib)) :=
    (keeps_reload_fs fun fs => ∀ x, Gone w s.removed x → fs.dir x = none).zoom (l := toReloading)
  have hfs := hdir.and (keeps_zoom (J := fun t : Daemon => t.removed = s.removed)
    (fun _ _ h => h) _)
  have hclean : ∀ t u, Daemon.Rely b w text ps A' t u →
      (∀ x, Gone w s.removed x → t.db.world.fs.dir x = none) ∧ t.removed = s.removed →
      (∀ x, Gone w s.removed x → u.db.world.fs.dir x = none) ∧ u.removed = s.removed := by
    rintro t u ⟨hguar, hsound, -⟩ ⟨-, ht⟩
    have hu := hguar.removed.trans ht
    exact ⟨fun x hx => hsound.clean x (by rwa [hu]), hu⟩
  have hboth := hzoom.and (hfs.upholds hclean (fun _ h => h) ⟨hs.clean, rfl⟩)
  refine Upholds.meets (upholds_bind ((hboth.weaken ?_).mono ?_))
  · rintro t ⟨⟨⟨hc, -⟩, -⟩, hgone, hremoved⟩
    refine ⟨?_, fun h => absurd hup h, fun h => ?_, fun x hx => hgone x (by rwa [← hremoved])⟩
    · rcases hc with hold' | ⟨k, cf, hfilled⟩
      · exact ⟨ps, List.prefix_rfl, happ.of_conf hold'.conf⟩
      · exact ⟨cf.param, readLines_mono hfilled.few hfilled.read hw.read, hfilled.appends⟩
    · rw [hremoved]
      exact hs.fresh fun hmem => h (Set.mem_insert_of_mem _ hmem)
  · rintro _ t ⟨⟨⟨-, hfreed', happ'⟩, hremoved, hhandle⟩, hgone, -⟩
    refine upholds_modify fun u hu => ?_
    obtain ⟨hguar, hsound, -⟩ := hu
    obtain ⟨hc, hf, -⟩ := hguar.reload hup
    have hrest : ({ u with lines := none } : Daemon).Sound ps w A := by
      refine ⟨hsound.partly, fun _ => ⟨hf.trans hfreed', rfl, happ'.of_conf hc⟩, fun h => ?_,
        hsound.clean⟩
      exact (hguar.removed.trans hremoved).trans (hs.fresh h)
    exact ⟨hrest.inserted _, hrest, hguar.removed.trans hremoved, hguar.handle.trans hhandle,
      fun h => absurd h hA⟩

end ExactDaemon
