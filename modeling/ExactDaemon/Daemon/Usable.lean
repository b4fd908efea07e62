import ExactDaemon.Conf.Entries
import ExactDaemon.Conf.Tokens
import ExactDaemon.Daemon.Confined
import ExactDaemon.Daemon.Termination
import ExactDaemon.Lib.Ends
import ExactDaemon.Lib.Machine

/-! # What an accepted configuration is good for

The program uses the values of fourteen parameters without a look at the pointer. It gets those
that it looks up, at the start and after every reload, if what `conffile_check` does not look for
is in the files as well.
-/

namespace ExactDaemon

open Prog Daemon

/-- The parameters whose values the loop and the handlers use without a look at the pointer,
whatever the authtype is. -/
def usedNames : List CStr :=
  [cstr "pidfile", cstr "maillog", cstr "serverdefs", cstr "server", cstr "authfile",
    cstr "dumpfile", cstr "authtype", cstr "order", cstr "match", cstr "timeout", cstr "flush",
    cstr "suspicious"]

/-- Where the relay file is written, the name of the temporary file is there. -/
def HasTemp (withDb : Bool) (look : CStr → Option CStr) : Prop :=
  ¬ DbMode withDb look → ∃ v, look (cstr "authtemp") = some v

/-- All is there that is looked up, and the expression has been compiled. -/
structure World.Provided (withDb : Bool) (w : World) : Prop where
  param : ∀ name ∈ usedNames, ∃ v, w.conffileParam name = some v
  authtemp : HasTemp withDb w.conffileParam
  patbuf : ∃ rx, w.patbuf = some rx

/-- The program exits with a report of its own. -/
def Reports (e : Halt) : Prop := ∃ code, e = .exit code

/-- The program comes to its loop with all that it looks up, and has found the kind of log, or it
exits before with a report. -/
def StartsUsable (b : Build) (w : World) (faults : List Bool) : Prop :=
  ((Daemon.start b).run (Daemon.boot w faults)).Ends Reports fun _ s =>
    s.db.world.Provided b.withDb ∧ ∃ v, s.db.world.conffileParam (cstr "logging") = some v

/-! ### The files -/

/-- What `conffile_check` finds before it comes to the server definitions. -/
structure World.Checked (w : World) : Prop where
  required : ∀ name ∈ requiredS.take 6, ∃ v, w.conffileParam name = some v
  numbers : ∀ name ∈ requiredI, ∃ v, w.conffileParam name = some v ∧ atoi v ≠ 0

/-- The parameters with those of the server appended. -/
def World.withServer (w : World) (o p : CStr) : World :=
  w.withParam (w.conf.param ++ [⟨cstr "order", o, true⟩, ⟨cstr "match", p, true⟩])

/-- What the table needs that `conffile_check` looks for with no report of its own, or not at
all: the authtype, and if that is one of the two, what is asked of it. -/
def World.Supplied (needs : (CStr → Option CStr) → Prop) (w : World) : Prop :=
  ∃ a, w.conffileParam (cstr "authtype") = some a ∧
    (OneOf a (cstr "db") (cstr "text") → needs w.conffileParam)

/-- The section of the server has both lines, there is room for them, and with them the table
has what it needs, unless the order is refused. -/
def World.FitsSection (needs : (CStr → Option CStr) → Prop) (w : World) (sec : Section) : Prop :=
  ∃ o p, sec.order = some o ∧ sec.pattern = some p ∧ w.conf.param.length + 2 ≤ paramSize ∧
    ((∃ v, (w.withServer o p).conffileParam (cstr "order") = some v ∧
      OneOf v (cstr "username,address") (cstr "address,username")) →
        (w.withServer o p).Supplied needs)

/-- The server definitions close their stanzas, and the section of the server fits, if there is
one. -/
structure World.FitsServer (lib : RegexLib) (needs : (CStr → Option CStr) → Prop) (w : World)
    (serverdefs : CStr) : Prop where
  closed : ∀ text, w.fs.contents serverdefs = some text → compileRe lib = true →
    stanzasClosed false 0 (fileTokens lib text) = true
  stanza : ∀ sec u, w.serverSection lib serverdefs = .ok (sec, u) → w.FitsSection needs sec

/-- The configuration file can be read, there is room for its parameters, and if the required
ones are among them, the server definitions fit. -/
structure World.Fit (lib : RegexLib) (needs : (CStr → Option CStr) → Prop) (w : World) : Prop where
  readable : ∀ text, w.fs.contents w.conf.filename = some text →
    (Conf.fileEntries lib text).2 = none ∧ Conf.Room [] (Conf.fileEntries lib text).1
  server : ∀ text, w.fs.contents w.conf.filename = some text →
    (w.withParam (Conf.fileEntries lib text).1).Checked →
      ∀ defs, (w.withParam (Conf.fileEntries lib text).1).conffileParam (cstr "serverdefs") =
        some defs →
          (w.withParam (Conf.fileEntries lib text).1).FitsServer lib needs defs

/-- The expression compiles, which `match_init` does not look at. -/
def Compiles (lib : RegexLib) (look : CStr → Option CStr) : Prop :=
  ∀ text, look (cstr "match") = some text → ∃ rx, lib.regcomp text true = some rx

/-- What `main` needs, unless it exits for want of the temporary file: the kind of log, and an
expression that compiles. -/
def StartNeeds (withDb : Bool) (lib : RegexLib) (look : CStr → Option CStr) : Prop :=
  HasTemp withDb look → (∃ v, look (cstr "logging") = some v) ∧ Compiles lib look

/-! ### The loop of main -/

namespace Daemon

/-- What happens in the loop of `main`: time passes and any files change, a pass, or a signal
whose handler runs by itself. -/
inductive Event where
  | others (fs : Fs) (clock : ℤ)
  | pass
  | signal (i : Signal)

def next (b : Build) (s : Daemon) : Event → Option Daemon
  | .others fs clock => some (toWorld.set s { s.db.world with fs := fs, clock := clock })
  | .pass => ((Daemon.onepass b).run s).returned
  | .signal i => ((Daemon.handler b i).run s).returned

/-- The files fit whenever they are read again, and the library bears to be given the names
that are literals. -/
def Fitting (b : Build) (s : Daemon) : Event → Prop
  | .signal .hup => b.onLiteral = .ok () ∧
      (s.db.world.withParam []).Fit b.lib (HasTemp b.withDb)
  | _ => True

end Daemon

variable {lib : RegexLib} {needs : (CStr → Option CStr) → Prop} {b : Build} {w s t u : World}
  {name v defs o p : CStr} {e : Halt}

/-! ### Reading and checking -/

theorem World.Supplied.of_conf (h : s.Supplied needs) (hc : t.conf = s.conf) :
    t.Supplied needs := by
  have hlook : t.conffileParam = s.conffileParam :=
    World.conffileParam_congr hc
  unfold World.Supplied
  rw [hlook]
  exact h

/-- A configuration that the checks have accepted is given in full. -/
theorem World.Accepted.given (h : w.Accepted) (hs : w.Supplied needs) :
    (∀ name ∈ usedNames, ∃ v, w.conffileParam name = some v) ∧ needs w.conffileParam := by
  obtain ⟨a, ha, hone⟩ := h.authtype
  obtain ⟨a', ha', hrest⟩ := hs
  obtain rfl : a' = a := Option.some.inj (ha'.symm.trans ha)
  refine ⟨?_, hrest hone⟩
  have hsplit : ∀ name ∈ usedNames, name ∈ requiredS.take 6 ∨ name ∈ requiredI ∨
      name = cstr "order" ∨ name = cstr "match" ∨ name = cstr "authtype" := by decide
  intro name hn
  rcases hsplit name hn with hreq | hint | rfl | rfl | rfl
  · exact h.required name hreq
  · obtain ⟨v, hv, -⟩ := h.numbers name hint
    exact ⟨v, hv⟩
  · obtain ⟨v, hv, -⟩ := h.order
    exact ⟨v, hv⟩
  · exact h.pattern
  · exact ⟨a', ha⟩

theorem ends_conffileRead (hnil : w.conf.param = []) (h : w.Fit lib needs) :
    ((conffileRead lib).run w).Ends Reports fun _ u =>
      ∃ text, w.fs.contents w.conf.filename = some text ∧
        u = w.withParam (Conf.fileEntries lib text).1 := by
  cases ht : w.fs.contents w.conf.filename with
  | none =>
    unfold conffileRead
    rw [run_bind, run_read, Outcome.bind_done, ht]
    exact ⟨5, rfl⟩
  | some text =>
    obtain ⟨hend, hroom⟩ := h.readable text ht
    rw [← hnil] at hroom
    rw [conffileRead_of_file ht, run_conffileLines hend hroom, hnil]
    exact ⟨text, rfl, rfl⟩

theorem reports_of_serverSection (hlib : lib.GroupsInside) (hc : w.Checked)
    (hf : w.FitsServer lib needs defs) (h : w.serverSection lib defs = .error e) : Reports e := by
  have hread : ∃ r, apconfRead lib (w.fs.contents defs) w.staticSection = .ok r := by
    cases ht : w.fs.contents defs with
    | none => exact ⟨_, rfl⟩
    | some text =>
      exact (apconfRead_returns_iff hlib text w.staticSection).mpr (hf.closed text ht)
  obtain ⟨⟨a, x⟩, ha⟩ := hread
  obtain ⟨server, hserver⟩ := hc.required (cstr "server") (by decide)
  unfold World.serverSection at h
  rw [ha, hserver] at h
  cases a with
  | none =>
    cases h
    exact ⟨4, rfl⟩
  | some a =>
    dsimp only at h
    split at h <;> cases h
    exact ⟨4, rfl⟩

/-- What follows the server definitions, for a section that fits. -/
theorem ends_readServer (hlib : lib.GroupsInside) (hc : w.Checked)
    (hf : w.FitsServer lib needs defs) :
    ((readServer lib defs).run w).Ends Reports fun _ u => u.Supplied needs := by
  unfold readServer
  refine ends_bind.mpr (ends_attempt (fun sec s hsec => ?_)
    fun e he => reports_of_serverSection hlib hc hf he)
  obtain ⟨o, p, ho, hp, hroom, hgood⟩ := hf.stanza sec s hsec
  have hconf := serverSection_conf hsec
  have hlt : s.conf.param.length < paramSize := by rw [hconf]; omega
  set s₁ := s.withParam (s.conf.param ++ [⟨cstr "order", o, true⟩]) with hs₁
  have hlt₁ : s₁.conf.param.length < paramSize := by
    simp only [hs₁, World.withParam, List.length_append, hconf, List.length_singleton]
    omega
  set u := s₁.withParam (s₁.conf.param ++ [⟨cstr "match", p, true⟩]) with hu
  have huconf : u.conf = (w.withServer o p).conf := by
    simp only [hu, hs₁, World.withServer, World.withParam, List.append_assoc, List.singleton_append,
      hconf]
  rw [ho, hp, run_bind, run_attempt_ok (addLiteral_some hlt), Outcome.bind_done, run_bind,
    run_attempt_ok (addLiteral_some hlt₁), Outcome.bind_done]
  obtain ⟨x, hx⟩ : ∃ x, u.conffileParam (cstr "order") = some x :=
    World.conffileParam_isSome (p := ⟨cstr "order", o, true⟩)
      (by rw [huconf]; simp [World.withServer, World.withParam]) rfl
  refine ends_bind.mpr (ends_attempt (fun _ u' hu' => ?_) fun e he => ⟨4, (oneOf_error hx he).1⟩)
  obtain rfl := oneOf_same hu'
  obtain ⟨y, hy, hone⟩ := exists_of_oneOf hu'
  have hsupplied : u.Supplied needs := by
    refine World.Supplied.of_conf (hgood ⟨y, ?_, hone⟩) huconf
    rw [World.conffileParam, ← huconf]
    exact hy
  have hauthtype := hsupplied
  obtain ⟨a, ha, -⟩ := hauthtype
  refine ends_attempt (fun _ v hv => ?_) fun e he => ⟨4, (oneOf_error ha he).1⟩
  rwa [oneOf_same hv]

/-- Files that fit are read and checked, or the program exits with a report. -/
theorem ends_readCheck (hlib : lib.GroupsInside) (hnil : w.conf.param = [])
    (h : w.Fit lib needs) : ((readCheck lib).run w).Ends Reports fun _ u =>
      (∀ name ∈ usedNames, ∃ v, u.conffileParam name = some v) ∧ needs u.conffileParam := by
  have hends : ((readCheck lib).run w).Ends Reports fun _ u => u.Supplied needs := by
    unfold readCheck conffileCheck serverCheck
    refine ends_bind.mpr ((ends_conffileRead hnil h).mono ?_)
    rintro _ _ ⟨text, ht, rfl⟩
    set v := w.withParam (Conf.fileEntries lib text).1
    refine ends_bind.mpr (ends_forM (fun _ _ _ _ => require_same)
      (fun _ _ _ he => ⟨4, (require_error he).1⟩) fun hreq => ?_)
    refine ends_bind.mpr (ends_forM (fun _ _ _ _ => requireInt_same)
      (fun _ _ _ he => ⟨4, (requireInt_error he).1⟩) fun hint => ?_)
    have hc : v.Checked := ⟨fun name hn => exists_of_require (hreq name hn),
      fun name hn => exists_of_requireInt (hint name hn)⟩
    obtain ⟨defs, hdefs⟩ := hc.required (cstr "serverdefs") (by decide)
    have hderef : v.derefParam (cstr "serverdefs") = .ok (defs, v) := by
      rw [World.derefParam, hdefs]
    rw [run_bind, run_attempt_ok hderef, Outcome.bind_done]
    exact ends_readServer hlib hc (h.server text ht hc defs hdefs)
  exact (hends.and fun _ _ hu => accepted_of_readCheck hu).mono fun _ u hu => hu.2.given hu.1

/-! ### The rest of main -/

/-- The daemon on its way to the loop: the parameters are these, `match_init` has left `pb`, and
there is no host yet. -/
structure World.Prepared (look : CStr → Option CStr) (pb : Option Regex) (w : World) : Prop where
  param : w.conffileParam = look
  patbuf : w.patbuf = pb
  authCur : w.tables.authCur = 0

/-- On its way the program stays on it, or exits with a report. -/
def Secure {τ α : Type} (look : CStr → Option CStr) (pb : Option Regex) (v : τ → World)
    (p : Prog τ α) : Prop :=
  ∀ s, (v s).Prepared look pb → (p.run s).Ends Reports fun _ t => (v t).Prepared look pb

section Secure

variable {τ σ α β : Type} {look : CStr → Option CStr} {pb : Option Regex}
  {view : τ → World}

theorem World.Prepared.of_same (h : s.Prepared look pb) (hconf : t.conf = s.conf)
    (hpatbuf : t.patbuf = s.patbuf) (hcur : t.tables.authCur = s.tables.authCur) :
    t.Prepared look pb := by
  refine ⟨?_, hpatbuf.trans h.patbuf, hcur.trans h.authCur⟩
  rw [← h.param]
  exact World.conffileParam_congr hconf

theorem World.Prepared.onlyFiles (h : s.Prepared look pb) (hst : s.OnlyFiles t) :
    t.Prepared look pb := by
  apply h.of_same
  · exact hst.conf
  · rw [show t = _ from hst]
  · rw [hst.tables]

theorem World.Prepared.ensureFile (h : s.Prepared look pb) (path : Option CStr) :
    (s.ensureFile path).Prepared look pb := by
  unfold World.ensureFile
  split
  · exact h
  · split
    · exact h.of_same rfl rfl rfl
    · exact h

theorem secure_pure (a : α) : Secure look pb view (pure a) := fun _ h => h

theorem secure_exit (code : ℕ) : Secure look pb view (halt (.exit code) : Prog τ α) :=
  fun _ _ => ⟨code, rfl⟩

theorem Secure.bind {p : Prog τ α} {g : α → Prog τ β} (hp : Secure look pb view p)
    (hg : ∀ a, Secure look pb view (g a)) : Secure look pb view (p >>= g) :=
  fun s hs => ends_bind.mpr ((hp s hs).mono fun a t ht => hg a t ht)

theorem secure_act {f : τ → α × τ}
    (h : ∀ s, (view s).Prepared look pb → (view (f s).2).Prepared look pb) :
    Secure look pb view (act f) := h

theorem secure_read (f : τ → α) : Secure look pb view (read f) := fun _ h => h

theorem secure_attempt {f : τ → Except Halt (α × τ)}
    (hok : ∀ s a t, (view s).Prepared look pb → f s = .ok (a, t) → (view t).Prepared look pb)
    (herror : ∀ s e, (view s).Prepared look pb → f s = .error e → Reports e) :
    Secure look pb view (attempt f) :=
  fun s hs => ends_attempt (fun a t => hok s a t hs) fun e => herror s e hs

theorem secure_ite {c : Prop} [Decidable c] {p q : Prog τ α} (hp : Secure look pb view p)
    (hq : Secure look pb view q) : Secure look pb view (if c then p else q) := by
  split
  · exact hp
  · exact hq

theorem Secure.zoom {l : Lens τ σ} {view' : σ → World} {p : Prog σ α} (hp : Secure look pb view' p)
    (hv : ∀ t, view t = view' (l.get t)) : Secure look pb view (zoom l p) := by
  intro t ht
  refine ends_zoom ((hp (l.get t) (hv t ▸ ht)).mono fun a s hs => ?_)
  rwa [hv, l.get_set]

theorem Secure.inDb {p : Prog World α} (hp : Secure look pb id p) :
    Secure look pb DbWorld.world (Prog.zoom DbWorld.toWorld p) := hp.zoom fun _ => rfl

/-- A lookup whose result is dereferenced. -/
theorem secure_derefParam (hn : ∃ v, look name = some v) :
    Secure look pb id (attempt (World.derefParam name)) := by
  refine secure_attempt (fun s a t hs h => ?_) fun s e hs h => ?_
  · rw [derefParam_same h]
    exact hs
  · obtain ⟨v, hv⟩ := hn
    rw [World.derefParam, show s.conffileParam = look from hs.param, hv] at h
    cases h

/-- A file is opened for writing. -/
theorem secure_fopenWrite (name : CStr) :
    Secure look pb id (attempt fun w => w.fopenWrite (w.conffileParam name)) := by
  refine secure_attempt (fun s a t hs h => hs.onlyFiles (.fopenWrite h)) fun s e hs h => ?_
  unfold World.fopenWrite at h
  split at h
  · cases h
  · split at h <;> cases h

theorem secure_checkpid (hlook : ∃ v, look (cstr "pidfile") = some v) (alive : ℤ → Bool) :
    Secure look pb id (checkpid alive) := by
  refine (secure_derefParam hlook).bind fun path => (secure_read _).bind fun f => ?_
  cases f with
  | none => exact secure_pure _
  | some text => exact secure_ite (secure_exit 41) (secure_pure _)

theorem secure_publish (htmp : ∃ v, look (cstr "authtemp") = some v)
    (hfile : ∃ v, look (cstr "authfile") = some v) :
    Secure look pb id (attempt World.publish) := by
  refine secure_attempt (fun s a t hs h => hs.onlyFiles (.publish h)) fun s e hs h => ?_
  obtain ⟨tmp, htmp⟩ := htmp
  obtain ⟨file, hfile⟩ := hfile
  unfold World.publish at h
  rw [show s.conffileParam = look from hs.param, htmp, hfile] at h
  dsimp only at h
  split at h <;> cases h
  exact ⟨22, rfl⟩

/-- Without a host there is nothing to print. -/
theorem secure_authWriteText (htmp : ∃ v, look (cstr "authtemp") = some v)
    (hfile : ∃ v, look (cstr "authfile") = some v) : Secure look pb id authWriteText := by
  refine (secure_fopenWrite _).bind fun f => ?_
  cases f with
  | none => exact secure_exit 21
  | some f =>
    intro s hs
    unfold authWriteLines
    rw [run_bind, run_read, Outcome.bind_done, run_bind, run_loop_stop, Outcome.bind_done]
    · have hclose : Secure look pb id (modify (·.fclose f) : Prog World Unit) :=
        secure_act fun _ h => h.of_same rfl rfl rfl
      exact hclose.bind (fun _ => secure_publish htmp hfile) s hs
    · exact decide_eq_false (by rw [show s.tables.authCur = 0 from hs.authCur]; exact lt_irrefl 0)

theorem secure_authInitTables (hflush : ∃ v, look (cstr "flush") = some v) :
    Secure look pb id authInitTables := by
  refine (secure_act fun _ h => h.of_same rfl rfl rfl).bind fun _ => ?_
  refine (secure_attempt (fun s a t hs h => ?_) fun s e hs h => ?_).bind fun _ => ?_
  · cases hf : s.conffileParamInt (cstr "flush") with
    | error e =>
      rw [hf] at h
      cases h
    | ok n =>
      rw [hf] at h
      cases h
      exact hs
  · obtain ⟨v, hv⟩ := hflush
    rw [World.conffileParamInt, show s.conffileParam = look from hs.param, hv] at h
    cases h
  · refine (secure_act fun _ h => h.of_same rfl rfl rfl).bind fun _ => ?_
    exact secure_act fun _ h => h.of_same rfl rfl rfl

theorem secure_tryCall {code : ℕ} {g : DbWorld → DbWorld}
    (hg : ∀ (d : DbWorld) l, d.world.Prepared look pb →
      (g { d with faults := l }).world.Prepared look pb) :
    Secure look pb DbWorld.world (DbWorld.tryCall code g) := by
  refine secure_attempt (fun d a d' hd h => ?_) fun d e _ h => ?_
  · split at h
    · cases h
    · cases h
      exact hg d _ hd
  · split at h
    · cases h
      exact ⟨code, rfl⟩
    · cases h

theorem secure_opendb : Secure look pb DbWorld.world opendb := by
  refine (Secure.inDb (secure_read _)).bind fun path => ?_
  refine (secure_tryCall fun _ _ h => h).bind fun _ => ?_
  exact secure_tryCall fun d l h => h.ensureFile path

/-- With the temporary file, if it is needed, the tables are set up. -/
theorem secure_authInit {withDb : Bool} (hlook : ∀ name ∈ usedNames, ∃ v, look name = some v)
    (htemp : HasTemp withDb look) : Secure look pb DbWorld.world (DbWorld.authInit withDb) := by
  refine (secure_authInitTables (hlook _ (by decide))).inDb.bind fun _ => ?_
  intro d hd
  by_cases hdb : DbMode withDb look
  · rw [run_byBackend_of_dbMode (hd.param ▸ hdb)]
    exact secure_opendb d hd
  · rw [run_byBackend_of_not_dbMode (hd.param ▸ hlook _ (by decide)) (hd.param ▸ hdb)]
    exact (secure_authWriteText (htemp hdb) (hlook _ (by decide))).inDb d hd

/-- Without it the program exits with a report. -/
theorem ends_authInit_of_not_hasTemp {withDb : Bool} {d : DbWorld}
    (hlook : ∀ name ∈ usedNames, ∃ v, look name = some v) (htemp : ¬ HasTemp withDb look)
    (hd : d.world.Prepared look pb) :
    ((DbWorld.authInit withDb).run d).Ends Reports fun _ _ => False := by
  obtain ⟨hdb, hnone⟩ := Classical.not_imp.mp htemp
  refine ends_bind.mpr (((secure_authInitTables (hlook _ (by decide))).inDb d hd).mono ?_)
  intro _ d hd
  have hlost : d.world.fopenWrite (d.world.conffileParam (cstr "authtemp")) =
      .ok (none, d.world) := by
    rw [hd.param, Option.eq_none_iff_forall_ne_some.mpr fun v hv => hnone ⟨v, hv⟩]
    rfl
  have hwrite : authWriteText.run d.world = .halted (.exit 21) d.world := by
    unfold authWriteText
    rw [run_bind, run_attempt_ok hlost, Outcome.bind_done]
    rfl
  rw [run_byBackend_of_not_dbMode (hd.param ▸ hlook _ (by decide)) (hd.param ▸ hdb), run_zoom,
    show DbWorld.toWorld.get d = d.world from rfl, hwrite]
  exact ⟨21, rfl⟩

theorem secure_initLogging (hlogging : ∃ v, look (cstr "logging") = some v) (foreground : Bool) :
    Secure look pb id (initLogging foreground) := by
  refine (secure_attempt (fun s a t hs h => ?_) fun s e hs h => ?_).bind fun syslog => ?_
  · unfold World.useSyslog at h
    split at h
    · cases h
    · split at h
      · cases h
        exact hs
      · split at h <;> cases h
        exact hs
  · obtain ⟨v, hv⟩ := hlogging
    unfold World.useSyslog at h
    rw [show s.conffileParam = look from hs.param, hv] at h
    dsimp only at h
    split at h
    · cases h
    · split at h <;> cases h
      exact ⟨100, rfl⟩
  · refine secure_ite (secure_pure _) (secure_attempt (fun s a t hs h => ?_) fun s e hs h => ?_)
    · unfold World.loggerInit at h
      split at h
      · cases h
        exact hs
      · split at h
        · cases h
          exact hs
        · split at h <;> cases h
          exact hs.ensureFile _
    · unfold World.loggerInit at h
      split at h
      · cases h
      · split at h
        · cases h
        · split at h <;> cases h
          exact ⟨100, rfl⟩

theorem secure_writepid (pid : ℕ) : Secure look pb id (writepid pid) := by
  refine (secure_fopenWrite _).bind fun f => ?_
  cases f with
  | none => exact secure_exit 42
  | some f =>
    refine (secure_act fun _ h => h.of_same rfl rfl rfl).bind fun _ => ?_
    exact secure_act fun _ h => h.of_same rfl rfl rfl

theorem secure_tailOpen (hmaillog : ∃ v, look (cstr "maillog") = some v) :
    Secure look pb id tailOpen := by
  refine (secure_attempt (fun s a t hs h => ?_) fun s e hs h => ?_).bind fun f => ?_
  · unfold World.openLog at h
    split at h
    · cases h
    · split at h <;> cases h <;> exact hs.of_same rfl rfl rfl
  · obtain ⟨v, hv⟩ := hmaillog
    unfold World.openLog at h
    rw [show s.conffileParam = look from hs.param, hv] at h
    dsimp only at h
    split at h <;> cases h
  · have htail : ∀ g : World → Tail → Tail,
        Secure look pb id (modify fun w : World => w.onTail (g w)) :=
      fun g => secure_act fun _ h => h.of_same rfl rfl rfl
    refine (htail _).bind fun _ => (htail _).bind fun _ => ?_
    cases f with
    | none => exact secure_pure _
    | some fd =>
      refine Secure.bind (secure_act fun s hs => ?_) fun _ => (htail _).bind fun _ => secure_pure _
      unfold World.fseek
      split
      · exact hs
      · exact hs.of_same rfl rfl rfl

theorem Secure.inDaemon {p : Prog World α} (hp : Secure look pb id p) :
    Secure look pb (fun s : Daemon => s.db.world) (Prog.zoom Daemon.toWorld p) :=
  hp.zoom fun _ => rfl

theorem secure_daemonize (os : Os) (foreground : Bool) :
    Secure look pb id (os.daemonize foreground) := by
  have hfork : ∀ i, Secure look pb id (os.dofork i) := by
    intro i
    unfold Os.dofork
    split
    · exact secure_exit 61
    · exact secure_pure _
    · exact secure_exit 0
  have hbackground : Secure look pb id (os.background foreground) :=
    secure_ite (secure_pure _) ((hfork 0).bind fun _ =>
      (secure_ite (secure_pure _) (secure_exit 62)).bind fun _ => hfork 1)
  have hrootdir : Secure look pb id os.rootdir := by
    refine secure_ite (secure_act fun s hs => ?_) (secure_exit 63)
    dsimp only [id]
    split
    · exact hs
    · exact hs.of_same rfl rfl rfl
  refine secure_ite (Secure.bind ?_ fun c => ?_) (secure_pure _)
  · refine secure_attempt (fun s a t hs h => ?_) fun s e _ h => ?_
    · cases hu : os.usergroup s with
      | error e =>
        rw [hu] at h
        cases h
      | ok c =>
        rw [hu] at h
        cases h
        exact hs
    · cases hu : os.usergroup s with
      | error e =>
        rw [hu] at h
        cases h
        exact Os.usergroup_error hu
      | ok c =>
        rw [hu] at h
        cases h
  · exact hbackground.bind fun _ => hrootdir.bind fun _ => secure_pure c

/-- `match_init` compiles the expression, whatever comes of it. -/
theorem ends_matchInit {m : CStr} (hm : look (cstr "match") = some m) (h : w.Prepared look pb) :
    ((matchInit lib).run w).Ends Reports fun _ t => t.Prepared look (lib.regcomp m true) := by
  refine ends_attempt (fun _ t ht => ?_) fun e he => ?_
  · rw [h.param, hm] at ht
    cases ht
    exact ⟨h.param, rfl, h.authCur⟩
  · rw [h.param, hm] at he
    cases he

theorem World.Prepared.provided {withDb : Bool} {rx : Regex} (h : w.Prepared look (some rx))
    (hlook : ∀ name ∈ usedNames, ∃ v, look name = some v) (htemp : HasTemp withDb look) :
    w.Provided withDb :=
  ⟨h.param ▸ hlook, h.param ▸ htemp, rx, h.patbuf⟩

end Secure

/-- After `match_init` the program goes on to its loop, or finds that it cannot. -/
theorem ends_afterMatchInit {look : CStr → Option CStr} {m : CStr} {d : Daemon}
    (hlook : ∀ name ∈ usedNames, ∃ v, look name = some v)
    (hm : look (cstr "match") = some m) (hneeds : StartNeeds b.withDb b.lib look)
    (hd : d.db.world.Prepared look (b.lib.regcomp m true)) :
    (((zoom toWorld (b.os.daemonize b.foreground)) >>= fun _ => (do
      zoom toDb (DbWorld.authInit b.withDb)
      zoom toWorld (initLogging b.foreground)
      zoom toWorld (writepid b.pid)
      let opened ← zoom toWorld tailOpen
      if opened then pure () else halt (.exit 2))).run d).Ends Reports fun _ s =>
        s.db.world.Provided b.withDb ∧
          ∃ v, s.db.world.conffileParam (cstr "logging") = some v := by
  refine ends_bind.mpr (((secure_daemonize b.os b.foreground).inDaemon d hd).mono ?_)
  intro _ d₁ hd₁
  by_cases htemp : HasTemp b.withDb look
  · obtain ⟨hlogging, hcompiles⟩ := hneeds htemp
    obtain ⟨rx, hrx⟩ := hcompiles m hm
    rw [hrx] at hd₁
    refine Outcome.Ends.mono (Secure.bind (Secure.zoom (secure_authInit hlook htemp) fun _ => rfl)
      (fun _ => ?_) d₁ hd₁) fun _ _ hs => ⟨hs.provided hlook htemp, hs.param ▸ hlogging⟩
    refine (secure_initLogging hlogging b.foreground).inDaemon.bind fun _ => ?_
    refine (secure_writepid b.pid).inDaemon.bind fun _ =>
      (secure_tailOpen (hlook _ (by decide))).inDaemon.bind fun _ => ?_
    exact secure_ite (secure_pure _) (secure_exit 2)
  · exact ends_bind.mpr (ends_zoom ((ends_authInit_of_not_hasTemp hlook htemp hd₁).mono
      fun _ _ h => h.elim))

theorem startsUsable_of_fit (faults : List Bool) (hlib : b.lib.GroupsInside)
    (hnil : w.conf.param = []) (hcur : w.tables.authCur = 0)
    (h : w.Fit b.lib (StartNeeds b.withDb b.lib)) : StartsUsable b w faults := by
  have honly : ∀ a u, (readCheck b.lib).run w = .done a u → w.OnlyConf u := fun _ _ hu =>
    keeps_readCheck.run_done (.refl w) hu
  unfold StartsUsable Daemon.start
  refine ends_bind.mpr (ends_zoom ((ends_bind.mp
    ((ends_readCheck hlib hnil h).and honly)).mono fun _ v hv => ?_))
  refine ends_bind.mpr (ends_zoom (hv.mono ?_))
  rintro _ u ⟨⟨hparam, hneeds⟩, hu⟩
  have hprepared : u.Prepared u.conffileParam u.patbuf := by
    refine ⟨rfl, rfl, ?_⟩
    rw [show u = _ from hu]
    exact hcur
  obtain ⟨m, hm⟩ := hparam (cstr "match") (by decide)
  refine ends_bind.mpr (ends_zoom
    ((secure_checkpid (hparam _ (by decide)) b.alive u hprepared).mono fun _ u₁ hu₁ => ?_))
  exact ends_bind.mpr (ends_zoom ((ends_matchInit hm hu₁).mono fun _ u₂ hu₂ =>
    ends_afterMatchInit hparam hm hneeds hu₂))

/-! ### In the loop -/

/-- The parameters and the compiled expression are the same. -/
def World.SameRules (s t : World) : Prop := t.conf = s.conf ∧ t.patbuf = s.patbuf

theorem World.Provided.of_rules {withDb : Bool} (h : s.Provided withDb) (hst : s.SameRules t) :
    t.Provided withDb := by
  obtain ⟨hconf, hpatbuf⟩ := hst
  have hlook : t.conffileParam = s.conffileParam :=
    World.conffileParam_congr hconf
  exact ⟨hlook ▸ h.param, hlook ▸ h.authtemp, hpatbuf ▸ h.patbuf⟩

section Loop

variable {α : Type} {J : World → Prop} (hJ : ∀ s t, s.SameRules t → J s → J t)

theorem keeps_matchLine (buff : CStr) : Keeps J (matchLine lib buff) := by
  have hcapture : ∀ f : World → Except Halt CStr, Keeps J (attempt fun v => (f v).map (·, v)) := by
    refine fun f => keeps_attempt fun v a v' hv h => ?_
    cases hf : f v with
    | error e =>
      rw [hf] at h
      cases h
    | ok r =>
      rw [hf] at h
      cases h
      exact hv
  refine (keeps_attempt fun v a v' hv h => ?_).bind fun pos => ?_
  · unfold World.matchPositions at h
    split at h <;> cases h
    exact hv
  refine (keeps_attempt fun v a v' hv h => ?_).bind fun m => ?_
  · unfold World.regexec at h
    split at h <;> cases h
    exact hv
  cases m with
  | ok r =>
    exact (hcapture fun _ => capture buff (r pos.1) matchLoginUsernameMax).bind fun _ =>
      (hcapture fun _ => capture buff (r pos.2) matchLoginHostnameMax).bind fun _ => keeps_pure _
  | «nomatch» => exact keeps_pure _
  | espace => exact keeps_halt _
  | other => exact keeps_halt _

include hJ

theorem keeps_rules_files : ∀ s t : World, s.OnlyFiles t → s.Creates relayNames t → J s → J t := by
  refine fun s t h _ => hJ s t ⟨h.conf, ?_⟩
  rw [show t = _ from h]

theorem keeps_rules_fopenWrite (name : CStr) :
    Keeps J (attempt fun w => w.fopenWrite (w.conffileParam name)) := by
  refine keeps_attempt fun s a t hs h => hJ s t ?_ hs
  have honly : s.OnlyFiles t := .fopenWrite h
  rw [show t = _ from honly]
  exact ⟨rfl, rfl⟩

theorem keeps_rules_authTextDump (stamp : ℤ → Bytes) : Keeps J (authTextDump stamp) := by
  refine (keeps_rules_fopenWrite hJ _).bind fun f => ?_
  cases f with
  | none => exact keeps_pure _
  | some f =>
    refine (keeps_read _).bind fun n => (keeps_loop (fun i _ => ?_) _ _ _).bind fun _ =>
      keeps_act fun s h => hJ s _ ⟨rfl, rfl⟩ h
    refine keeps_attempt fun s a t hs h => hJ s t ?_ hs
    unfold World.printEntry at h
    split at h
    · cases h
    · split at h <;> cases h
      exact ⟨rfl, rfl⟩

theorem keeps_rules_call {c : DbCall} {code : ℕ} {g : World → World}
    (hg : ∀ w : World, w.SameRules (g w)) :
    Keeps (fun d : DbWorld => J d.world) (DbWorld.call c code g) := by
  refine fun d => ⟨fun h => ?_, ?_⟩
  · dsimp only [DbWorld.afterCall]
    split
    · exact hJ _ _ (hg d.world) h
    · exact h
  · dsimp only
    cases d.callResult code <;> trivial

theorem keeps_rules_authAdd (libc : Libc) (username hostname : CStr) :
    Keeps (fun d : DbWorld => J d.world) (DbWorld.authAdd b.withDb libc username hostname) := by
  refine keeps_byBackend ?_ (Keeps.zoom (l := DbWorld.toWorld) ?_)
  · refine (keeps_zoom_read _).bind fun now => ?_
    refine Keeps.bind ?_ fun _ => ?_
    · exact keeps_rules_call hJ fun w => ⟨rfl, rfl⟩
    · exact keeps_rules_call hJ fun w => ⟨rfl, rfl⟩
  · exact keeps_authTextAdd (fun s tb h => hJ s _ ⟨rfl, rfl⟩ h) (keeps_rules_files hJ) _ _ _

theorem keeps_rules_sweep (data : DbRecord → ℤ) (now max : ℤ) (l : List DbRecord) :
    Keeps (fun d : DbWorld => J d.world) (DbWorld.authDbSweep data now max l) := by
  induction l with
  | nil => exact keeps_pure _
  | cons r rs ih =>
    unfold DbWorld.authDbSweep
    split
    · refine Keeps.bind (keeps_tryCall fun d l h => ?_) fun _ => ih
      exact hJ d.world _ ⟨rfl, rfl⟩ h
    · exact ih

theorem keeps_rules_authClean (data : DbRecord → ℤ) :
    Keeps (fun d : DbWorld => J d.world) (DbWorld.authClean b.withDb data) := by
  refine Keeps.bind (keeps_byBackend ?_ (Keeps.zoom (l := DbWorld.toWorld) ?_)) fun _ => ?_
  · refine (keeps_zoom_read _).bind fun now => ?_
    refine (keeps_zoom_same fun s a t h => ?_).bind fun max => ?_
    · cases hn : s.conffileParamInt (cstr "timeout") with
      | error e =>
        rw [hn] at h
        cases h
      | ok n =>
        rw [hn] at h
        cases h
        rfl
    refine Keeps.bind ?_ fun _ => ?_
    · exact keeps_rules_call hJ fun w => ⟨rfl, rfl⟩
    · exact (keeps_zoom_read _).bind fun records => keeps_rules_sweep hJ _ _ _ records
  · exact keeps_authTextClean (fun s tb h => hJ s _ ⟨rfl, rfl⟩ h) (keeps_rules_files hJ)
  · have halarm : Keeps J (modify fun w => w.setAlarm w.tables.authAlarm) :=
      keeps_act fun s h => hJ s _ ⟨rfl, rfl⟩ h
    exact halarm.zoom (l := DbWorld.toWorld)

theorem keeps_rules_authDump (stamp : ℤ → Bytes) :
    Keeps (fun d : DbWorld => J d.world) (authDump b.withDb stamp) := by
  refine keeps_byBackend ?_ ((keeps_rules_authTextDump hJ stamp).zoom (l := DbWorld.toWorld))
  refine Keeps.bind ((keeps_rules_fopenWrite hJ _).zoom (l := DbWorld.toWorld)) fun f => ?_
  cases f with
  | none => exact keeps_pure _
  | some f =>
    have hmodify : ∀ g : World → World, (∀ w : World, w.SameRules (g w)) →
        Keeps (fun d : DbWorld => J d.world) (zoom DbWorld.toWorld (modify g)) := fun g hg =>
      Keeps.zoom (l := DbWorld.toWorld) (keeps_act fun s h => hJ s _ (hg s) h)
    refine Keeps.bind ?_ fun _ => (keeps_zoom_read _).bind fun records => ?_
    · exact keeps_rules_call hJ fun w => ⟨rfl, rfl⟩
    · refine Keeps.bind (keeps_forM fun r => ?_) fun _ => ?_
      · exact hmodify _ fun w => ⟨rfl, rfl⟩
      · exact hmodify _ fun w => ⟨rfl, rfl⟩

theorem keeps_rules_onepass : Keeps (fun s : Daemon => J s.db.world) (Daemon.onepass b) := by
  have htail : Keeps J tailRead :=
    keeps_of_frame (fun _ => keeps_tailRead) World.Beside.refl
      fun s t h hs => hJ s t ⟨h.conf, h.patbuf⟩ hs
  have hworld : ∀ {β : Type} {p : Prog World β}, Keeps J p →
      Keeps (fun s : Daemon => J s.db.world) (zoom Daemon.toWorld p) := fun hp =>
    hp.zoom (l := Daemon.toWorld)
  refine (hworld htail).bind fun _ => (hworld (keeps_read _)).bind fun n => ?_
  refine (keeps_loop (fun i x => Keeps.bind ?_ fun y => keeps_ite (keeps_halt _) (keeps_pure _))
    _ _ _).bind fun _ => keeps_pure _
  have hbyte : Keeps J (attempt fun v => (World.tailByte v i).map (·, v)) := by
    refine keeps_attempt fun v a v' hv h => ?_
    cases hc : v.tailByte i with
    | error e =>
      rw [hc] at h
      cases h
    | ok c =>
      rw [hc] at h
      cases h
      exact hv
  refine (hworld hbyte).bind fun c => keeps_ite ?_ (keeps_pure _)
  refine (hworld (keeps_act fun s h => hJ s _ ⟨rfl, rfl⟩ h)).bind fun _ => ?_
  refine (hworld (keeps_read _)).bind fun l => Keeps.bind ?_ fun _ => keeps_pure _
  refine (hworld (keeps_matchLine l)).bind fun m => ?_
  cases m with
  | none => exact keeps_pure _
  | some m => exact (keeps_rules_authAdd hJ _ _ _).zoom (l := toDb)

theorem keeps_rules_exitHandler : Keeps (fun s : Daemon => J s.db.world)
    (Daemon.exitHandler b.withDb b.preserve) := by
  have hunlink : ∀ name, Keeps (fun s : Daemon => J s.db.world) (attempt (unlinkParam name)) := by
    refine fun name => keeps_attempt fun s a t hs h => ?_
    unfold unlinkParam World.unlinkParam at h
    split at h
    · cases hx : s.db.world.conffileParam name with
      | none =>
        rw [hx] at h
        cases h
      | some x =>
        rw [hx] at h
        cases h
        exact hJ s.db.world _ ⟨rfl, rfl⟩ hs
    · cases h
  refine (hunlink _).bind fun _ => Keeps.bind ?_ fun _ => Keeps.bind ?_ fun _ => ?_
  · have hclose : Keeps (fun d : DbWorld => J d.world) DbWorld.close := by
      refine fun d => ⟨fun h => h, ?_⟩
      dsimp only
      split <;> trivial
    have hexit : Keeps (fun d : DbWorld => J d.world) (DbWorld.authExit b.withDb) :=
      keeps_ite hclose (keeps_pure _)
    exact hexit.zoom (l := toDb)
  · exact keeps_ite (keeps_pure _) (hunlink _)
  · exact keeps_attempt fun s a t hs h => by cases h

end Loop

/-- Between two reloads the daemon keeps all that it uses. -/
theorem provided_next {d d' : Daemon} {x : Daemon.Event} (hx : x ≠ .signal .hup)
    (h : Daemon.next b d x = some d') (hd : d.db.world.Provided b.withDb) :
    d'.db.world.Provided b.withDb := by
  have hJ : ∀ s t : World, s.SameRules t → s.Provided b.withDb → t.Provided b.withDb :=
    fun s t h hs => hs.of_rules h
  have hreturned : ∀ {α : Type} {p : Prog Daemon α},
      Keeps (fun s : Daemon => s.db.world.Provided b.withDb) p → (p.run d).returned = some d' →
        d'.db.world.Provided b.withDb := by
    intro α p hp hr
    obtain ⟨a, hrun⟩ := Outcome.returned_eq_some.mp hr
    exact hp.run_done hd hrun
  cases x with
  | others fs clock =>
    obtain rfl := Option.some.inj h
    exact hJ d.db.world _ ⟨rfl, rfl⟩ hd
  | pass => exact hreturned (keeps_rules_onepass hJ) h
  | signal i =>
    cases i with
    | hup => exact absurd rfl hx
    | alrm =>
      refine hreturned (keeps_lookUp.bind fun _ => (keeps_read _).bind fun v => ?_) h
      exact (keeps_rules_authClean hJ (b.data v)).zoom (l := toDb)
    | usr1 =>
      refine hreturned (keeps_lookUp.bind fun _ => ?_) h
      exact (keeps_rules_authDump hJ b.stamp).zoom (l := toDb)
    | term => exact hreturned (keeps_rules_exitHandler hJ) h

/-- A reload of files that fit returns with all that the program uses, or exits with a report. -/
theorem ends_reload {d : Daemon} (hlib : b.lib.GroupsInside) (hd : d.db.world.Provided b.withDb)
    (hfit : Daemon.Fitting b d (.signal .hup)) :
    ((Daemon.handler b .hup).run d).Ends Reports fun _ d' => d'.db.world.Provided b.withDb := by
  obtain ⟨hliteral, hfit⟩ := hfit
  have hreload : ((conffileReload b.onLiteral b.lib).run d.db.world).Ends Reports
      fun _ u => u.Provided b.withDb := by
    rw [hliteral, conffileReload_eq, run_bind, run_conffileFree, Outcome.bind_done]
    refine ((ends_readCheck hlib rfl hfit).and fun _ u hu =>
      keeps_readCheck.run_done (.refl _) hu).mono fun _ u hu => ⟨hu.1.1, hu.1.2, ?_⟩
    have honly : (d.db.world.withParam []).OnlyConf u := hu.2
    rw [show u = _ from honly]
    exact hd.patbuf
  have hmarks := erases_conffileReload.ends (t := toReloading.get d) hreload
  refine ends_bind.mpr (ends_zoom (hmarks.mono fun _ r hr => ?_))
  exact hr

/-- Whatever the files, as long as they fit whenever they are read: at the start and at every
reload the program gets all that it looks up, or it exits with a report. -/
theorem usable_of_fit (faults : List Bool) (hlib : b.lib.GroupsInside) (hnil : w.conf.param = [])
    (hcur : w.tables.authCur = 0) (h : w.Fit b.lib (StartNeeds b.withDb b.lib)) :
    ((Daemon.start b).run (Daemon.boot w faults)).Ends Reports fun _ s =>
      (∃ v, s.db.world.conffileParam (cstr "logging") = some v) ∧
        ∀ es t, Run (Daemon.next b) (Daemon.Fitting b) s es t →
          t.db.world.Provided b.withDb ∧ (Daemon.Fitting b t (.signal .hup) →
            ((Daemon.handler b .hup).run t).Ends Reports fun _ u =>
              u.db.world.Provided b.withDb) := by
  have hstart := startsUsable_of_fit faults hlib hnil hcur h
  unfold StartsUsable at hstart
  refine hstart.mono fun _ s hs => ⟨hs.2, fun es t hrun => ?_⟩
  have ht : t.db.world.Provided b.withDb := by
    refine hrun.invariant (I := fun t => t.db.world.Provided b.withDb)
      (fun s x t hok hst hs => ?_) hs.1
    by_cases hx : x = .signal .hup
    · subst hx
      obtain ⟨a, hrun⟩ := Outcome.returned_eq_some.mp hst
      exact (ends_reload hlib hs hok).of_done hrun
    · exact provided_next hx hst hs
  exact ⟨ht, ends_reload hlib ht⟩

/-! ### Two small configurations -/

/-- The small configuration can be read, and has all that the program uses. -/
def SmallFits (c : Config) : Prop :=
  let ps := (Conf.fileEntries RegexLib.posix c.conf).1
  let v := (withLog c).withParam ps
  let u := v.withServer uwImapOrder uwImapMatch
  ((withLog c).fs.contents (cstr "c") = some c.conf ∧
      (Conf.fileEntries RegexLib.posix c.conf).2 = none ∧ ps.length + 2 ≤ paramSize) ∧
    (v.conffileParam (cstr "serverdefs") = some (cstr "d") ∧
      v.fs.contents (cstr "d") = some c.defs ∧
      stanzasClosed false 0 (fileTokens RegexLib.posix c.defs) = true ∧
      (v.serverSection RegexLib.posix (cstr "d")).map (fun r => (r.1.order, r.1.pattern)) =
        .ok (some uwImapOrder, some uwImapMatch)) ∧
    [cstr "authtype", cstr "logging", cstr "match"].map u.conffileParam =
      [cstr "text", cstr "syslog", uwImapMatch].map some ∧
    (RegexLib.posix.regcomp uwImapMatch true).isSome = true ∧
    ((Daemon.start .simple).run (Daemon.boot (withLog c) [])).returned.isSome = true

theorem exists_smallFits : ∃ c, SmallFits c := by
  refine ⟨oneStanza (cstr "60") uwImapOrder uwImapMatch, ?_⟩
  unfold SmallFits
  decide +kernel

theorem SmallFits.fit {c : Config} (h : SmallFits c) :
    (withLog c).Fit Build.simple.lib (StartNeeds false Build.simple.lib) := by
  obtain ⟨⟨hconf, hend, hroom⟩, ⟨hdefs, htext, hclosed, hsec⟩, hparams, hcompiles, -⟩ := h
  simp only [List.map_cons, List.map_nil, List.cons.injEq, and_true] at hparams
  obtain ⟨htype, hlogging, hmatch⟩ := hparams
  constructor
  · intro text ht
    obtain rfl : text = c.conf := Option.some.inj (ht.symm.trans hconf)
    have hle : (Conf.fileEntries Build.simple.lib c.conf).1.length + 2 ≤ paramSize := hroom
    exact ⟨hend, fun _ => by rw [List.length_nil]; omega⟩
  · intro text ht _ defs hd
    obtain rfl : text = c.conf := Option.some.inj (ht.symm.trans hconf)
    obtain rfl : defs = cstr "d" := Option.some.inj (hd.symm.trans hdefs)
    refine ⟨fun text ht _ => ?_, fun sec u hu => ?_⟩
    · obtain rfl : text = c.defs := Option.some.inj (ht.symm.trans htext)
      exact hclosed
    · rw [show RegexLib.posix = Build.simple.lib from rfl, hu] at hsec
      obtain ⟨ho, hp⟩ := Prod.mk.inj (Except.ok.inj hsec)
      refine ⟨_, _, ho, hp, hroom, fun _ => ⟨_, htype, fun _ _ => ⟨⟨_, hlogging⟩, ?_⟩⟩⟩
      intro text ht
      obtain rfl : text = uwImapMatch := Option.some.inj (ht.symm.trans hmatch)
      exact Option.isSome_iff_exists.mp hcompiles

/-- The daemon comes to its loop with all that it looks up. -/
theorem usable_small : ∃ c s, (Daemon.start .simple).run (Daemon.boot (withLog c) []) = .done () s ∧
    s.db.world.Provided false := by
  obtain ⟨c, hc⟩ := exists_smallFits
  obtain ⟨s, hs⟩ := Option.isSome_iff_exists.mp hc.2.2.2.2
  obtain ⟨_, hrun⟩ := Outcome.returned_eq_some.mp hs
  have husable := usable_of_fit (b := .simple) [] RegexLib.groupsInside_posix rfl rfl hc.fit
  exact ⟨c, s, hrun, ((husable.of_done hrun).2 [] s .nil).1⟩

/-- The same without the kind of log. -/
def noLogging : Config :=
  { oneStanza (cstr "60") uwImapOrder uwImapMatch with
    conf := cstr "serverdefs d\nserver s\npidfile p\nmaillog m\nauthfile a\nauthtemp t\n" ++
      cstr "dumpfile u\nauthtype text\nflush 9\nsuspicious 9\ntimeout 60\n" }

/-- The program is stopped by a pointer that it has not looked at. -/
def UsesNull (c : Config) : Prop :=
  ((Daemon.start .simple).run (Daemon.boot (withLog c) [])).result = .error .undefined

theorem usesNull_noLogging : UsesNull noLogging := by
  unfold UsesNull
  decide +kernel

theorem UsesNull.not_startsUsable {c : Config} (h : UsesNull c) :
    ¬ StartsUsable .simple (withLog c) [] := by
  intro hu
  unfold StartsUsable at hu
  unfold UsesNull at h
  obtain ⟨code, hcode⟩ := hu.of_error h
  cases hcode

/-- `main` compares the kind of log that nobody gave. -/
theorem compares_null : ¬ StartsUsable .simple (withLog noLogging) [] :=
  usesNull_noLogging.not_startsUsable

end ExactDaemon
