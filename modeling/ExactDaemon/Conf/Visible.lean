import ExactDaemon.Auth.Lookups
import ExactDaemon.Conf.Reading
import ExactDaemon.Conf.Restart
import ExactDaemon.Lib.Points

/-! # Lookups during a reload

`conffile_reload` gives the table of parameters back block by block, empties it and fills it
again line by line. A handler that runs in between looks its parameters up in what is there.
It finds them exactly before the first block was given back, and once the lines that define
them have been read again.
-/

namespace ExactDaemon

open Prog

/-- The daemon in the middle of a reload. Of the blocks of the table, the names and the
values in turn, the first `freed` have been given back; `lines` counts the lines read since
the table was emptied. -/
structure Reloading where
  world : World
  freed : ℕ
  lines : Option ℕ

namespace Reloading

def toWorld : Lens Reloading World where
  get := world
  set s w := { s with world := w }
  get_set _ _ := rfl
  set_get _ := rfl
  set_set _ _ _ := rfl

/-- The loop of `conffile_param` from the index `i` on; to look at a block that was given
back is undefined behaviour. -/
def lookup (name : CStr) (freed : ℕ) : ℕ → List Param → Except Halt (Option CStr)
  | _, [] => .ok none
  | i, p :: ps =>
    if 2 * i < freed then .error .undefined
    else if strcmp name p.name = 0 then
      if 2 * i + 1 < freed then .error .undefined else .ok (some p.value)
    else lookup name freed (i + 1) ps

/-- `conffile_param`. -/
def conffileParam (s : Reloading) (name : CStr) : Except Halt (Option CStr) :=
  lookup name s.freed 0 s.world.conf.param

/-- `free (param[i].name)`. -/
def freeName (onLiteral : Except Halt Unit) (i : ℕ) (s : Reloading) :
    Except Halt (Unit × Reloading) :=
  (s.world.freeName onLiteral i).map fun r => ((), { s with world := r.2, freed := 2 * i + 1 })

def conffileFree (onLiteral : Except Halt Unit) : Prog Reloading Unit := do
  let n ← read (·.world.conf.param.length + 1)
  loop (fun i s => i < s.world.conf.param.length) (fun i _ => do
    attempt (freeName onLiteral i)
    -- the value
    modify ({ · with freed := 2 * i + 2 })) n 0 ()
  modify fun s => ⟨s.world.withParam [], 0, some 0⟩

/-- The entry is filled before it is counted, and so is not seen before that. -/
def readLine (lib : RegexLib) (l : Bytes) (s : Reloading) : Except Halt (Unit × Reloading) :=
  (s.world.onConf (Conf.readLine lib l)).map fun r =>
    ((), { s with world := r.2, lines := s.lines.map (· + 1) })

def conffileLines (lib : RegexLib) : ℕ → Reader → Prog Reloading Unit
  | 0, _ => halt .diverged
  | n + 1, f =>
    match f.fgets 1023 with
    | (none, _) => pure ()
    | (some l, f) => do
      attempt (readLine lib l)
      conffileLines lib n f

def conffileRead (lib : RegexLib) : Prog Reloading Unit := do
  let f ← read fun s => s.world.fs.contents s.world.conf.filename
  match f with
  | none => halt (.exit 5)
  | some text => conffileLines lib (text.length + 1) ⟨text, false⟩

def conffileReload (onLiteral : Except Halt Unit) (lib : RegexLib) : Prog Reloading Unit := do
  conffileFree onLiteral
  conffileRead lib
  zoom toWorld (conffileCheck lib)

/-- Whatever else the state of the daemon is, the handler finds each parameter that it looks up,
with its value in the old or in the new configuration. -/
def Visible (w v : World) (withDb : Bool) (data : DbRecord → ℤ) (stamp : ℤ → Bytes)
    (h : Handler) (s : Reloading) : Prop :=
  ∀ d : DbWorld, d.world.conf = s.world.conf → ∀ name ∈ h.asked withDb data stamp d,
    ∃ val, s.conffileParam name = .ok (some val) ∧
      (w.conffileParam name = some val ∨ v.conffileParam name = some val)

/-- Nothing was given back yet, or the lines read so far define each of the parameters. -/
def Whole (lib : RegexLib) (fn : CStr) (text : Bytes) (names : List CStr) (s : Reloading) : Prop :=
  (s.lines = none ∧ s.freed = 0) ∨
    ∃ k cf, s.lines = some k ∧ Conf.readLines lib k ⟨text, false⟩ ⟨fn, []⟩ = .ok cf ∧
      ∀ name ∈ names, ∃ p ∈ cf.param, p.name = name

/-- What may happen between two statements: neither the table nor the file changes. -/
structure Meanwhile (fn : CStr) (text : Bytes) (s t : Reloading) : Prop where
  freed : t.freed = s.freed
  lines : t.lines = s.lines
  conf : t.world.conf = s.world.conf
  file : t.world.fs.contents fn = some text

end Reloading

/-- An accepted configuration that has a file for the relay table to be prepared in. -/
structure World.Valid (w : World) : Prop where
  accepted : w.Accepted
  authtemp : ∃ v, w.conffileParam (cstr "authtemp") = some v

open Reloading

variable {lib : RegexLib} {onLiteral : Except Halt Unit} {w u v : World} {s t : Reloading}
  {fn name val : CStr} {text : Bytes} {names : List CStr} {k n i : ℕ} {f : Reader} {cf : Conf}
  {ps : List Param}

/-! ### The marks change nothing -/

theorem erases_conffileLines (n : ℕ) (f : Reader) :
    Erases world (Reloading.conffileLines lib n f) (ExactDaemon.conffileLines lib n f) := by
  induction n generalizing f with
  | zero => exact erases_halt _
  | succ n ih =>
    unfold Reloading.conffileLines ExactDaemon.conffileLines
    obtain ⟨l, f'⟩ := f.fgets 1023
    cases l with
    | none => exact erases_pure ()
    | some l =>
      refine Erases.bind (erases_attempt fun s => ?_) fun _ => ih _
      unfold Reloading.readLine
      cases s.world.onConf _ <;> rfl

theorem erases_conffileFree :
    Erases world (Reloading.conffileFree onLiteral) (ExactDaemon.conffileFree onLiteral) := by
  refine Erases.bind (erases_read fun _ => rfl) fun n => ?_
  have hbody : ∀ i (_ : Unit), Erases world (do
      attempt (Reloading.freeName onLiteral i)
      modify ({ · with freed := 2 * i + 2 })) (attempt (World.freeName onLiteral i)) := by
    intro i _ s
    rw [run_bind, run_attempt, run_attempt]
    unfold Reloading.freeName
    cases s.world.freeName onLiteral i <;> rfl
  refine Erases.bind ?_ fun _ => erases_modify fun _ => rfl
  apply erases_loop _ hbody
  exact fun _ _ => rfl

/-- Without the marks, the reload is the one of the daemon. -/
theorem erases_conffileReload : Erases world (Reloading.conffileReload onLiteral lib)
    (ExactDaemon.conffileReload onLiteral lib) := by
  refine erases_conffileFree.bind fun _ => Erases.bind ?_ fun _ =>
    erases_zoom (l := Reloading.toWorld) (ExactDaemon.conffileCheck lib)
  refine Erases.bind (erases_read fun _ => rfl) fun f => ?_
  cases f with
  | none => exact erases_halt _
  | some text => exact erases_conffileLines _ _

/-! ### Looking up -/

theorem lookup_unfreed : Reloading.lookup name 0 i ps =
    .ok ((ps.find? fun p => strcmp name p.name = 0).map (·.value)) := by
  induction ps generalizing i with
  | nil => rfl
  | cons p ps ih =>
    rw [Reloading.lookup, if_neg (Nat.not_lt_zero _), List.find?_cons]
    by_cases h : strcmp name p.name = 0
    · rw [if_pos h, if_neg (Nat.not_lt_zero _)]
      simp only [h, decide_true]
      rfl
    · rw [if_neg h, ih]
      simp only [h, decide_false]

theorem conffileParam_of_unfreed (h : s.freed = 0) :
    s.conffileParam name = .ok (s.world.conffileParam name) := by
  unfold Reloading.conffileParam
  rw [h, lookup_unfreed]
  rfl

/-- The first entry is looked at by every lookup. -/
theorem conffileParam_of_freed (h : 0 < s.freed) (hps : s.world.conf.param ≠ []) :
    s.conffileParam name = .error .undefined := by
  unfold Reloading.conffileParam
  cases hp : s.world.conf.param with
  | nil => exact absurd hp hps
  | cons p ps => rw [Reloading.lookup, if_pos (by omega)]

/-! ### The course of a reload -/

/-- A name that `server_check` appends. -/
def Appended (p : Param) : Prop := p.name = cstr "order" ∨ p.name = cstr "match"

/-- The parameters are these, with others that `server_check` has appended. -/
def World.Appends (fn : CStr) (ps : List Param) (w : World) : Prop :=
  w.conf.filename = fn ∧ ∃ extra, w.conf.param = ps ++ extra ∧ ∀ p ∈ extra, Appended p

/-- The table has not been emptied yet. -/
structure Reloading.Old (w : World) (s : Reloading) : Prop where
  lines : s.lines = none
  conf : s.world.conf = w.conf

/-- The first `k` lines have been read again, and perhaps the check has appended something. -/
structure Reloading.Filled (lib : RegexLib) (fn : CStr) (text : Bytes) (k : ℕ) (cf : Conf)
    (s : Reloading) : Prop where
  lines : s.lines = some k
  freed : s.freed = 0
  few : k ≤ text.length + 1
  read : Conf.readLines lib k ⟨text, false⟩ ⟨fn, []⟩ = .ok cf
  appends : s.world.Appends fn cf.param

/-- What holds at every point of a reload. -/
def Reloading.Course (lib : RegexLib) (fn : CStr) (text : Bytes) (w : World) (s : Reloading) :
    Prop :=
  s.Old w ∨ ∃ k cf, s.Filled lib fn text k cf

theorem Reloading.Meanwhile.old (h : Meanwhile fn text s t) (hs : s.Old w) : t.Old w :=
  ⟨h.lines.trans hs.lines, h.conf.trans hs.conf⟩

theorem Reloading.Meanwhile.filled (h : Meanwhile fn text s t) (hs : s.Filled lib fn text k cf) :
    t.Filled lib fn text k cf where
  lines := h.lines.trans hs.lines
  freed := h.freed.trans hs.freed
  few := hs.few
  read := hs.read
  appends := by
    unfold World.Appends
    rw [h.conf]
    exact hs.appends

theorem Reloading.Meanwhile.course (h : Meanwhile fn text s t) (hs : s.Course lib fn text w) :
    t.Course lib fn text w := by
  rcases hs with hs | ⟨k, cf, hs⟩
  · exact .inl (h.old hs)
  · exact .inr ⟨k, cf, h.filled hs⟩

theorem keeps_freeLoop (onLiteral : Except Halt Unit) (n : ℕ) :
    Keeps (Reloading.Old w) (loop (fun i s => i < s.world.conf.param.length) (fun i _ => do
      attempt (Reloading.freeName onLiteral i)
      modify ({ · with freed := 2 * i + 2 })) n 0 ()) := by
  refine keeps_loop (fun i _ => Keeps.bind (keeps_attempt fun s a t hs h => ?_) fun _ =>
    keeps_act fun s hs => ⟨hs.lines, hs.conf⟩) n 0 ()
  unfold Reloading.freeName at h
  cases hf : s.world.freeName onLiteral i with
  | error e =>
    rw [hf] at h
    cases h
  | ok r =>
    rw [hf] at h
    cases h
    have hr : r.2 = s.world := freeName_same hf
    exact ⟨hs.lines, by rw [hr, hs.conf]⟩

/-- Giving the blocks back leaves the table as it was until it is emptied. -/
theorem upholds_conffileFree (hs : s.Old w) : Upholds (Meanwhile w.conf.filename text)
    (Course lib w.conf.filename text w) (Reloading.conffileFree onLiteral)
    (fun _ t => t.Filled lib w.conf.filename text 0 ⟨w.conf.filename, []⟩ ∧
      t.world.conf.param = []) s := by
  refine upholds_bind (upholds_act fun s₁ h₁ => ⟨.inl (h₁.old hs), upholds_bind ?_⟩)
  have hloop : Upholds (Meanwhile w.conf.filename text) (Course lib w.conf.filename text w)
      _ (fun _ => Reloading.Old w) s₁ :=
    (keeps_freeLoop onLiteral (s₁.world.conf.param.length + 1)).upholds
      (fun _ _ h => h.old) (fun _ h => .inl h) (h₁.old hs)
  refine hloop.mono fun _ s₂ h₂ => upholds_act fun s₃ h₃ => ?_
  have hfilled : Reloading.Filled lib w.conf.filename text 0 ⟨w.conf.filename, []⟩
      ⟨s₃.world.withParam [], 0, some 0⟩ :=
    { lines := rfl
      freed := rfl
      few := Nat.zero_le _
      read := rfl
      appends := ⟨show s₃.world.conf.filename = _ by rw [(h₃.old h₂).conf],
        [], rfl, List.forall_mem_nil _⟩ }
  exact ⟨.inr ⟨_, _, hfilled⟩, hfilled, rfl⟩

/-! ### Filling the table -/

/-- The first `k` lines have been read, and these are the lines to come. -/
structure Reloading.AtLine (lib : RegexLib) (fn : CStr) (text : Bytes) (k : ℕ) (f : Reader)
    (s : Reloading) : Prop where
  filled : s.Filled lib fn text k s.world.conf
  rest : ∀ j, Conf.readLines lib (k + j) ⟨text, false⟩ ⟨fn, []⟩ =
    Conf.readLines lib j f s.world.conf

theorem Reloading.Meanwhile.atLine (h : Meanwhile fn text s t) (hs : s.AtLine lib fn text k f) :
    t.AtLine lib fn text k f := by
  constructor
  · rw [h.conf]
    exact h.filled hs.filled
  · rw [h.conf]
    exact hs.rest

/-- One more line. -/
theorem Reloading.AtLine.next {l : Bytes} {f' : Reader} (hs : s.AtLine lib fn text k f)
    (hk : k ≤ text.length) (hf : f.fgets 1023 = (some l, f'))
    (hr : Reloading.readLine lib l s = .ok ((), t)) : t.AtLine lib fn text (k + 1) f' := by
  unfold Reloading.readLine World.onConf at hr
  cases hcf : Conf.readLine lib l s.world.conf with
  | error e =>
    rw [hcf] at hr
    cases hr
  | ok cf =>
    rw [hcf] at hr
    cases hr
    have hrest : ∀ j, Conf.readLines lib (k + 1 + j) ⟨text, false⟩ ⟨fn, []⟩ =
        Conf.readLines lib j f' cf := by
      intro j
      rw [Nat.add_assoc, Nat.add_comm 1 j, hs.rest, Conf.readLines_succ hf hcf]
    have hfn : cf.filename = fn := by
      rw [readLine_param hcf]
      exact hs.filled.appends.1
    refine ⟨⟨?_, hs.filled.freed, by omega, hrest 0, hfn, [], ?_, List.forall_mem_nil _⟩, hrest⟩
    · change s.lines.map (· + 1) = _
      rw [hs.filled.lines]
      rfl
    · exact (List.append_nil _).symm

theorem upholds_conffileLines (hs : s.AtLine lib fn text k f) (hn : k + n = text.length + 1) :
    Upholds (Meanwhile fn text) (Course lib fn text w) (Reloading.conffileLines lib n f)
      (fun _ t => ∃ k cf, t.Filled lib fn text k cf) s := by
  induction n generalizing k f s with
  | zero => trivial
  | succ n ih =>
    unfold Reloading.conffileLines
    rcases hf : f.fgets 1023 with ⟨_ | l, f'⟩
    · exact ⟨k, _, hs.filled⟩
    · refine upholds_bind (upholds_attempt (fun s₁ _ s₂ h₁ hr => ?_) fun s₁ e h₁ _ => ?_)
      · have hnext := (h₁.atLine hs).next (by omega) hf hr
        exact ⟨.inr ⟨_, _, hnext.filled⟩, ih hnext (by omega)⟩
      · exact .inr ⟨_, _, h₁.filled hs.filled⟩

theorem upholds_conffileRead (hs : s.Filled lib fn text 0 ⟨fn, []⟩)
    (hps : s.world.conf.param = []) :
    Upholds (Meanwhile fn text) (Course lib fn text w) (Reloading.conffileRead lib)
      (fun _ t => ∃ k cf, t.Filled lib fn text k cf) s := by
  refine upholds_bind (upholds_act fun s₁ h₁ => ⟨.inr ⟨_, _, h₁.filled hs⟩, ?_⟩)
  have hfn : s₁.world.conf.filename = fn := (h₁.filled hs).appends.1
  have hconf : s₁.world.conf = ⟨fn, []⟩ := by
    rw [← hfn, h₁.conf, ← hps]
  have hline : s₁.AtLine lib fn text 0 ⟨text, false⟩ := by
    constructor
    · rw [hconf]
      exact h₁.filled hs
    · intro j
      rw [hconf, Nat.zero_add]
  dsimp only
  rw [hfn, h₁.file]
  exact upholds_conffileLines hline (Nat.zero_add _)

/-! ### The check -/

theorem keeps_appended {v : Option CStr} (hname : name = cstr "order" ∨ name = cstr "match") :
    Keeps (World.Appends fn ps) (attempt (World.addLiteral name v)) := by
  refine keeps_attempt fun w _ w' h hadd => ?_
  obtain ⟨hfn, extra, hps, hextra⟩ := h
  obtain ⟨v, -, rfl⟩ := addLiteral_done hadd
  refine ⟨hfn, extra ++ [⟨name, v, true⟩], ?_, ?_⟩
  · dsimp only
    rw [hps, List.append_assoc]
  · intro p hp
    rcases List.mem_append.mp hp with hp | hp
    · exact hextra p hp
    · rw [List.mem_singleton.mp hp]
      exact hname

/-- The check only appends. -/
theorem keeps_conffileCheck : Keeps (World.Appends fn ps) (conffileCheck lib) := by
  refine Keeps.bind (keeps_forM fun _ => keeps_lookup fun _ _ _ => require_same) fun _ => ?_
  refine Keeps.bind (keeps_forM fun _ => keeps_lookup fun _ _ _ => requireInt_same) fun _ => ?_
  refine Keeps.bind (keeps_lookup fun _ _ _ => derefParam_same) fun sd => ?_
  refine Keeps.bind (keeps_attempt fun w _ w' h hs => ?_) fun sec => ?_
  · unfold World.Appends
    rw [serverSection_conf hs]
    exact h
  · refine Keeps.bind (keeps_appended (.inl rfl)) fun _ => ?_
    refine Keeps.bind (keeps_appended (.inr rfl)) fun _ => ?_
    refine Keeps.bind (keeps_lookup fun _ _ _ => oneOf_same) fun _ => ?_
    exact keeps_lookup fun _ _ _ => oneOf_same

theorem keeps_filled :
    Keeps (Reloading.Filled lib fn text k cf) (zoom Reloading.toWorld (conffileCheck lib)) := by
  have hmarks : Keeps (fun s : Reloading => s.lines = some k ∧ s.freed = 0 ∧
      k ≤ text.length + 1 ∧ Conf.readLines lib k ⟨text, false⟩ ⟨fn, []⟩ = .ok cf)
      (zoom Reloading.toWorld (conffileCheck lib)) := keeps_zoom (fun _ _ h => h) _
  have hworld : Keeps (fun s : Reloading => s.world.Appends fn cf.param)
      (zoom Reloading.toWorld (conffileCheck lib)) :=
    keeps_conffileCheck.zoom (l := Reloading.toWorld)
  refine (hmarks.and hworld).congr fun s => ⟨?_, ?_⟩
  · rintro ⟨⟨hlines, hfreed, hfew, hread⟩, happends⟩
    exact ⟨hlines, hfreed, hfew, hread, happends⟩
  · rintro ⟨hlines, hfreed, hfew, hread, happends⟩
    exact ⟨⟨hlines, hfreed, hfew, hread⟩, happends⟩

/-! ### A whole reload -/

theorem upholds_conffileReload (hs : s.Old w) : Upholds (Meanwhile w.conf.filename text)
    (Course lib w.conf.filename text w) (Reloading.conffileReload onLiteral lib)
    (fun _ t => t.Course lib w.conf.filename text w) s := by
  refine upholds_bind ((upholds_conffileFree hs).mono fun _ s₁ h₁ => ?_)
  refine upholds_bind ((upholds_conffileRead h₁.1 h₁.2).mono fun _ s₂ h₂ => ?_)
  obtain ⟨k, cf, h₂⟩ := h₂
  exact (keeps_filled.upholds (fun _ _ h => h.filled) (fun _ h => .inr ⟨_, _, h⟩) h₂).mono
    fun _ _ h => .inr ⟨_, _, h⟩

/-- At every point of a reload the table is the old one or what the lines read so far make
of it. -/
theorem course_of_reaches (hw : t.Old w)
    (h : Reaches (Meanwhile w.conf.filename text) (Reloading.conffileReload onLiteral lib) t s) :
    s.Course lib w.conf.filename text w :=
  (upholds_conffileReload hw).reaches (fun _ _ h => h.course) (.inl hw) h

/-! ### What the handlers look up -/

section Handlers

variable {withDb : Bool} {look : CStr → Option CStr} {h : Handler} {data : DbRecord → ℤ}
  {stamp : ℤ → Bytes}

theorem not_appended_of_lookups (hn : name ∈ h.lookups withDb look) :
    name ≠ cstr "order" ∧ name ≠ cstr "match" := by
  have hdecide : ∀ name ∈ Handler.names, name ≠ cstr "order" ∧ name ≠ cstr "match" := by decide
  exact hdecide name (Handler.lookups_subset withDb look h hn)

/-- A valid configuration defines what the handlers look up. -/
theorem World.Valid.lookups (hw : w.Valid) (hn : name ∈ h.lookups withDb look) :
    ∃ val, w.conffileParam name = some val := by
  have htype : ∃ v, w.conffileParam (cstr "authtype") = some v :=
    let ⟨v, hv, _⟩ := hw.accepted.authtype
    ⟨v, hv⟩
  have htimeout : ∃ v, w.conffileParam (cstr "timeout") = some v :=
    let ⟨v, hv, _⟩ := hw.accepted.numbers (cstr "timeout") (by decide)
    ⟨v, hv⟩
  have hfile := hw.accepted.required (cstr "authfile") (by decide)
  have hdump := hw.accepted.required (cstr "dumpfile") (by decide)
  rcases List.mem_cons.mp (Handler.lookups_subset withDb look h hn) with rfl | hn
  · exact htype
  rcases List.mem_cons.mp hn with rfl | hn
  · exact htimeout
  rcases List.mem_cons.mp hn with rfl | hn
  · exact hw.authtemp
  rcases List.mem_cons.mp hn with rfl | hn
  · exact hfile
  rw [List.mem_singleton.mp hn]
  exact hdump

theorem World.Accepted.param_ne_nil (hw : w.Accepted) : w.conf.param ≠ [] := by
  obtain ⟨p, hp, -⟩ := hw.literal
  exact List.ne_nil_of_mem hp

/-- What is found has been defined by the lines read so far. -/
theorem Reloading.Filled.defined (hs : s.Filled lib fn text k cf)
    (hname : name ≠ cstr "order" ∧ name ≠ cstr "match")
    (h : s.world.conffileParam name = some val) : ∃ p ∈ cf.param, p.name = name := by
  obtain ⟨-, extra, hps, hextra⟩ := hs.appends
  obtain ⟨p, hp, -⟩ := Option.map_eq_some_iff.mp h
  have hpname : p.name = name := by
    have hcmp := List.find?_some hp
    exact (strcmp_eq_zero.mp (of_decide_eq_true hcmp)).symm
  have hmem := List.mem_of_find?_eq_some hp
  rw [hps, List.mem_append] at hmem
  rcases hmem with hmem | hmem
  · exact ⟨p, hmem, hpname⟩
  · rcases hextra p hmem with ho | hm
    · exact absurd (hpname.symm.trans ho) hname.1
    · exact absurd (hpname.symm.trans hm) hname.2

/-- The new configuration: a process that reads the file accepts it and ends up with `v`. -/
structure Reads (lib : RegexLib) (fn : CStr) (text : Bytes) (u v : World) : Prop where
  conf : u.conf = ⟨fn, []⟩
  file : u.fs.contents fn = some text
  accepts : (readCheck lib).run u = .done () v

theorem Reloading.Filled.extends (hs : s.Filled lib fn text k cf) (hv : Reads lib fn text u v) :
    cf.param <+: v.conf.param := by
  obtain ⟨u₁, o, p, hread, hparam⟩ := param_of_readCheck hv.accepts
  obtain ⟨text', htext, hlines⟩ := readLines_of_conffileRead hread
  rw [hv.conf] at htext hlines
  obtain rfl : text = text' := Option.some.inj (hv.file.symm.trans htext)
  have hbefore : cf.Before u₁.conf := readLines_mono hs.few hs.read hlines
  rw [hparam]
  exact hbefore.trans (List.prefix_append _ _)

/-- What the lines read so far define is found as it will be in the end. -/
theorem Reloading.Filled.found (hs : s.Filled lib fn text k cf) (hv : Reads lib fn text u v)
    (hdef : ∃ p ∈ cf.param, p.name = name) : ∃ val, s.world.conffileParam name = some val ∧
      v.conffileParam name = some val := by
  obtain ⟨p, hp, hpname⟩ := hdef
  obtain ⟨val, hval⟩ : ∃ val, (v.withParam cf.param).conffileParam name = some val :=
    World.conffileParam_isSome hp hpname
  have hstate : (v.withParam cf.param).Extends s.world := by
    obtain ⟨-, extra, hps, -⟩ := hs.appends
    exact ⟨extra, hps.symm⟩
  have hend : (v.withParam cf.param).Extends v := hs.extends hv
  exact ⟨val, hstate.conffileParam hval, hend.conffileParam hval⟩

/-- A handler that runs to completion changes neither the table nor the marks. -/
theorem meanwhile_of_handler {d d' : DbWorld} (hs : s.world = d.world)
    (hr : (h.prog withDb data stamp).run d = .done () d')
    (hfile : d'.world.fs.contents fn = some text) :
    Meanwhile fn text s { s with world := d'.world } := by
  have hk : Keeps (fun e : DbWorld => e.world.conf = d.world.conf) (h.prog withDb data stamp) := by
    have hJ : ∀ names, Untouched names fun e : DbWorld => e.world.conf = d.world.conf := fun _ =>
      ⟨fun _ _ hc he => hc.conf.trans he,
        fun _ _ _ _ hg he => (conf_afterCall fun w => (hg w).conf).trans he, fun _ _ he => he⟩
    cases h with
    | clean => exact keeps_authClean (hJ _) data
    | dump => exact keeps_authDump (hJ _) stamp
  refine ⟨rfl, rfl, ?_, hfile⟩
  rw [hs]
  exact hk.run_done rfl hr

/-- Between two statements of a reload, a handler finds each parameter that it looks up, with
the old value or the new one, exactly if no block was given back yet or the lines that define
them have been read again. -/
theorem visible_iff (hw : w.Valid) (hv : Reads lib w.conf.filename text u v)
    (hs : Reaches (Meanwhile w.conf.filename text) (Reloading.conffileReload onLiteral lib)
      ⟨w, 0, none⟩ s) :
    s.Visible w v withDb data stamp h ↔
      s.Whole lib w.conf.filename text (h.lookups withDb s.world.conffileParam) := by
  have hidle : (Handler.idle s.world.conf).world.conffileParam = s.world.conffileParam := rfl
  have hlook : ∀ d : DbWorld, d.world.conf = s.world.conf →
      d.world.conffileParam = s.world.conffileParam := fun d hd =>
    World.conffileParam_congr hd
  rcases course_of_reaches (w := w) ⟨rfl, rfl⟩ hs with hold | ⟨k, cf, hfilled⟩
  · by_cases hfreed : s.freed = 0
    · refine iff_of_true (fun d hd name hn => ?_) (.inl ⟨hold.lines, hfreed⟩)
      obtain ⟨val, hval⟩ := hw.lookups (Handler.asked_subset hn)
      refine ⟨val, ?_, .inl hval⟩
      rw [conffileParam_of_unfreed hfreed, World.conffileParam, hold.conf]
      exact congrArg Except.ok hval
    · refine iff_of_false (fun hvis => ?_) ?_
      · obtain ⟨name, hn⟩ := List.exists_mem_of_ne_nil _ (Handler.asked_ne_nil (h := h))
        obtain ⟨val, hval, -⟩ := hvis (Handler.idle s.world.conf) rfl name hn
        rw [conffileParam_of_freed (Nat.pos_of_ne_zero hfreed)
          (by rw [hold.conf]; exact hw.accepted.param_ne_nil)] at hval
        cases hval
      · rintro (⟨-, h0⟩ | ⟨k, cf, hlines, -⟩)
        · exact hfreed h0
        · rw [hold.lines] at hlines
          cases hlines
  · constructor
    · intro hvis
      have hfound : ∀ name ∈ h.asked withDb data stamp (Handler.idle s.world.conf),
          ∃ val, s.world.conffileParam name = some val := fun name hn => by
        obtain ⟨val, hval, -⟩ := hvis (Handler.idle s.world.conf) rfl name hn
        rw [conffileParam_of_unfreed hfilled.freed] at hval
        exact ⟨val, Except.ok.inj hval⟩
      refine .inr ⟨k, cf, hfilled.lines, hfilled.read, fun name hn => ?_⟩
      obtain ⟨val, hval⟩ := hfound name (Handler.subset_asked hfound hn)
      exact hfilled.defined (not_appended_of_lookups hn) hval
    · rintro (⟨hnone, -⟩ | ⟨k', cf', hlines, hread, hdef⟩) d hd name hn
      · rw [hfilled.lines] at hnone
        cases hnone
      · obtain rfl := Option.some.inj (hfilled.lines.symm.trans hlines)
        obtain rfl := Except.ok.inj (hfilled.read.symm.trans hread)
        have hmem := Handler.asked_subset hn
        rw [hlook d hd] at hmem
        obtain ⟨val, hval, hnew⟩ := hfilled.found hv (hdef name hmem)
        exact ⟨val, by rw [conffileParam_of_unfreed hfilled.freed, hval], .inr hnew⟩

end Handlers

/-! ### A reload and its first point, and the first block given back -/

theorem reaches_freed (hw : w.conf.param ≠ []) (hfile : w.fs.contents fn = some text) :
    Reaches (Meanwhile fn text) (Reloading.conffileReload (.ok ()) lib) ⟨w, 0, none⟩
      ⟨w, 1, none⟩ := by
  have hR : ∀ s : Reloading, s.world = w → Meanwhile fn text s s := fun s hs =>
    ⟨rfl, rfl, rfl, by rw [hs]; exact hfile⟩
  have hlt : 0 < w.conf.param.length := List.length_pos_iff.mpr hw
  have hfree : Reloading.freeName (.ok ()) 0 ⟨w, 0, none⟩ = .ok ((), ⟨w, 1, none⟩) := by
    unfold Reloading.freeName World.freeName
    rw [List.getElem?_eq_getElem hlt]
    dsimp only
    split <;> rfl
  refine Reaches.bind (reaches_read_bind (hR ⟨w, 0, none⟩ rfl) (Reaches.bind ?_))
  refine reaches_read_bind (hR ⟨w, 0, none⟩ rfl) ?_
  rw [if_pos (decide_eq_true hlt)]
  exact Reaches.bind (reaches_attempt_bind (hR ⟨w, 0, none⟩ rfl) hfree (.here (hR _ rfl)))

/-- A daemon that has read the one configuration reads the other, and when it has read eight of
its lines, it has those that a dump looks up. -/
def Refills (c c' : Config) : Prop :=
  ((readCheck RegexLib.posix).run ((World.fresh (cstr "c")).install c)).Returns fun _ w =>
    (w.conf.filename = cstr "c" ∧ cstr "c" ≠ c'.serverdefs ∧
      (w.conffileParam (cstr "authtemp")).isSome = true ∧
      ((readCheck RegexLib.posix).run ((World.fresh (cstr "c")).install c')).Returns fun _ _ =>
        True) ∧
    ((World.fresh (cstr "c")).install c').fs.contents (cstr "c") = some c'.conf ∧
    let p := Reloading.conffileReload (.ok ()) RegexLib.posix
    (∀ t ∈ p.trace ⟨w.install c', 0, none⟩,
      t.world.fs.contents (cstr "c") = some c'.conf) ∧
    ∃ t ∈ p.trace ⟨w.install c', 0, none⟩, t.lines = some 8 ∧
      ∀ name ∈ [cstr "authtype", cstr "dumpfile"], (t.world.conffileParam name).isSome = true

theorem exists_refills : ∃ c c', Refills c c' := by
  refine ⟨oneStanza (cstr "60") uwImapOrder uwImapMatch,
    oneStanza (cstr "90") uwImapOrder uwImapMatch, ?_⟩
  unfold Refills
  decide +kernel

/-- A daemon with a valid configuration, and another one that it reads then. -/
theorem exists_refilled : ∃ (w u v : World) (text : Bytes) (s : Reloading), w.Valid ∧
    Reads RegexLib.posix w.conf.filename text u v ∧ w.fs.contents w.conf.filename = some text ∧
      Reaches (Meanwhile w.conf.filename text)
        (Reloading.conffileReload (.ok ()) RegexLib.posix) ⟨w, 0, none⟩ s ∧ s.lines = some 8 ∧
      ∀ name ∈ [cstr "authtype", cstr "dumpfile"],
        (s.world.conffileParam name).isSome = true := by
  obtain ⟨c, c', hrefills⟩ := exists_refills
  obtain ⟨_, w, hw, ⟨hfn, hsd, htemp, hread⟩, hnew, hfile, s, hs, hlines, hdef⟩ :=
    Outcome.returns_iff.mp hrefills
  obtain ⟨_, v, hv, -⟩ := Outcome.returns_iff.mp hread
  have hname : (w.install c').conf.filename = cstr "c" := hfn
  refine ⟨w.install c', (World.fresh (cstr "c")).install c', v, c'.conf, s,
    ⟨(accepted_of_readCheck hw).of_conf rfl, Option.isSome_iff_exists.mp htemp⟩, ?_, ?_, ?_, hlines,
    hdef⟩
  · rw [hname]
    exact ⟨rfl, hnew, hv⟩
  · exact World.contents_install_filename (hfn ▸ hsd)
  · exact reaches_of_trace (fun t ht => ⟨rfl, rfl, rfl, hname ▸ hfile t ht⟩) hs

/-- In the middle of the refill, with four lines still to come, a dump finds what it looks up. -/
theorem visible_refill : ∃ (w u v : World) (text : Bytes) (s : Reloading), w.Valid ∧
    Reads RegexLib.posix w.conf.filename text u v ∧ s.lines = some 8 ∧
      s.Visible w v true (fun _ => 0) (fun _ => []) .dump := by
  obtain ⟨w, u, v, text, s, hvalid, hreads, -, hreach, hlines, hdef⟩ := exists_refilled
  refine ⟨w, u, v, text, s, hvalid, hreads, hlines, (visible_iff hvalid hreads hreach).mpr ?_⟩
  rcases course_of_reaches (w := w) ⟨rfl, rfl⟩ hreach with hold | ⟨k, cf, hfilled⟩
  · rw [hold.lines] at hlines
    cases hlines
  · refine .inr ⟨k, cf, hfilled.lines, hfilled.read, fun name hn => ?_⟩
    obtain ⟨val, hval⟩ := Option.isSome_iff_exists.mp (hdef name hn)
    exact hfilled.defined (not_appended_of_lookups hn) hval

/-- Once the first name has been given back, an alarm looks at it. -/
theorem hidden_freed : ∃ (w u v : World) (text : Bytes) (s : Reloading), w.Valid ∧
    Reads RegexLib.posix w.conf.filename text u v ∧
    Reaches (Meanwhile w.conf.filename text) (Reloading.conffileReload (.ok ()) RegexLib.posix)
      ⟨w, 0, none⟩ s ∧ ¬ s.Visible w v false (fun _ => 0) (fun _ => []) .clean := by
  obtain ⟨w, u, v, text, -, hw, hv, hfile, -⟩ := exists_refilled
  have hps := hw.accepted.param_ne_nil
  refine ⟨w, u, v, text, ⟨w, 1, none⟩, hw, hv, reaches_freed hps hfile, fun h => ?_⟩
  obtain ⟨name, hn⟩ := List.exists_mem_of_ne_nil _ Handler.asked_ne_nil
  obtain ⟨val, hval, -⟩ := h (Handler.idle w.conf) rfl name hn
  rw [conffileParam_of_freed Nat.one_pos hps] at hval
  cases hval

end ExactDaemon
