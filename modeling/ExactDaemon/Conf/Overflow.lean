import ExactDaemon.Conf.Ledger

/-! # Inside the table of parameters

Neither `conffile_read` nor `server_check` looks at the size of `param`. In a sequence of
calls every store is in range exactly if the file has room in the table at each call of
`conffile_read`, and the two parameters of the server at each call of `conffile_check`.
-/

namespace ExactDaemon

open Prog

/-! ### Room -/

/-- The file that `conffile_read` is going to read has room in the table. -/
def World.FileFits (lib : RegexLib) (w : World) : Prop :=
  ∀ text, w.fs.contents w.conf.filename = some text →
    w.conf.param.length + (Conf.fileEntries lib text).1.length ≤ paramSize

/-- The parameters that `conffile_check` looks for are there. -/
structure World.Complete (w : World) : Prop where
  required : ∀ name ∈ requiredS.take 6, ∃ v, w.conffileParam name = some v
  numbers : ∀ name ∈ requiredI, ∃ v, w.conffileParam name = some v ∧ atoi v ≠ 0

/-- The server definitions can be read, and have this section for the server. -/
def World.Selects (lib : RegexLib) (w : World) (sec : Section) : Prop :=
  ∃ sd server a s, w.conffileParam (cstr "serverdefs") = some sd ∧
    w.conffileParam (cstr "server") = some server ∧
    apconfRead lib (w.fs.contents sd) w.staticSection = .ok (some a, s) ∧
    apconfGetsec a server = some sec

/-- What `server_check` is going to store has room in the table. The name `order` is stored
before the order is copied, which stops the program if the section has none. -/
def World.ServerFits (lib : RegexLib) (w : World) : Prop :=
  w.Complete → ∀ sec, w.Selects lib sec →
    w.conf.param.length + (if sec.order = none then 1 else 2) ≤ paramSize

namespace Ledger

/-- Every store was in range. -/
def StoresFit (s : Ledger) : Prop := ∀ i ∈ s.stores, i < paramSize

/-- The table has not grown out of its array. -/
def CountFits (s : Ledger) : Prop := s.world.conf.param.length ≤ paramSize

/-- At every call, what was going to be stored had room. -/
structure RoomAtCalls (lib : RegexLib) (s : Ledger) : Prop where
  reads : ∀ w ∈ s.reads, w.FileFits lib
  checks : ∀ w ∈ s.checks, w.ServerFits lib

/-- All the stores of the calls from `s` on are in range, and `param_max` stays within the
array. -/
structure InRange (onLiteral : Except Halt Unit) (lib : RegexLib) (cs : List ConfCall)
    (s : Ledger) : Prop where
  stores : ((calls onLiteral lib cs).run s).state.StoresFit
  count : ∀ t ∈ (calls onLiteral lib cs).trace s, t.CountFits

end Ledger

open Ledger

variable {lib : RegexLib} {onLiteral : Except Halt Unit} {s t : Ledger} {w : World} {n i : ℕ}
  {f : Reader} {name : CStr} {v : Option CStr} {sec : Section} {cf cf' : Conf}

/-! ### The count -/

theorem add_length {p : Param} (h : cf.add p = .ok cf') : cf'.param.length ≤ paramSize := by
  unfold Conf.add at h
  split at h
  · next hlt =>
    cases h
    rw [List.length_append, List.length_singleton]
    exact hlt
  · cases h

theorem readLine_length {l : Bytes} (hcf : cf.param.length ≤ paramSize)
    (h : Conf.readLine lib l cf = .ok cf') : cf'.param.length ≤ paramSize := by
  rw [readLine_eq] at h
  rcases hl : Conf.lineParam lib l with e | _ | p
  · rw [hl] at h
    cases h
  · rw [hl] at h
    cases h
    exact hcf
  · rw [hl] at h
    exact add_length h

def World.CountFits (w : World) : Prop := w.conf.param.length ≤ paramSize

theorem keeps_count_onConf {g : Conf → Except Halt Conf}
    (hg : ∀ cf cf', cf.param.length ≤ paramSize → g cf = .ok cf' → cf'.param.length ≤ paramSize) :
    Keeps World.CountFits (attempt (World.onConf g)) := by
  refine keeps_attempt fun w a w' h hw => ?_
  unfold World.onConf at hw
  cases hcf : g w.conf with
  | error e =>
    rw [hcf] at hw
    cases hw
  | ok cf =>
    rw [hcf] at hw
    cases hw
    exact hg _ _ h hcf

theorem keeps_count_zoom {p : Prog World α} (h : Keeps World.CountFits p) :
    Keeps Ledger.CountFits (zoom toWorld p) := Keeps.zoom (l := toWorld) h

/-- A change of the ledger beside the state. -/
theorem keeps_count_note {g : Ledger → Ledger} (h : ∀ s, (g s).world = s.world) :
    Keeps Ledger.CountFits (modify g) := by
  refine keeps_act fun s hs => ?_
  unfold Ledger.CountFits
  rw [h s]
  exact hs

theorem keeps_count_lines (n : ℕ) (f : Reader) :
    Keeps Ledger.CountFits (Ledger.conffileLines lib n f) := by
  induction n generalizing f with
  | zero => exact keeps_halt _
  | succ n ih =>
    unfold Ledger.conffileLines
    split
    · exact keeps_pure _
    · refine Keeps.bind ?_ fun _ => ih _
      refine Keeps.bind (keeps_count_note fun s => ?_) fun _ =>
        keeps_count_zoom (keeps_count_onConf fun _ _ => readLine_length)
      split <;> rfl

theorem keeps_count_read : Keeps Ledger.CountFits (Ledger.conffileRead lib) := by
  refine Keeps.bind (keeps_count_note fun _ => rfl) fun _ => (keeps_read _).bind fun text => ?_
  cases text with
  | none => exact keeps_halt _
  | some text => exact keeps_count_lines _ _

theorem keeps_count_addLiteral : Keeps Ledger.CountFits (Ledger.addLiteral name v) := by
  refine Keeps.bind (keeps_count_note fun _ => rfl) fun _ => keeps_count_zoom ?_
  cases v with
  | none => exact keeps_attempt fun _ _ _ _ hs => by cases hs
  | some v => exact keeps_count_onConf fun _ _ _ => add_length

theorem keeps_count_section (sd : CStr) :
    Keeps World.CountFits (attempt (World.serverSection lib sd)) :=
  keeps_attempt fun w _ _ h hw => by
    rw [World.CountFits, serverSection_conf hw]
    exact h

theorem keeps_count_check : Keeps Ledger.CountFits (Ledger.conffileCheck lib) := by
  refine Keeps.bind (keeps_count_note fun _ => rfl) fun _ => ?_
  refine Keeps.bind (keeps_count_zoom ?_) fun _ => ?_
  · exact (keeps_forM fun _ => keeps_lookup fun _ _ _ => require_same).bind fun _ =>
      keeps_forM fun _ => keeps_lookup fun _ _ _ => requireInt_same
  refine Keeps.bind (keeps_count_zoom (keeps_lookup fun _ _ _ => derefParam_same)) fun sd => ?_
  refine Keeps.bind (keeps_count_zoom (keeps_count_section sd)) fun sec => ?_
  refine keeps_count_addLiteral.bind fun _ => keeps_count_addLiteral.bind fun _ => ?_
  refine keeps_count_zoom ((keeps_lookup fun _ _ _ => oneOf_same).bind fun _ => ?_)
  exact keeps_lookup fun _ _ _ => oneOf_same

theorem keeps_count_free : Keeps Ledger.CountFits (Ledger.conffileFree onLiteral) := by
  refine Keeps.bind (keeps_count_note fun _ => rfl) fun _ => (keeps_read _).bind fun n => ?_
  refine Keeps.bind (keeps_loop (fun i _ => ?_) _ _ _) fun _ =>
    keeps_act fun _ _ => Nat.zero_le _
  refine Keeps.bind (keeps_count_note fun s => world_freeAt s _) fun _ => ?_
  refine Keeps.bind (keeps_count_zoom (keeps_lookup fun _ _ _ => freeName_same)) fun _ => ?_
  exact keeps_count_note fun s => world_freeAt s _

theorem keeps_count_call (c : ConfCall) :
    Keeps Ledger.CountFits (Ledger.call onLiteral lib c) := by
  cases c with
  | files fs => exact keeps_count_zoom (keeps_act fun _ h => h)
  | read => exact keeps_count_read
  | check => exact keeps_count_check
  | reload => exact keeps_count_free.bind fun _ => keeps_count_read.bind fun _ => keeps_count_check

/-! ### The stores of one call -/

/-- From `s` to `t` stores were made that are in range if and only if `c` holds. -/
structure Ledger.Stored (s t : Ledger) (c : Prop) : Prop where
  stores : t.StoresFit ↔ s.StoresFit ∧ c
  reads : t.reads = s.reads
  checks : t.checks = s.checks

theorem Ledger.Stored.of_true {c : Prop} (hc : c) (s : Ledger) : s.Stored s c :=
  ⟨(and_iff_left hc).symm, rfl, rfl⟩

theorem storesFit_concat {l : List ℕ} {k : ℕ} :
    (∀ i ∈ l ++ [k], i < paramSize) ↔ (∀ i ∈ l, i < paramSize) ∧ k < paramSize := by
  rw [List.forall_mem_append, List.forall_mem_singleton]

/-- The loop of `conffile_read` stores at the next index for each parameter of the lines to
come, until it is behind the array. -/
theorem stored_lines (hs : s.CountFits) :
    s.Stored ((Ledger.conffileLines lib n f).run s).state
      (s.world.conf.param.length + (Conf.entries lib n f).1.length ≤ paramSize) := by
  induction n, f using entries_induction lib generalizing s with
  | zero f => exact .of_true hs s
  | done n f hf =>
    rw [ledger_lines_none hf, entries_none hf]
    exact .of_true hs s
  | error n f l f' e hf hl =>
    rw [ledger_lines_some hf, entries_error hf hl, run_bind, run_readLine_error hl]
    exact .of_true hs s
  | skip n f l f' hf hl ih =>
    rw [ledger_lines_some hf, entries_skip hf hl, run_bind, run_readLine_skip hl]
    exact ih hs
  | cons n f l f' p hf hl ih =>
    rw [ledger_lines_some hf, entries_cons hf hl, run_bind, List.length_cons]
    rcases Nat.lt_or_eq_of_le hs with hlt | hfull
    · rw [run_readLine_store hl hlt, Outcome.bind_done]
      have hlen : (s.enterBlock.push p).world.conf.param.length =
          s.world.conf.param.length + 1 := List.length_append
      have ht := ih (s := s.enterBlock.push p) (hlen.trans_le hlt)
      refine ⟨ht.stores.trans ?_, ht.reads, ht.checks⟩
      rw [hlen, show (s.enterBlock.push p).StoresFit ↔ _ from storesFit_concat, and_assoc]
      exact and_congr_right' (by omega)
    · rw [run_readLine_full hl hfull.ge]
      refine ⟨(show s.enterBlock.StoresFit ↔ _ from storesFit_concat).trans ?_, rfl, rfl⟩
      exact and_congr_right' (by omega)

/-- A parameter of the server is stored at the next index, whatever it is. -/
theorem stored_addLiteral (s : Ledger) (name : CStr) (v : Option CStr) :
    s.Stored ((Ledger.addLiteral name v).run s).state
      (s.world.conf.param.length + 1 ≤ paramSize) := by
  have hstate : ((Ledger.addLiteral name v).run s).state.stores = s.enterLiteral.stores ∧
      ((Ledger.addLiteral name v).run s).state.reads = s.reads ∧
      ((Ledger.addLiteral name v).run s).state.checks = s.checks := by
    unfold Ledger.addLiteral
    rw [run_bind, run_modify, Outcome.bind_done, state_zoom_toWorld]
    exact ⟨rfl, rfl, rfl⟩
  refine ⟨?_, hstate.2.1, hstate.2.2⟩
  unfold StoresFit
  rw [hstate.1]
  exact storesFit_concat

/-- What is left of the ledger is what a program on the state finds. -/
theorem stored_zoom {α : Type} {c : Prop} (hc : c) (p : Prog World α) (s : Ledger) :
    s.Stored ((zoom toWorld p).run s).state c := by
  rw [state_zoom_toWorld]
  exact ⟨(and_iff_left hc).symm, rfl, rfl⟩

/-- Nothing is stored after the stores of `p`. -/
theorem Ledger.Stored.bind {α β : Type} {p : Prog Ledger α} {g : α → Prog Ledger β} {c : Prop}
    (hp : s.Stored (p.run s).state c)
    (hg : ∀ a t, p.run s = .done a t → t.Stored ((g a).run t).state True) :
    s.Stored ((p >>= g).run s).state c := by
  rw [run_bind]
  cases hr : p.run s with
  | halted e t =>
    rw [hr] at hp
    exact hp
  | done a t =>
    rw [hr] at hp
    have ht := hg a t hr
    refine ⟨ht.stores.trans ?_, ht.reads.trans hp.reads, ht.checks.trans hp.checks⟩
    rw [and_true]
    exact hp.stores

/-- The two parameters of the server. -/
theorem stored_literals {o m : Option CStr} {p : Prog World Unit} (hs : s.CountFits) :
    s.Stored ((do
      Ledger.addLiteral (cstr "order") o
      Ledger.addLiteral (cstr "match") m
      zoom toWorld p : Prog Ledger Unit).run s).state
      (s.world.conf.param.length + (if o = none then 1 else 2) ≤ paramSize) := by
  cases o with
  | none =>
    rw [run_bind, run_addLiteral_none, if_pos rfl]
    exact ⟨storesFit_concat, rfl, rfl⟩
  | some o =>
    rw [if_neg (by nofun)]
    rcases Nat.lt_or_eq_of_le hs with hlt | hfull
    · rw [run_bind, run_addLiteral_store hlt, Outcome.bind_done]
      have hlen : (s.enterLiteral.push ⟨cstr "order", o, true⟩).world.conf.param.length =
          s.world.conf.param.length + 1 := List.length_append
      have ht := (stored_addLiteral (s.enterLiteral.push ⟨cstr "order", o, true⟩) (cstr "match")
        m).bind (g := fun _ => zoom toWorld p) fun _ t _ => stored_zoom trivial p t
      refine ⟨ht.stores.trans ?_, ht.reads, ht.checks⟩
      rw [hlen, show (s.enterLiteral.push _).StoresFit ↔ _ from storesFit_concat, and_assoc]
      exact and_congr_right' (by omega)
    · rw [run_bind, run_addLiteral_full hfull.ge]
      refine ⟨(show s.enterLiteral.StoresFit ↔ _ from storesFit_concat).trans ?_, rfl, rfl⟩
      exact and_congr_right' (by omega)

/-! ### The checks -/

theorem keeps_confChecks (w : World) : Keeps (· = w) confChecks :=
  (keeps_forM fun _ => keeps_lookup fun _ _ _ => require_same).bind fun _ =>
    keeps_forM fun _ => keeps_lookup fun _ _ _ => requireInt_same

theorem run_confChecks (hw : w.Complete) : confChecks.run w = .done () w := by
  unfold confChecks
  rw [run_bind, run_forM, Outcome.bind_done, run_forM]
  · intro name hn
    obtain ⟨v, hv, hne⟩ := hw.numbers name hn
    simp only [World.requireInt, hv, if_neg hne]
  · intro name hn
    obtain ⟨v, hv⟩ := hw.required name hn
    simp only [World.require, hv]

/-- The checks end the program if something is missing. -/
theorem confChecks_halted (hw : ¬ w.Complete) : ∃ e, confChecks.run w = .halted e w := by
  have hstate := (keeps_confChecks w).state rfl
  cases hr : confChecks.run w with
  | halted e t =>
    rw [hr] at hstate
    exact ⟨e, congrArg (Outcome.halted e) hstate⟩
  | done a t =>
    obtain ⟨_, u, hu, ht⟩ := done_of_bind hr
    obtain ⟨rfl, hrequired⟩ := forM_done (fun _ _ _ _ => require_same) hu
    obtain ⟨-, hnumbers⟩ := forM_done (fun _ _ _ _ => requireInt_same) ht
    exact (hw ⟨fun name hn => exists_of_require (hrequired name hn),
      fun name hn => exists_of_requireInt (hnumbers name hn)⟩).elim

theorem selects_iff {sd : CStr} (hsd : w.conffileParam (cstr "serverdefs") = some sd) :
    w.Selects lib sec ↔ ∃ w', w.serverSection lib sd = .ok (sec, w') := by
  unfold World.serverSection
  constructor
  · rintro ⟨sd', server, a, s, hsd', hserver, ha, hget⟩
    obtain rfl := Option.some.inj (hsd.symm.trans hsd')
    refine ⟨{ w with staticSection := s }, ?_⟩
    rw [ha]
    simp only [hserver, hget]
  · rintro ⟨w', h⟩
    split at h
    · cases h
    · cases h
    · next a s ha =>
      split at h
      · cases h
      · next server hserver =>
        split at h
        · cases h
        · next sec' hget =>
          cases h
          exact ⟨sd, server, a, s, hsd, hserver, ha, hget⟩

/-- What `server_check` stores of a complete configuration. -/
theorem stored_serverCheck (hs : s.CountFits) (hw : s.world.Complete) :
    s.Stored ((Ledger.serverCheck lib).run s).state
      (∀ sec, s.world.Selects lib sec →
        s.world.conf.param.length + (if sec.order = none then 1 else 2) ≤ paramSize) := by
  obtain ⟨sd, hsd⟩ := hw.required (cstr "serverdefs") (by decide)
  unfold Ledger.serverCheck
  rw [run_zoom_same (run_attempt_ok (show s.world.derefParam (cstr "serverdefs") =
    .ok (sd, s.world) by rw [World.derefParam, hsd]))]
  cases hsec : s.world.serverSection lib sd with
  | error e =>
    have hrun : (attempt (World.serverSection lib sd)).run (toWorld.get s) = .halted e s.world :=
      run_attempt_error hsec
    rw [run_bind, run_zoom, hrun]
    refine .of_true (fun sec h => ?_) s
    obtain ⟨w', hw'⟩ := (selects_iff hsd).mp h
    rw [hsec] at hw'
    cases hw'
  | ok r =>
    obtain ⟨sec, w'⟩ := r
    have hparam : w'.conf.param = s.world.conf.param :=
      congrArg Conf.param (serverSection_conf hsec)
    rw [run_zoom_bind (run_attempt_ok hsec)]
    have ht := stored_literals (s := toWorld.set s w') (o := sec.order) (m := sec.pattern)
      (p := do
        attempt (World.oneOf (cstr "order") (cstr "username,address") (cstr "address,username"))
        attempt (World.oneOf (cstr "authtype") (cstr "db") (cstr "text")))
      (by unfold Ledger.CountFits; exact (congrArg List.length hparam).trans_le hs)
    refine ⟨ht.stores.trans (and_congr_right' ?_), ht.reads, ht.checks⟩
    rw [show (toWorld.set s w').world.conf.param = _ from hparam]
    constructor
    · intro h sec' hsec'
      obtain ⟨w'', hw''⟩ := (selects_iff hsd).mp hsec'
      rw [hsec] at hw''
      cases hw''
      exact h
    · exact fun h => h sec ((selects_iff hsd).mpr ⟨w', hsec⟩)

/-! ### The stores of all calls -/

/-- All stores so far were in range if and only if there was room at every call. -/
def Ledger.Tallied (lib : RegexLib) (s : Ledger) : Prop :=
  s.CountFits ∧ (s.StoresFit ↔ s.RoomAtCalls lib)

theorem tallied_noteRead {c : Prop} (hs : s.Tallied lib) (h : s.noteRead.Stored t c)
    (hc : c ↔ s.world.FileFits lib) : t.StoresFit ↔ t.RoomAtCalls lib := by
  rw [h.stores, hc, show s.noteRead.StoresFit ↔ _ from hs.2]
  constructor
  · rintro ⟨hroom, hw⟩
    refine ⟨?_, by rw [h.checks]; exact hroom.checks⟩
    rw [h.reads]
    exact List.forall_mem_append.mpr ⟨hroom.reads, List.forall_mem_singleton.mpr hw⟩
  · rintro ⟨hreads, hchecks⟩
    rw [h.reads] at hreads
    rw [h.checks] at hchecks
    obtain ⟨hold, hw⟩ := List.forall_mem_append.mp hreads
    exact ⟨⟨hold, hchecks⟩, List.forall_mem_singleton.mp hw⟩

theorem tallied_noteCheck {c : Prop} (hs : s.Tallied lib) (h : s.noteCheck.Stored t c)
    (hc : c ↔ s.world.ServerFits lib) : t.StoresFit ↔ t.RoomAtCalls lib := by
  rw [h.stores, hc, show s.noteCheck.StoresFit ↔ _ from hs.2]
  constructor
  · rintro ⟨hroom, hw⟩
    refine ⟨by rw [h.reads]; exact hroom.reads, ?_⟩
    rw [h.checks]
    exact List.forall_mem_append.mpr ⟨hroom.checks, List.forall_mem_singleton.mpr hw⟩
  · rintro ⟨hreads, hchecks⟩
    rw [h.reads] at hreads
    rw [h.checks] at hchecks
    obtain ⟨hold, hw⟩ := List.forall_mem_append.mp hchecks
    exact ⟨⟨hreads, hold⟩, List.forall_mem_singleton.mp hw⟩

theorem leaves_tallied_read : Leaves (Tallied lib) (Tallied lib) (Ledger.conffileRead lib) := by
  intro s hs
  refine Outcome.left_self ⟨keeps_count_read.state hs.1, ?_⟩
  unfold Ledger.conffileRead
  rw [run_bind, run_modify, Outcome.bind_done, run_bind, run_read, Outcome.bind_done]
  cases htext : s.world.fs.contents s.world.conf.filename with
  | none =>
    rw [show s.noteRead.world.fs.contents s.noteRead.world.conf.filename = none from htext]
    refine tallied_noteRead hs (.of_true trivial _) (iff_of_true trivial fun text h => ?_)
    rw [htext] at h
    cases h
  | some text =>
    rw [show s.noteRead.world.fs.contents s.noteRead.world.conf.filename = some text from htext]
    refine tallied_noteRead hs (stored_lines hs.1) ⟨fun h text' h' => ?_, fun h => h text htext⟩
    rw [htext] at h'
    cases h'
    exact h

theorem leaves_tallied_check : Leaves (Tallied lib) (Tallied lib) (Ledger.conffileCheck lib) := by
  intro s hs
  refine Outcome.left_self ⟨keeps_count_check.state hs.1, ?_⟩
  unfold Ledger.conffileCheck
  rw [run_bind, run_modify, Outcome.bind_done]
  by_cases hw : s.world.Complete
  · rw [run_zoom_same (run_confChecks (show (toWorld.get s.noteCheck).Complete from hw))]
    refine tallied_noteCheck hs (stored_serverCheck hs.1 hw) ?_
    exact ⟨fun h _ => h, fun h => h hw⟩
  · obtain ⟨e, he⟩ := confChecks_halted (w := toWorld.get s.noteCheck) hw
    rw [run_bind, run_zoom, he]
    exact tallied_noteCheck hs (.of_true trivial _) (iff_of_true trivial fun h => absurd h hw)

/-- `conffile_free` stores nothing. -/
theorem leaves_tallied_free :
    Leaves (Tallied lib) (Tallied lib) (Ledger.conffileFree onLiteral) := by
  intro s hs
  refine Outcome.left_self ⟨keeps_count_free.state hs.1, ?_⟩
  have hfree : ∀ (t : Ledger) (o : Option Pointer), (t.freeAt o).stores = t.stores ∧
      (t.freeAt o).reads = t.reads ∧ (t.freeAt o).checks = t.checks := by
    intro t o
    rcases o with _ | _ | _ <;> exact ⟨rfl, rfl, rfl⟩
  have hkeeps : Keeps (fun t => t.stores = s.stores ∧ t.reads = s.reads ∧ t.checks = s.checks)
      (Ledger.conffileFree onLiteral) := by
    refine Keeps.bind (keeps_act fun _ h => h) fun _ => (keeps_read _).bind fun n => ?_
    refine Keeps.bind (keeps_loop (fun i _ => ?_) _ _ _) fun _ => keeps_act fun _ h => h
    refine Keeps.bind (keeps_act fun t h => ?_) fun _ => ?_
    · simpa only [hfree] using h
    refine Keeps.bind (keeps_zoom (fun _ _ h => h) _) fun _ => keeps_act fun t h => ?_
    simpa only [hfree] using h
  obtain ⟨hstores, hreads, hchecks⟩ := hkeeps.state ⟨rfl, rfl, rfl⟩
  have h := hs.2
  constructor
  · intro hfit
    have hroom := h.mp (by unfold StoresFit at hfit; rwa [hstores] at hfit)
    exact ⟨by rw [hreads]; exact hroom.reads, by rw [hchecks]; exact hroom.checks⟩
  · intro hroom
    have hr := hroom.reads
    have hc := hroom.checks
    rw [hreads] at hr
    rw [hchecks] at hc
    unfold StoresFit
    rw [hstores]
    exact h.mpr ⟨hr, hc⟩

theorem leaves_tallied_call (c : ConfCall) :
    Leaves (Tallied lib) (Tallied lib) (Ledger.call onLiteral lib c) := by
  cases c with
  | files fs =>
    intro s hs
    have hroom : s.RoomAtCalls lib ↔
        ((Ledger.call onLiteral lib (.files fs)).run s).state.RoomAtCalls lib :=
      ⟨fun h => ⟨h.reads, h.checks⟩, fun h => ⟨h.reads, h.checks⟩⟩
    exact ⟨hs.1, hs.2.trans hroom⟩
  | read => exact leaves_tallied_read
  | check => exact leaves_tallied_check
  | reload =>
    refine leaves_tallied_free.bind fun _ => ?_
    exact leaves_tallied_read.bind fun _ => leaves_tallied_check

/-- In any sequence of calls, from an empty table on and with any files, the stores are in
range if and only if the file fits the table at each `conffile_read` and the parameters of the
server fit it at each `conffile_check`. -/
theorem inRange_iff (lib : RegexLib) (onLiteral : Except Halt Unit) (w : World)
    (cs : List ConfCall) : InRange onLiteral lib cs (Ledger.start w) ↔
      RoomAtCalls lib ((calls onLiteral lib cs).run (Ledger.start w)).state := by
  have hstart : (Ledger.start w).Tallied lib :=
    ⟨Nat.zero_le _, iff_of_true (List.forall_mem_nil _)
      ⟨List.forall_mem_nil _, List.forall_mem_nil _⟩⟩
  have hleaves : Leaves (Tallied lib) (Tallied lib) (calls onLiteral lib cs) :=
    leaves_forM leaves_tallied_call
  have hend := (hleaves _ hstart).state fun _ h => h
  have hkeeps : Keeps Ledger.CountFits (calls onLiteral lib cs) := keeps_forM keeps_count_call
  constructor
  · intro h
    exact hend.2.mp h.stores
  · intro h
    exact ⟨hend.2.mpr h, hkeeps.trace hstart.1⟩

/-- All the parameters of the shipped exact.conf, with short values. -/
def shippedConfig : Config where
  conf := cstr "user u\ngroup g\npidfile p\nmaillog m\nserverdefs d\nserver s\n" ++
    cstr "authtype text\nauthfile a\nauthtemp t\ndumpfile u\ntimeout 60\nflush 9\n" ++
    cstr "suspicious 9\nlogging syslog\nlogfile l\n"
  serverdefs := cstr "d"
  defs := cstr "<server s>\norder username,address\nmatch x\n</server>\n"

/-- Fifteen parameters fit, but the second of the server is stored behind the array. -/
theorem overflows_shipped :
    ¬ InRange (.ok ()) RegexLib.posix [.read, .check]
      (Ledger.start ((World.fresh (cstr "c")).install shippedConfig)) := by
  intro h
  have hmem : paramSize ∈ ((calls (.ok ()) RegexLib.posix [.read, .check]).run
      (Ledger.start ((World.fresh (cstr "c")).install shippedConfig))).state.stores := by
    decide +kernel
  exact absurd (h.stores paramSize hmem) (lt_irrefl _)

end ExactDaemon
