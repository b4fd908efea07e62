import ExactDaemon.Conf.Overflow

/-! # What conffile_free frees

The names that `conffile_read` stores come from `malloc`, those that `server_check` stores are
string literals, and `conffile_free` frees them all. Each pointer that it frees is that of a
live block exactly if no call finds a parameter of `server_check` in the table.
-/

namespace ExactDaemon

open Prog

namespace Pointer

def blocks : Pointer → List ℕ
  | block i => [i]
  | literal => []

/-- The block it points to has not been freed. -/
def Live (live : List ℕ) (p : Pointer) : Prop := ∀ i ∈ p.blocks, i ∈ live

end Pointer

/-- The blocks that the entries of a table point to. -/
def blocksOf (t : List (Pointer × Pointer)) : List ℕ := t.flatMap fun e => e.1.blocks ++ e.2.blocks

/-- The pointers of a parameter: its name is a literal or a block, its value is a block. -/
structure Param.Pointed (p : Param) (e : Pointer × Pointer) : Prop where
  name : p.literal = true ↔ e.1 = .literal
  value : ∃ b, e.2 = .block b

namespace Ledger

/-- The live blocks are those of the table, each of them once. -/
structure Owned (s : Ledger) : Prop where
  live : s.live = blocksOf s.table
  nodup : s.live.Nodup
  fresh : ∀ b ∈ s.live, b < s.next
  pointed : s.world.conf.param.Forall₂ Param.Pointed s.table

/-- Whatever was passed to `free` was a live block. -/
def FreesLive (s : Ledger) : Prop := ∀ x ∈ s.frees, x = true

/-- No parameter of `server_check` was in the table when `conffile_free` was called. -/
def NoLiteralFreed (s : Ledger) : Prop :=
  ∀ w ∈ s.reloads, ∀ p ∈ w.conf.param, p.literal = false

/-- Every entry of the table refers to live blocks only. -/
def Sound (s : Ledger) : Prop := ∀ e ∈ s.table, e.1.Live s.live ∧ e.2.Live s.live

/-- The calls from `s` on free only live blocks, and neither they nor a `conffile_free` after
them leave a freed block in the table. -/
structure Disposes (onLiteral : Except Halt Unit) (lib : RegexLib) (cs : List ConfCall)
    (s : Ledger) : Prop where
  frees : ((calls onLiteral lib cs).run s).state.FreesLive
  sound : ∀ t, (calls onLiteral lib cs).run s = .done () t → t.Sound
  freed : ∀ t u, (calls onLiteral lib cs).run s = .done () t →
    (conffileFree onLiteral).run t = .done () u → u.Sound

end Ledger

/-- A call that leaves the parameters of `server_check` in the table when it returns. -/
def ConfCall.checks : ConfCall → Bool
  | check | reload => true
  | files _ | read => false

/-- Whenever `conffile_reload` is called, none of the calls before it has stored `order` and
`match` in the table. -/
def ReloadsUnchecked (onLiteral : Except Halt Unit) (lib : RegexLib) (w : World)
    (cs : List ConfCall) : Prop :=
  ∀ before after u, cs = before ++ .reload :: after →
    (confCalls onLiteral lib before).run (w.withParam []) = .done () u →
      ∀ c ∈ before, c.checks = false

open Ledger

variable {lib : RegexLib} {onLiteral : Except Halt Unit} {s t : Ledger} {w : World} {n i : ℕ}
  {f : Reader} {name : CStr} {v : Option CStr} {p : Param} {e : Pointer × Pointer}
  {l : List (Pointer × Pointer)}

/-! ### The table is filled -/

theorem Ledger.Owned.sound (h : s.Owned) : s.Sound := by
  intro e he
  rw [h.live]
  constructor
  · exact fun i hi => List.mem_flatMap.mpr ⟨e, he, List.mem_append_left _ hi⟩
  · exact fun i hi => List.mem_flatMap.mpr ⟨e, he, List.mem_append_right _ hi⟩

/-- A change of the state that leaves the parameters alone. -/
theorem Ledger.Owned.of_param (h : s.Owned) {w : World}
    (hw : w.conf.param = s.world.conf.param) : Ledger.Owned { s with world := w } :=
  ⟨h.live, h.nodup, h.fresh, hw ▸ h.pointed⟩

theorem Ledger.Owned.enterBlock (h : s.Owned) (hp : p.literal = false) :
    (s.enterBlock.push p).Owned where
  live := by
    change s.live ++ _ = blocksOf (s.table ++ _)
    rw [blocksOf, List.flatMap_append, h.live]
    rfl
  nodup := by
    have hnew : [s.next, s.next + 1].Nodup := by simp
    refine List.Nodup.append h.nodup hnew fun b hb hb' => ?_
    have hlt := h.fresh b hb
    rcases List.mem_pair.mp hb' with rfl | rfl <;> omega
  fresh := by
    intro b hb
    change b < s.next + 2
    rcases List.mem_append.mp hb with hb | hb
    · have hlt := h.fresh b hb
      omega
    · rcases List.mem_pair.mp hb with rfl | rfl <;> omega
  pointed := List.rel_append h.pointed (.cons ⟨by simp [hp], _, rfl⟩ .nil)

theorem Ledger.Owned.enterLiteral (h : s.Owned) (hp : p.literal = true) :
    (s.enterLiteral.push p).Owned where
  live := by
    change s.live ++ _ = blocksOf (s.table ++ _)
    rw [blocksOf, List.flatMap_append, h.live]
    rfl
  nodup := by
    refine List.Nodup.append h.nodup (List.nodup_singleton _) fun b hb hb' => ?_
    have hlt := h.fresh b hb
    obtain rfl := List.mem_singleton.mp hb'
    omega
  fresh := by
    intro b hb
    change b < s.next + 1
    rcases List.mem_append.mp hb with hb | hb
    · have hlt := h.fresh b hb
      omega
    · obtain rfl := List.mem_singleton.mp hb
      omega
  pointed := List.rel_append h.pointed (.cons ⟨by simp [hp], _, rfl⟩ .nil)

theorem leaves_owned_lines (n : ℕ) (f : Reader) :
    Leaves Owned (fun _ => True) (Ledger.conffileLines lib n f) := by
  intro s hs
  induction n, f using entries_induction lib generalizing s with
  | zero f => trivial
  | done n f hf =>
    rw [ledger_lines_none hf]
    exact hs
  | error n f l f' e hf hl =>
    rw [ledger_lines_some hf, run_bind, run_readLine_error hl]
    trivial
  | skip n f l f' hf hl ih =>
    rw [ledger_lines_some hf, run_bind, run_readLine_skip hl]
    exact ih s hs
  | cons n f l f' p hf hl ih =>
    rw [ledger_lines_some hf, run_bind]
    rcases Nat.lt_or_ge s.world.conf.param.length paramSize with hlt | hfull
    · rw [run_readLine_store hl hlt]
      exact ih _ (hs.enterBlock (lineParam_literal hl))
    · rw [run_readLine_full hl hfull]
      trivial

theorem leaves_owned_read : Leaves Owned (fun _ => True) (Ledger.conffileRead lib) := by
  intro s hs
  have hs' : s.noteRead.Owned := ⟨hs.live, hs.nodup, hs.fresh, hs.pointed⟩
  unfold Ledger.conffileRead
  rw [run_bind, run_modify, Outcome.bind_done, run_bind, run_read, Outcome.bind_done]
  cases s.noteRead.world.fs.contents s.noteRead.world.conf.filename with
  | none => trivial
  | some text => exact leaves_owned_lines _ _ _ hs'

theorem leaves_owned_addLiteral : Leaves Owned (fun _ => True) (Ledger.addLiteral name v) := by
  intro s hs
  cases v with
  | none =>
    rw [run_addLiteral_none]
    trivial
  | some v =>
    rcases Nat.lt_or_ge s.world.conf.param.length paramSize with hlt | hfull
    · rw [run_addLiteral_store hlt]
      exact hs.enterLiteral rfl
    · rw [run_addLiteral_full hfull]
      trivial

/-- What does not touch the parameters. -/
theorem leaves_owned_zoom {α : Type} {q : Prog World α}
    (hq : ∀ w a w', q.run w = .done a w' → w'.conf.param = w.conf.param) :
    Leaves Owned (fun _ => True) (zoom toWorld q) := by
  intro s hs
  rw [run_zoom]
  cases hr : q.run (toWorld.get s) with
  | halted e w => trivial
  | done a w => exact hs.of_param (hq _ _ _ hr)

theorem leaves_owned_check : Leaves Owned (fun _ => True) (Ledger.conffileCheck lib) := by
  intro s hs
  have hs' : s.noteCheck.Owned := ⟨hs.live, hs.nodup, hs.fresh, hs.pointed⟩
  have hlookup : ∀ {α : Type} {g : World → Except Halt (α × World)},
      (∀ w a w', g w = .ok (a, w') → w' = w) →
      Leaves Owned (fun _ => True) (zoom toWorld (attempt g)) := fun hg =>
    leaves_owned_zoom fun w a w' hr => by rw [hg w a w' (attempt_done hr)]
  unfold Ledger.conffileCheck
  rw [run_bind, run_modify, Outcome.bind_done]
  refine Leaves.bind ?_ (fun _ => ?_) _ hs'
  · exact leaves_owned_zoom fun w _ w' hr => by
      rw [(keeps_confChecks w).run_done rfl hr]
  refine (hlookup fun _ _ _ => derefParam_same).bind fun sd => ?_
  refine Leaves.bind ?_ fun sec => ?_
  · exact leaves_owned_zoom fun w a w' hr => congrArg Conf.param
      (serverSection_conf (attempt_done hr))
  refine leaves_owned_addLiteral.bind fun _ => leaves_owned_addLiteral.bind fun _ => ?_
  rw [zoom_bind]
  exact (hlookup fun _ _ _ => oneOf_same).bind fun _ => hlookup fun _ _ _ => oneOf_same

/-! ### Nothing is freed meanwhile -/

/-- Nothing was freed, and nothing was about to be freed, between two states. -/
def Ledger.Unfreed (s t : Ledger) : Prop := t.frees = s.frees ∧ t.reloads = s.reloads

theorem keeps_unfreed_zoom {α : Type} (q : Prog World α) : Keeps s.Unfreed (zoom toWorld q) :=
  keeps_zoom (fun _ _ h => h) q

theorem keeps_unfreed_lines (n : ℕ) (f : Reader) :
    Keeps s.Unfreed (Ledger.conffileLines lib n f) := by
  induction n generalizing f with
  | zero => exact keeps_halt _
  | succ n ih =>
    unfold Ledger.conffileLines
    split
    · exact keeps_pure _
    · refine Keeps.bind ?_ fun _ => ih _
      refine Keeps.bind (keeps_act fun t ht => ?_) fun _ => keeps_unfreed_zoom _
      dsimp only
      split <;> exact ht

theorem keeps_unfreed_read : Keeps s.Unfreed (Ledger.conffileRead lib) := by
  refine Keeps.bind (keeps_act fun _ h => h) fun _ => (keeps_read _).bind fun text => ?_
  cases text with
  | none => exact keeps_halt _
  | some text => exact keeps_unfreed_lines _ _

theorem keeps_unfreed_check : Keeps s.Unfreed (Ledger.conffileCheck lib) := by
  have hlit : ∀ name v, Keeps s.Unfreed (Ledger.addLiteral name v) := fun name v =>
    Keeps.bind (keeps_act fun _ h => h) fun _ => keeps_unfreed_zoom _
  refine Keeps.bind (keeps_act fun _ h => h) fun _ => (keeps_unfreed_zoom _).bind fun _ => ?_
  refine (keeps_unfreed_zoom _).bind fun sd => (keeps_unfreed_zoom _).bind fun sec => ?_
  exact (hlit _ _).bind fun _ => (hlit _ _).bind fun _ => keeps_unfreed_zoom _

/-! ### The table is freed -/

theorem blocksOf_cons : blocksOf (e :: l) = e.1.blocks ++ (e.2.blocks ++ blocksOf l) := by
  rw [blocksOf, List.flatMap_cons, List.append_assoc]
  rfl

/-- The blocks from the entry `i` on are still to be freed. The frees so far were all of live
blocks if and only if the entries before it have names of their own. -/
structure Ledger.Freeing (s : Ledger) (i : ℕ) (t : Ledger) : Prop where
  world : t.world = s.world
  table : t.table = s.table
  reloads : t.reloads = s.reloads
  live : t.live = blocksOf (s.table.drop i)
  frees : t.FreesLive ↔ s.FreesLive ∧ ∀ p ∈ s.world.conf.param.take i, p.literal = false
  le : i ≤ s.world.conf.param.length

/-- The whole table was freed, or a part of it with a literal. -/
structure Ledger.Disposed (s t : Ledger) : Prop where
  reloads : t.reloads = s.reloads
  frees : t.FreesLive ↔ s.FreesLive ∧ ∀ p ∈ s.world.conf.param, p.literal = false

theorem freesLive_concat {l : List Bool} {b : Bool} :
    (∀ x ∈ l ++ [b], x = true) ↔ (∀ x ∈ l, x = true) ∧ b = true := by
  rw [List.forall_mem_append, List.forall_mem_singleton]

/-- The first of the live blocks is freed. -/
theorem free_block {b : ℕ} {l : List ℕ} (hl : s.live = b :: l) (hnd : (b :: l).Nodup) :
    (s.free (.block b)).live = l ∧ ((s.free (.block b)).FreesLive ↔ s.FreesLive) := by
  constructor
  · change s.live.filter (· ≠ b) = l
    rw [hl, List.filter_cons_of_neg (by simp), List.filter_eq_self]
    intro x hx
    simpa using fun he : x = b => (List.nodup_cons.mp hnd).1 (he ▸ hx)
  · refine freesLive_concat.trans (and_iff_left ?_)
    rw [hl]
    simp

theorem table_freeAt (t : Ledger) (o : Option Pointer) : (t.freeAt o).table = t.table := by
  rcases o with _ | _ | _ <;> rfl

theorem run_freeEntry_ok (h : t.world.freeName onLiteral i = .ok ((), t.world)) :
    (freeEntry onLiteral i).run t = .done () ((t.freeAt (t.table[i]?.map Prod.fst)).freeAt
      (t.table[i]?.map Prod.snd)) := by
  have hname : (attempt (World.freeName onLiteral i)).run
      (toWorld.get (t.freeAt (t.table[i]?.map Prod.fst))) =
      .done () (toWorld.get (t.freeAt (t.table[i]?.map Prod.fst))) := by
    change (attempt (World.freeName onLiteral i)).run (t.freeAt _).world =
      .done () (t.freeAt _).world
    rw [world_freeAt]
    exact run_attempt_ok h
  unfold freeEntry
  rw [run_bind, run_modify, Outcome.bind_done, run_zoom_same hname, run_modify, table_freeAt]

theorem run_freeEntry_error {e : Halt} (h : t.world.freeName onLiteral i = .error e) :
    (freeEntry onLiteral i).run t = .halted e (t.freeAt (t.table[i]?.map Prod.fst)) := by
  have hname : (attempt (World.freeName onLiteral i)).run
      (toWorld.get (t.freeAt (t.table[i]?.map Prod.fst))) =
      .halted e (toWorld.get (t.freeAt (t.table[i]?.map Prod.fst))) := by
    change (attempt (World.freeName onLiteral i)).run (t.freeAt _).world =
      .halted e (t.freeAt _).world
    rw [world_freeAt]
    exact run_attempt_error h
  unfold freeEntry
  rw [run_bind, run_modify, Outcome.bind_done, run_bind, run_zoom, hname]
  exact congrArg (Outcome.halted e) (toWorld.set_get _)

/-- One entry is freed. -/
theorem left_freeEntry (hs : s.Owned) (ht : s.Freeing i t) (hi : i < s.world.conf.param.length) :
    ((freeEntry onLiteral i).run t).Left (s.Freeing (i + 1)) s.Disposed := by
  have hit : i < s.table.length := by rwa [← hs.pointed.length_eq]
  have hpe : (s.world.conf.param[i]).Pointed s.table[i] := List.Forall₂.get hs.pointed hi hit
  obtain ⟨b, hb⟩ := hpe.value
  have hentry : t.table[i]? = some s.table[i] := by
    rw [ht.table]
    exact List.getElem?_eq_getElem hit
  have hlive : t.live = s.table[i].1.blocks ++ (b :: blocksOf (s.table.drop (i + 1))) := by
    rw [ht.live, List.drop_eq_getElem_cons hit, blocksOf_cons, hb]
    rfl
  have hnd : t.live.Nodup := by
    have hsplit : s.live = blocksOf (s.table.take i) ++ t.live := by
      rw [hs.live, ht.live, blocksOf, blocksOf, blocksOf, ← List.flatMap_append,
        List.take_append_drop]
    exact (List.nodup_append.mp (hsplit ▸ hs.nodup)).2.1
  have htake : (∀ p ∈ s.world.conf.param.take (i + 1), p.literal = false) ↔
      (∀ p ∈ s.world.conf.param.take i, p.literal = false) ∧
        (s.world.conf.param[i]).literal = false := by
    rw [← List.take_append_getElem hi, List.forall_mem_append, List.forall_mem_singleton]
  have hname : t.world.freeName onLiteral i =
      if (s.world.conf.param[i]).literal then onLiteral.map (·, t.world)
      else .ok ((), t.world) := by
    rw [World.freeName, ht.world, List.getElem?_eq_getElem hi]
  cases h₁ : s.table[i].1 with
  | block a =>
    have hlit : (s.world.conf.param[i]).literal = false := by
      rw [← Bool.not_eq_true, hpe.name, h₁]
      exact Pointer.noConfusion
    rw [hlit] at hname
    rw [h₁] at hlive
    have hcons : t.live = a :: b :: blocksOf (s.table.drop (i + 1)) := hlive
    rw [hcons] at hnd
    rw [run_freeEntry_ok hname, hentry]
    simp only [Option.map_some, h₁, hb, freeAt]
    obtain ⟨hl₁, hf₁⟩ := free_block hcons hnd
    obtain ⟨hl₂, hf₂⟩ := free_block hl₁ (List.nodup_cons.mp hnd).2
    refine ⟨?_, ?_, ?_, hl₂, ?_, hi⟩
    · exact ht.world
    · exact ht.table
    · exact ht.reloads
    · rw [hf₂, hf₁, ht.frees, htake, hlit]
      simp
  | literal =>
    have hlit : (s.world.conf.param[i]).literal = true := hpe.name.mpr h₁
    rw [hlit] at hname
    rw [h₁] at hlive
    have hbad : ¬ (t.free .literal).FreesLive := fun h =>
      Bool.false_ne_true ((freesLive_concat.mp h).2)
    cases onLiteral with
    | error e =>
      rw [run_freeEntry_error hname, hentry]
      simp only [Option.map_some, h₁, freeAt]
      refine ⟨ht.reloads, iff_of_false hbad fun h => ?_⟩
      exact Bool.false_ne_true ((h.2 _ (List.getElem_mem hi)).symm.trans hlit)
    | ok u =>
      rw [run_freeEntry_ok hname, hentry]
      simp only [Option.map_some, h₁, hb, freeAt]
      have hcons : t.live = b :: blocksOf (s.table.drop (i + 1)) := hlive
      rw [hcons] at hnd
      obtain ⟨hl₂, hf₂⟩ := free_block (s := t.free .literal) hcons hnd
      refine ⟨ht.world, ht.table, ht.reloads, hl₂, ?_, hi⟩
      rw [hf₂, htake, hlit]
      exact iff_of_false hbad fun h => Bool.false_ne_true h.2.2.symm

theorem Ledger.Owned.freeing_zero (hs : s.Owned) : s.Freeing 0 s :=
  ⟨rfl, rfl, rfl, hs.live, (and_iff_left (List.forall_mem_nil _)).symm, Nat.zero_le _⟩

/-- The loop of `conffile_free`, which rounds are enough for. -/
theorem left_freeLoop (onLiteral : Except Halt Unit) (hs : s.Owned) :
    ((loop (fun i (t : Ledger) => decide (i < t.world.conf.param.length))
      (fun i _ => freeEntry onLiteral i) (s.world.conf.param.length + 1) 0 ()).run s).Left
      (s.Freeing s.world.conf.param.length) s.Disposed := by
  have hloop : ((loop (fun i (t : Ledger) => decide (i < t.world.conf.param.length))
      (fun i _ => freeEntry onLiteral i) (s.world.conf.param.length + 1) 0 ()).run s).Left
      (fun t => ∃ j, decide (j < t.world.conf.param.length) = false ∧ s.Freeing j t)
      s.Disposed := by
    refine left_loop s.Freeing s.world.conf.param.length (fun i t h => h.le) (fun i t hc h => ?_)
      (by omega) hs.freeing_zero
    rw [decide_eq_true_eq, h.world] at hc
    exact left_freeEntry hs h hc
  refine hloop.mono fun t ht => ?_
  obtain ⟨j, hj, ht⟩ := ht
  rw [decide_eq_false_iff_not, ht.world, Nat.not_lt] at hj
  obtain rfl := Nat.le_antisymm ht.le hj
  exact ht

/-- `conffile_free` empties the table, and frees live blocks only if there is no literal. -/
theorem left_conffileFree (onLiteral : Except Halt Unit) (hs : s.Owned) :
    ((Ledger.conffileFree onLiteral).run s).Left
      (fun t => t.Owned ∧ t.table = [] ∧ s.noteReload.Disposed t) s.noteReload.Disposed := by
  have hs' : s.noteReload.Owned := ⟨hs.live, hs.nodup, hs.fresh, hs.pointed⟩
  have hloop := left_freeLoop onLiteral hs'
  unfold Ledger.conffileFree
  rw [run_bind, run_modify, Outcome.bind_done, run_bind, run_read, Outcome.bind_done, run_bind]
  cases hr : (loop (fun i (t : Ledger) => decide (i < t.world.conf.param.length))
      (fun i _ => freeEntry onLiteral i) (s.noteReload.world.conf.param.length + 1) 0 ()).run
      s.noteReload with
  | halted e t =>
    rw [hr] at hloop
    exact hloop
  | done u t =>
    rw [hr] at hloop
    have hlive : t.live = [] := by
      rw [hloop.live, List.drop_eq_nil_of_le hs'.pointed.length_eq.ge]
      rfl
    refine ⟨⟨hlive, ?_, ?_, .nil⟩, rfl, hloop.reloads, ?_⟩
    · exact hlive ▸ List.nodup_nil
    · intro b hb
      rw [show t.live = [] from hlive] at hb
      cases hb
    · refine hloop.frees.trans ?_
      rw [List.take_length]

/-! ### All calls -/

/-- The frees so far were all of live blocks if and only if no literal was to be freed. -/
def Ledger.Agreed (s : Ledger) : Prop := s.FreesLive ↔ s.NoLiteralFreed

theorem Ledger.Agreed.of_unfreed (h : s.Agreed) (ht : s.Unfreed t) : t.Agreed := by
  unfold Agreed FreesLive NoLiteralFreed
  rw [ht.1, ht.2]
  exact h

theorem Ledger.Agreed.of_disposed (h : s.Agreed) (ht : s.noteReload.Disposed t) : t.Agreed := by
  unfold Agreed NoLiteralFreed
  rw [ht.frees, ht.reloads, show s.noteReload.FreesLive ↔ _ from h]
  change _ ↔ ∀ w ∈ s.reloads ++ [s.world], _
  rw [List.forall_mem_append, List.forall_mem_singleton]
  rfl

/-- A call that frees nothing. -/
theorem leaves_of_unfreed {α : Type} {q : Prog Ledger α}
    (howned : Leaves Owned (fun _ => True) q) (hkeeps : ∀ s : Ledger, Keeps s.Unfreed q) :
    Leaves (fun s => s.Owned ∧ s.Agreed) Agreed q := by
  rintro s ⟨hs, ha⟩
  have ho := howned s hs
  have hu := (hkeeps s).state ⟨rfl, rfl⟩
  cases hr : q.run s with
  | done a t =>
    rw [hr] at ho hu
    exact ⟨ho, ha.of_unfreed hu⟩
  | halted e t =>
    rw [hr] at hu
    exact ha.of_unfreed hu

theorem leaves_free :
    Leaves (fun s => s.Owned ∧ s.Agreed) Agreed (Ledger.conffileFree onLiteral) := by
  rintro s ⟨hs, ha⟩
  have hfree := left_conffileFree onLiteral hs
  cases hr : (Ledger.conffileFree onLiteral).run s with
  | done a t =>
    rw [hr] at hfree
    exact ⟨hfree.1, ha.of_disposed hfree.2.2⟩
  | halted e t =>
    rw [hr] at hfree
    exact ha.of_disposed hfree

theorem leaves_call (c : ConfCall) :
    Leaves (fun s => s.Owned ∧ s.Agreed) Agreed (Ledger.call onLiteral lib c) := by
  have hread : Leaves (fun s => s.Owned ∧ s.Agreed) Agreed (Ledger.conffileRead lib) :=
    leaves_of_unfreed leaves_owned_read fun _ => keeps_unfreed_read
  have hcheck : Leaves (fun s => s.Owned ∧ s.Agreed) Agreed (Ledger.conffileCheck lib) :=
    leaves_of_unfreed leaves_owned_check fun _ => keeps_unfreed_check
  cases c with
  | files fs =>
    refine leaves_of_unfreed (leaves_owned_zoom fun w a w' hr => ?_) fun _ => keeps_unfreed_zoom _
    cases hr
    rfl
  | read => exact hread
  | check => exact hcheck
  | reload => exact leaves_free.bind fun _ => hread.bind fun _ => hcheck

/-! ### The order of the calls -/

/-- No parameter of `server_check` is in the table. -/
def World.Unchecked (w : World) : Prop := ∀ p ∈ w.conf.param, p.literal = false

theorem unchecked_of_read {u : World} (h : (ExactDaemon.conffileRead lib).run w = .done () u) :
    u.Unchecked ↔ w.Unchecked := by
  obtain ⟨text, htext, -⟩ := readLines_of_conffileRead h
  rw [conffileRead_of_file htext] at h
  obtain ⟨hnone, hroom⟩ := conffileLines_done h
  rw [run_conffileLines hnone hroom] at h
  cases h
  change (∀ p ∈ w.conf.param ++ _, p.literal = false) ↔ _
  rw [List.forall_mem_append]
  exact and_iff_left entries_literal

theorem checked_of_check {u : World} (h : (ExactDaemon.conffileCheck lib).run w = .done () u) :
    ¬ u.Unchecked := by
  rw [conffileCheck_eq] at h
  obtain ⟨_, w₁, -, hserver⟩ := done_of_bind h
  obtain ⟨sd, w₂, -, hsection⟩ := done_of_bind hserver
  obtain ⟨sec, w₃, -, horder⟩ := done_of_bind hsection
  obtain ⟨_, w₄, -, hmatch⟩ := done_of_bind horder
  obtain ⟨_, w₅, hw₅, hlast⟩ := done_of_bind hmatch
  obtain ⟨v, -, rfl⟩ := addLiteral_done (attempt_done hw₅)
  obtain ⟨_, w₆, hw₆, hone⟩ := done_of_bind hlast
  -- the last two checks only look
  obtain rfl := oneOf_same (attempt_done hw₆)
  obtain rfl := oneOf_same (attempt_done hone)
  intro hu
  exact Bool.false_ne_true
    (hu ⟨cstr "match", v, true⟩ (List.mem_append_right _ (List.mem_singleton_self _))).symm

/-- What a call that returns leaves in the table. -/
theorem unchecked_of_call {u : World} {c : ConfCall}
    (h : (c.call onLiteral lib).run w = .done () u) :
    u.Unchecked ↔ w.Unchecked ∧ c.checks = false := by
  cases c with
  | files fs =>
    cases h
    exact (and_iff_left rfl).symm
  | read => exact (unchecked_of_read h).trans (and_iff_left rfl).symm
  | check => exact iff_of_false (checked_of_check h) fun h => Bool.false_ne_true h.2.symm
  | reload =>
    obtain ⟨_, w₁, -, hrest⟩ := done_of_bind h
    obtain ⟨_, w₂, -, hcheck⟩ := done_of_bind hrest
    exact iff_of_false (checked_of_check hcheck) fun h => Bool.false_ne_true h.2.symm

theorem unchecked_of_calls {u : World} {cs : List ConfCall}
    (h : (confCalls onLiteral lib cs).run w = .done () u) :
    u.Unchecked ↔ w.Unchecked ∧ ∀ c ∈ cs, c.checks = false := by
  induction cs generalizing w with
  | nil =>
    cases h
    exact (and_iff_left (List.forall_mem_nil _)).symm
  | cons c cs ih =>
    obtain ⟨_, w₁, hw₁, hrest⟩ := done_of_bind h
    rw [ih hrest, unchecked_of_call hw₁, List.forall_mem_cons, and_assoc]

/-- `conffile_free` is called in one state. -/
theorem reloads_free (onLiteral : Except Halt Unit) (s : Ledger) :
    ((Ledger.conffileFree onLiteral).run s).state.reloads = s.reloads ++ [s.world] := by
  have hfree : ∀ (t : Ledger) (o : Option Pointer), (t.freeAt o).reloads = t.reloads := by
    intro t o
    rcases o with _ | _ | _ <;> rfl
  have hkeeps : Keeps (fun t : Ledger => t.reloads = s.reloads ++ [s.world]) (do
      let n ← read (·.world.conf.param.length + 1)
      loop (fun i s => i < s.world.conf.param.length) (fun i _ => freeEntry onLiteral i) n 0 ()
      modify fun s => { s with world := s.world.withParam [], table := [] }) := by
    refine (keeps_read _).bind fun n => ?_
    refine Keeps.bind (keeps_loop (fun i _ => ?_) _ _ _) fun _ => keeps_act fun _ h => h
    refine Keeps.bind (keeps_act fun t h => (hfree t _).trans h) fun _ => ?_
    exact Keeps.bind (keeps_zoom (fun _ _ h => h) _) fun _ =>
      keeps_act fun t h => (hfree t _).trans h
  exact hkeeps.state (s := s.noteReload) rfl

/-- A call of `conffile_reload` is one of `conffile_free`. -/
theorem mem_reloads_call (onLiteral : Except Halt Unit) (lib : RegexLib) (c : ConfCall)
    (s : Ledger) (w : World) : w ∈ ((Ledger.call onLiteral lib c).run s).state.reloads ↔
      w ∈ s.reloads ∨ c = .reload ∧ s.world = w := by
  have hunfreed : ∀ {q : Prog Ledger Unit} (t : Ledger), Keeps t.Unfreed q →
      (q.run t).state.reloads = t.reloads := fun t hq => (hq.state ⟨rfl, rfl⟩).2
  have hno : ∀ {c : ConfCall}, c ≠ .reload → (w ∈ s.reloads ↔
      w ∈ s.reloads ∨ c = .reload ∧ s.world = w) := fun hc =>
    (or_iff_left fun h => hc h.1).symm
  cases c with
  | files fs =>
    rw [show ((Ledger.call onLiteral lib (.files fs)).run s).state.reloads = s.reloads from rfl]
    exact hno ConfCall.noConfusion
  | read =>
    rw [show ((Ledger.call onLiteral lib .read).run s).state.reloads = s.reloads from
      hunfreed s keeps_unfreed_read]
    exact hno ConfCall.noConfusion
  | check =>
    rw [show ((Ledger.call onLiteral lib .check).run s).state.reloads = s.reloads from
      hunfreed s keeps_unfreed_check]
    exact hno ConfCall.noConfusion
  | reload =>
    have hreloads : ((Ledger.call onLiteral lib .reload).run s).state.reloads =
        s.reloads ++ [s.world] := by
      have hfree := reloads_free onLiteral s
      change ((Ledger.conffileFree onLiteral >>= fun _ =>
        Ledger.conffileRead lib >>= fun _ => Ledger.conffileCheck lib).run s).state.reloads = _
      rw [run_bind]
      cases hr : (Ledger.conffileFree onLiteral).run s with
      | halted e t =>
        rw [hr] at hfree
        exact hfree
      | done a t =>
        rw [hr] at hfree
        rw [Outcome.bind_done]
        exact (hunfreed t (keeps_unfreed_read.bind fun _ => keeps_unfreed_check)).trans hfree
    rw [hreloads, List.mem_append, List.mem_singleton]
    simp [eq_comm]

/-- Some `conffile_reload` of the sequence is called in `w`. -/
def FreesIn (onLiteral : Except Halt Unit) (lib : RegexLib) (cs : List ConfCall) (s : Ledger)
    (w : World) : Prop :=
  ∃ before after t, cs = before ++ .reload :: after ∧
    (calls onLiteral lib before).run s = .done () t ∧ t.world = w

theorem freesIn_cons {c : ConfCall} {cs : List ConfCall} :
    FreesIn onLiteral lib (c :: cs) s w ↔ (c = .reload ∧ s.world = w) ∨
      ∃ t, (Ledger.call onLiteral lib c).run s = .done () t ∧ FreesIn onLiteral lib cs t w := by
  constructor
  · rintro ⟨_ | ⟨c', before⟩, after, u, hcs, hu, hw⟩
    · obtain ⟨rfl, rfl⟩ := List.cons.inj hcs
      cases hu
      exact .inl ⟨rfl, hw⟩
    · obtain ⟨rfl, rfl⟩ := List.cons.inj hcs
      obtain ⟨_, t, ht, hrest⟩ := done_of_bind hu
      exact .inr ⟨t, ht, before, after, u, rfl, hrest, hw⟩
  · rintro (⟨rfl, rfl⟩ | ⟨t, ht, before, after, u, rfl, hu, hw⟩)
    · exact ⟨[], cs, s, rfl, rfl, rfl⟩
    · refine ⟨c :: before, after, u, rfl, ?_, hw⟩
      change (Ledger.call onLiteral lib c >>= fun _ => calls onLiteral lib before).run s = _
      rw [run_bind, ht]
      exact hu

theorem mem_reloads_calls {cs : List ConfCall} :
    w ∈ ((calls onLiteral lib cs).run s).state.reloads ↔
      w ∈ s.reloads ∨ FreesIn onLiteral lib cs s w := by
  induction cs generalizing s with
  | nil =>
    refine (or_iff_left ?_).symm
    rintro ⟨before, after, t, hcs, -⟩
    cases before <;> cases hcs
  | cons c cs ih =>
    rw [freesIn_cons, ← or_assoc, ← mem_reloads_call onLiteral lib c s w]
    change w ∈ ((Ledger.call onLiteral lib c >>= fun _ =>
      calls onLiteral lib cs).run s).state.reloads ↔ _
    rw [run_bind]
    cases hr : (Ledger.call onLiteral lib c).run s with
    | halted e t =>
      refine (or_iff_left ?_).symm
      rintro ⟨t', ht, -⟩
      cases ht
    | done a t =>
      rw [Outcome.bind_done, ih]
      refine or_congr_right ⟨fun h => ⟨t, rfl, h⟩, ?_⟩
      rintro ⟨t', ht, h⟩
      cases ht
      exact h

/-- At every `conffile_free` the table has no parameter of `server_check` if and only if no
call before it has stored one. -/
theorem noLiteralFreed_iff {cs : List ConfCall} :
    ((calls onLiteral lib cs).run (Ledger.start w)).state.NoLiteralFreed ↔
      ReloadsUnchecked onLiteral lib w cs := by
  have hbefore : ∀ before u, (confCalls onLiteral lib before).run (w.withParam []) = .done () u →
      (u.Unchecked ↔ ∀ c ∈ before, c.checks = false) := fun before u hu =>
    (unchecked_of_calls hu).trans (and_iff_right (List.forall_mem_nil _))
  have herase : ∀ before, ((calls onLiteral lib before).run (Ledger.start w)).mapState world =
      (confCalls onLiteral lib before).run (w.withParam []) := fun before =>
    erases_calls before (Ledger.start w)
  constructor
  · intro h before after u hcs hu
    have hrun := herase before
    rw [hu] at hrun
    obtain ⟨t, ht, rfl⟩ := Outcome.mapState_eq_done hrun
    exact (hbefore before t.world hu).mp
      (h t.world (mem_reloads_calls.mpr (.inr ⟨before, after, t, hcs, ht, rfl⟩)))
  · intro h v hv
    rcases mem_reloads_calls.mp hv with hv | ⟨before, after, t, hcs, ht, rfl⟩
    · cases hv
    · have hrun := herase before
      rw [ht] at hrun
      exact (hbefore before t.world hrun.symm).mpr (h before after t.world hcs hrun.symm)

/-- In any sequence of calls, from an empty table on and with any files, only live blocks are
freed, each of them once, if and only if whenever `conffile_reload` is called, no call before
it has stored parameters of `server_check`, which is to say that no `conffile_free` finds one
of them in the table. In any case no freed block is left in the table. -/
theorem disposes_iff (lib : RegexLib) (onLiteral : Except Halt Unit) (w : World)
    (cs : List ConfCall) :
    (Disposes onLiteral lib cs (Ledger.start w) ↔ ReloadsUnchecked onLiteral lib w cs) ∧
      (ReloadsUnchecked onLiteral lib w cs ↔
        ((calls onLiteral lib cs).run (Ledger.start w)).state.NoLiteralFreed) := by
  refine ⟨?_, noLiteralFreed_iff.symm⟩
  rw [← noLiteralFreed_iff]
  have hstart : (Ledger.start w).Owned ∧ (Ledger.start w).Agreed :=
    ⟨⟨rfl, List.nodup_nil, List.forall_mem_nil _, .nil⟩,
      iff_of_true (List.forall_mem_nil _) (List.forall_mem_nil _)⟩
  have hcalls : Leaves (fun s => s.Owned ∧ s.Agreed) Agreed (calls onLiteral lib cs) :=
    leaves_forM leaves_call
  have hend := hcalls _ hstart
  have hagreed := hend.state fun _ h => h.2
  constructor
  · intro h
    exact hagreed.mp h.frees
  · intro h
    have howned : ∀ t, (calls onLiteral lib cs).run (Ledger.start w) = .done () t → t.Owned := by
      intro t ht
      rw [ht] at hend
      exact hend.1
    refine ⟨hagreed.mpr h, fun t ht => (howned t ht).sound, fun t u ht hu => ?_⟩
    have hfree := left_conffileFree onLiteral (howned t ht)
    rw [hu] at hfree
    exact hfree.1.sound

/-- A configuration that fits the table. -/
def plainConfig : Config where
  conf := cstr "pidfile p\nmaillog m\nserverdefs d\nserver s\nauthtype text\nauthfile a\n" ++
    cstr "authtemp t\ndumpfile u\ntimeout 60\nflush 9\nsuspicious 9\nlogging syslog\n"
  serverdefs := cstr "d"
  defs := cstr "<server s>\norder username,address\nmatch x\n</server>\n"

/-- A configuration is read, checked and reloaded: the name `order` is freed. -/
theorem frees_literal :
    ¬ Disposes (.ok ()) RegexLib.posix [.read, .check, .reload]
      (Ledger.start ((World.fresh (cstr "c")).install plainConfig)) := by
  intro h
  have hmem : false ∈ ((calls (.ok ()) RegexLib.posix [.read, .check, .reload]).run
      (Ledger.start ((World.fresh (cstr "c")).install plainConfig))).state.frees := by
    decide +kernel
  exact Bool.false_ne_true (h.frees false hmem)

end ExactDaemon
