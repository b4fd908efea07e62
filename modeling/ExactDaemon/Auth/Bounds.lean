import ExactDaemon.Auth.Server
import ExactDaemon.Lib.Points

/-! # Inside the blocks

The text backend with a record of what it does to its two blocks: every growth, and every
store through `auth` and `shadow_auth`, each with the tables as they were just before. After
any history of adds and cleans, of any number of hosts of any length, all of it was done
inside the blocks.
-/

namespace ExactDaemon

open Prog

/-- What is done to the blocks of the tables. A pointer is a block and an index. -/
inductive Access where
  /-- The tables become these, with larger blocks if they were full. -/
  | grow (tb : Tables)
  /-- A store of `auth_text_add`. -/
  | add (p : ℕ × ℕ)
  /-- A store in round `i` of the loop of `auth_text_clean`. -/
  | copy (p : ℕ × ℕ) (i : ℕ)

/-- Growth keeps the entries in use, `auth_text_add` stores into `auth` below `auth_max`, and
`auth_text_clean` stores into `shadow_auth`, nowhere behind the entry of `auth` that it
copies. -/
def Access.Within (tb : Tables) : Access → Prop
  | grow tb' => tb'.authCur = tb.authCur ∧ tb'.table = tb.table
  | add p => p.1 = tb.auth ∧ p.2 < tb.authMax
  | copy p i => p.1 = tb.shadowAuth ∧ p.2 ≤ i ∧ i < tb.authCur

structure Watched where
  world : World
  accesses : List (Tables × Access)

namespace Watched

def toWorld : Lens Watched World where
  get := world
  set s w := { s with world := w }
  get_set _ _ := rfl
  set_get _ := rfl
  set_set _ _ _ := rfl

def noted (a : World → Access) (s : Watched) : Watched :=
  { s with accesses := s.accesses ++ [(s.world.tables, a s.world)] }

/-- Record what the next statement does. -/
def note (a : World → Access) : Prog Watched Unit := modify (noted a)

def authTextAdd (libc : Libc) (_username hostname : CStr) : Prog Watched Unit := do
  let e ← read fun s => s.world.tables.authPresent libc hostname
  match e with
  | some e => do
    note fun _ => .add e
    zoom toWorld (attempt fun w => w.store e fun x => { x with t := w.clock })
  | none => do
    note fun w => .grow w.tables.grow
    zoom toWorld (modify (·.onTables Tables.grow))
    note fun w => .add (w.tables.auth, w.tables.authCur)
    zoom toWorld (attempt fun w => w.store (w.tables.auth, w.tables.authCur) fun x =>
      { x with hostname := strncpy hostname matchLoginHostnameMax })
    note fun w => .add (w.tables.auth, w.tables.authCur)
    zoom toWorld (attempt fun w => w.store (w.tables.auth, w.tables.authCur) fun x =>
      { x with t := w.clock })
    zoom toWorld (do
      modify (·.onTables fun tb => { tb with authCur := tb.authCur + 1 })
      modify (·.onTables (Tables.qsort libc))
      authWriteText)

def cleanEntry (t max : ℤ) (i n : ℕ) : Prog Watched ℕ := do
  let e ← zoom toWorld (attempt fun w => (w.tables.load (w.tables.auth, i)).map (·, w))
  if t - e.t < max then
    note fun w => .copy (w.tables.shadowAuth, n) i
    zoom toWorld (attempt fun w => w.store (w.tables.shadowAuth, n) fun x =>
      { x with hostname := strncpy e.hostname matchLoginHostnameMax })
    note fun w => .copy (w.tables.shadowAuth, n) i
    zoom toWorld (attempt fun w => w.store (w.tables.shadowAuth, n) fun x => { x with t := e.t })
    pure (n + 1)
  else
    pure n

def authTextClean : Prog Watched Unit := do
  let t ← read (·.world.clock)
  let max ← zoom toWorld (attempt fun w =>
    (w.conffileParamInt (cstr "timeout")).map (·, w))
  let m ← read (·.world.tables.authCur + 1)
  let n ← loop (fun i s => i < s.world.tables.authCur) (cleanEntry t max) m 0 0
  zoom toWorld (do
    let tmp ← read fun w => w.tables.auth
    modify (·.onTables fun tb => { tb with auth := tb.shadowAuth })
    modify (·.onTables fun tb => { tb with shadowAuth := tmp })
    modify (·.onTables fun tb => { tb with authCur := n })
    authWriteText)

def call (libc : Libc) : AuthEvent → Prog Watched Unit
  | .add username hostname => authTextAdd libc username hostname
  | .clean => authTextClean

def history (libc : Libc) : List (ℤ × AuthEvent) → Prog Watched Unit
  | [] => pure ()
  | (t, e) :: es => do
    zoom toWorld (modify (·.atClock t))
    call libc e
    history libc es

def server (libc : Libc) (es : List (ℤ × AuthEvent)) : Prog Watched Unit := do
  zoom toWorld authInit
  history libc es

/-- Both blocks are exactly as large as `auth_max` says, no more entries are in use, and
everything so far was done inside them. -/
def InRange (s : Watched) : Prop :=
  s.world.tables.Sized ∧ ∀ a ∈ s.accesses, a.2.Within a.1

end Watched

open Watched

variable {libc : Libc} {w w' : World} {s : Watched} {tb tb' : Tables} {p : ℕ × ℕ}
  {g : AuthEntry → AuthEntry} {t max : ℤ} {username host : CStr}

/-! ### The record changes nothing -/

theorem erases_note {a : World → Access} {p : Unit → Prog Watched α} {q : Prog World α}
    (h : Erases world (p ()) q) : Erases world (note a >>= p) q :=
  Erases.skip (fun _ => rfl) h

theorem erases_cleanEntry (t max : ℤ) (i n : ℕ) :
    Erases world (Watched.cleanEntry t max i n) (ExactDaemon.cleanEntry t max i n) := by
  refine (erases_zoom (l := toWorld) _).bind fun e => ?_
  split
  · exact erases_note ((erases_zoom (l := toWorld) _).bind fun _ =>
      erases_note ((erases_zoom (l := toWorld) _).bind fun _ => erases_pure _))
  · exact erases_pure _

theorem erases_call (libc : Libc) (e : AuthEvent) :
    Erases world (Watched.call libc e) (e.call libc) := by
  cases e with
  | add username host =>
    refine Erases.bind (erases_read fun _ => rfl) fun e => ?_
    cases e with
    | some e => exact erases_note (erases_zoom (l := toWorld) _)
    | none =>
      refine erases_note ((erases_zoom (l := toWorld) _).bind fun _ => ?_)
      refine erases_note ((erases_zoom (l := toWorld) _).bind fun _ => ?_)
      exact erases_note ((erases_zoom (l := toWorld) _).bind fun _ => erases_zoom (l := toWorld) _)
  | clean =>
    refine Erases.bind (erases_read fun _ => rfl) fun t => ?_
    refine (erases_zoom (l := toWorld) _).bind fun max => ?_
    refine Erases.bind (erases_read fun _ => rfl) fun m => ?_
    refine Erases.bind ?_ fun n => erases_zoom (l := toWorld) _
    apply erases_loop _ (erases_cleanEntry t max)
    exact fun _ _ => rfl

theorem erases_history (libc : Libc) (es : List (ℤ × AuthEvent)) :
    Erases world (Watched.history libc es) (ExactDaemon.history libc es) := by
  induction es with
  | nil => exact erases_pure ()
  | cons e es ih =>
    exact (erases_zoom (l := toWorld) _).bind fun _ => (erases_call libc e.2).bind fun _ => ih

/-- Without the record, this is the text backend. -/
theorem erases_server (libc : Libc) (es : List (ℤ × AuthEvent)) :
    Erases world (Watched.server libc es) (ExactDaemon.server libc es) :=
  (erases_zoom (l := toWorld) _).bind fun _ => erases_history libc es

/-! ### What a store leaves -/

theorem Tables.store_eq_ok (h : tb.store p g = .ok tb') :
    ∃ e, (tb.mem p.1)[p.2]? = some e ∧ tb' = tb.put p (g e) := by
  unfold Tables.store at h
  split at h
  · cases h
  · next e he =>
    cases h
    exact ⟨e, he, rfl⟩

theorem upholds_store {p : World → ℕ × ℕ} {g : World → AuthEntry → AuthEntry}
    (h : w.tables.Sized) :
    Upholds Eq (fun w => w.tables.Sized) (attempt fun w => w.store (p w) (g w))
      (fun _ w' => ∃ e, w'.tables = w.tables.put (p w) e) w := by
  refine upholds_attempt ?_ ?_
  · rintro _ a w' rfl hw
    unfold World.store at hw
    cases hst : w.tables.store (p w) (g w) with
    | error e =>
      rw [hst] at hw
      cases hw
    | ok tb' =>
      rw [hst] at hw
      cases hw
      obtain ⟨e, -, rfl⟩ := Tables.store_eq_ok hst
      exact ⟨h.put _ _, _, rfl⟩
  · rintro _ e rfl -
    exact h

theorem keeps_authWriteText_tables (tb : Tables) :
    Keeps (fun w : World => w.tables = tb) authWriteText :=
  keeps_authWriteText fun _ _ h _ hs => h.tables.trans hs

theorem upholds_authWriteText (h : w.tables.Sized) :
    Upholds Eq (fun w => w.tables.Sized) authWriteText (fun _ w' => w'.tables = w.tables) w :=
  (keeps_authWriteText_tables w.tables).upholds (fun _ _ hst ht => hst ▸ ht) (fun _ hs => hs ▸ h)
    rfl

/-! ### The tables between two calls -/

/-- The tables as the calls of the text backend find them. -/
structure Tables.Steady (tb : Tables) : Prop extends Tables.Fitted tb where
  sorted : Sorted authCmp tb.table

theorem Tables.WellFormed.steady (h : tb.WellFormed) : tb.Steady :=
  ⟨h.fitted, h.ascending.sorted⟩

namespace Tables.Steady

theorem length_strncpy_le (s : CStr) (n : ℕ) : (strncpy s n).length ≤ n := List.length_take_le n s

/-- What `auth_present` points to is in use. -/
theorem authPresent (h : tb.Steady) (hp : tb.authPresent libc host = some p) :
    p.1 = tb.auth ∧ p.2 < tb.authCur ∧ ∃ e, tb.table[p.2]? = some e := by
  obtain ⟨i, hi, rfl⟩ := Option.map_eq_some_iff.mp hp
  obtain ⟨e, he, -⟩ := libc.bsearch_some comparison_authCmp h.sorted hi
  have hlt := (List.getElem?_eq_some_iff.mp he).1
  rw [length_table h.toFitted] at hlt
  exact ⟨rfl, hlt, e, he⟩

theorem cleaned (h : tb.Steady) (t max : ℤ) : (tb.cleaned t max).Steady :=
  ⟨h.toFitted.cleaned t max, by rw [table_cleaned]; exact List.Pairwise.filter _ h.sorted⟩

theorem inserted (libc : Libc) (h : tb.Steady) (host : CStr) (t : ℤ) :
    (tb.inserted libc ⟨strncpy host matchLoginHostnameMax, t⟩).Steady := by
  refine ⟨h.toFitted.inserted libc (length_strncpy_le _ _), ?_⟩
  rw [table_inserted libc h.toFitted]
  exact libc.qsort_sorted _ comparison_authCmp

theorem refresh (h : tb.Steady) (hp : tb.authPresent libc host = some p) {e : AuthEntry}
    (he : tb.table[p.2]? = some e) (t : ℤ) : (tb.put p { e with t := t }).Steady := by
  obtain ⟨h₁, -, -⟩ := h.authPresent hp
  refine ⟨h.toFitted.put p h₁ (h.cut e (List.mem_of_getElem? he)), ?_⟩
  obtain ⟨b, i⟩ := p
  obtain rfl : b = tb.auth := h₁
  rw [table_put]
  exact sorted_set h.sorted he rfl

end Tables.Steady

/-- A call that returns leaves the tables as the next call wants them. -/
theorem steady_call (libc : Libc) (h : w.tables.Steady) (e : AuthEvent)
    (hr : (e.call libc).run w = .done () w') : w'.tables.Steady := by
  cases e with
  | add username host =>
    change (authTextAdd libc username host).run w = _ at hr
    cases hp : w.tables.authPresent libc host with
    | some p =>
      obtain ⟨h₁, hlt, e, he⟩ := h.authPresent hp
      have hm : (w.tables.mem p.1)[p.2]? = some e := by
        rw [h₁, ← Tables.getElem?_table hlt, he]
      rw [run_authTextAdd_present hp hm] at hr
      cases hr
      exact h.refresh hp he _
    | none =>
      rw [run_authTextAdd_absent h.toFitted hp] at hr
      rw [(keeps_authWriteText_tables _).run_done rfl hr]
      exact h.inserted libc host _
  | clean =>
    change authTextClean.run w = _ at hr
    cases hmax : w.conffileParamInt (cstr "timeout") with
    | error e =>
      unfold authTextClean at hr
      rw [run_bind, run_read, Outcome.bind_done, run_bind, run_attempt, hmax] at hr
      cases hr
    | ok max =>
      rw [run_authTextClean_eq h.toFitted hmax] at hr
      rw [(keeps_authWriteText_tables _).run_done rfl hr]
      exact h.cleaned _ _

/-! ### What is done during a call -/

theorem InRange.noted (hs : s.InRange) {a : World → Access}
    (ha : (a s.world).Within s.world.tables) : (s.noted a).InRange := by
  refine ⟨hs.1, fun b hb => ?_⟩
  rcases List.mem_append.mp hb with hb | hb
  · exact hs.2 b hb
  · obtain rfl := List.mem_singleton.mp hb
    exact ha

theorem upholds_note (hs : s.InRange) {a : World → Access}
    (ha : (a s.world).Within s.world.tables) :
    Upholds Eq InRange (note a) (fun _ s' => s'.InRange ∧ s'.world = s.world) s := by
  refine upholds_act ?_
  rintro _ rfl
  exact ⟨InRange.noted hs ha, InRange.noted hs ha, rfl⟩

/-- A part of a call in which nothing is recorded. -/
theorem upholds_inside {q : Prog World α} {Q : α → World → Prop} (hs : s.InRange)
    (hq : Upholds Eq (fun w => w.tables.Sized) q Q s.world) :
    Upholds Eq InRange (zoom toWorld q) (fun a s' => s'.InRange ∧ Q a s'.world) s := by
  have hq' := upholds_zoom (l := toWorld) (hq.at_end hs.1)
  refine (hq'.weaken ?_).mono ?_
  · rintro _ ⟨w', rfl, hw'⟩
    exact ⟨hw', hs.2⟩
  · rintro a _ ⟨w', rfl, hw', hQ⟩
    exact ⟨⟨hw', hs.2⟩, hQ⟩

/-- A recorded store. -/
theorem upholds_note_store {a : World → Access} {p : World → ℕ × ℕ}
    {g : World → AuthEntry → AuthEntry} {k : Unit → Prog Watched β} {Q : β → Watched → Prop}
    (hs : s.InRange) (ha : (a s.world).Within s.world.tables)
    (hk : ∀ s' e, s'.InRange → s'.world.tables = s.world.tables.put (p s.world) e →
      Upholds Eq InRange (k ()) Q s') :
    Upholds Eq InRange
      (note a >>= fun _ => zoom toWorld (attempt fun w => w.store (p w) (g w)) >>= k) Q s := by
  refine upholds_bind ((upholds_note hs ha).mono ?_)
  rintro _ s₁ ⟨hs₁, hw⟩
  refine upholds_bind ((upholds_inside hs₁ (upholds_store hs₁.1)).mono ?_)
  rintro _ s₂ ⟨hs₂, e, he⟩
  rw [hw] at he
  exact hk s₂ e hs₂ he

theorem upholds_authTextAdd (username : CStr) (hs : s.InRange) (hk : s.world.tables.Steady) :
    Upholds Eq InRange (Watched.authTextAdd libc username host) (fun _ => InRange) s := by
  refine upholds_bind (upholds_act ?_)
  rintro _ rfl
  refine ⟨hs, ?_⟩
  dsimp only
  cases hp : s.world.tables.authPresent libc host with
  | some p =>
    obtain ⟨h₁, hlt, -⟩ := hk.authPresent hp
    have hadd : (Access.add p).Within s.world.tables := ⟨h₁, hlt.trans_le hs.1.curLe⟩
    refine upholds_bind ((upholds_note (a := fun _ => .add p) hs hadd).mono ?_)
    rintro _ s₁ ⟨hs₁, -⟩
    exact (upholds_inside hs₁ (upholds_store hs₁.1)).mono fun _ _ h => h.1
  | none =>
    have hgrow : (Access.grow s.world.tables.grow).Within s.world.tables :=
      ⟨Tables.authCur_grow _, Tables.table_grow hk.toFitted⟩
    refine upholds_bind ((upholds_note hs hgrow).mono ?_)
    rintro _ s₁ ⟨hs₁, hw₁⟩
    have hg : s₁.world.tables.grow.Sized := hw₁ ▸ hk.toFitted.grow.toSized
    have hroom : s₁.world.tables.grow.authCur < s₁.world.tables.grow.authMax :=
      hw₁ ▸ Tables.authCur_lt_authMax_grow hk.toFitted
    refine upholds_bind ((upholds_inside (Q := fun _ w => w.tables = s₁.world.tables.grow) hs₁
      (upholds_act ?_)).mono ?_)
    · rintro _ rfl
      exact ⟨hg, rfl⟩
    rintro _ s₂ ⟨hs₂, hw₂⟩
    refine upholds_note_store hs₂ ⟨rfl, by rwa [hw₂]⟩ fun s₃ e₃ hs₃ hw₃ => ?_
    refine upholds_note_store hs₃ ⟨rfl, ?_⟩ fun s₄ e₄ hs₄ hw₄ => ?_
    · rw [hw₃, hw₂]
      exact hroom
    refine (upholds_inside (Q := fun _ _ => True) hs₄ (upholds_bind (upholds_act ?_))).mono
      fun _ _ h => h.1
    rintro _ rfl
    have hcount : ({ s₄.world.tables with authCur := s₄.world.tables.authCur + 1 } :
        Tables).Sized := by
      refine ⟨hs₄.1.authSize, hs₄.1.shadowSize, ?_⟩
      rw [hw₄, hw₃, hw₂]
      exact hroom
    refine ⟨hcount, upholds_bind (upholds_act ?_)⟩
    rintro _ rfl
    exact ⟨hcount.qsort libc, (upholds_authWriteText (hcount.qsort libc)).mono fun _ _ _ => trivial⟩

/-- One round of the copying loop, with `n` entries kept in the rounds before. -/
theorem upholds_cleanEntry (hs : s.InRange) {i n : ℕ} (hi : i < s.world.tables.authCur)
    (hn : n ≤ i) :
    Upholds Eq InRange (Watched.cleanEntry t max i n)
      (fun n' s' => s'.InRange ∧ n' ≤ i + 1 ∧ i + 1 ≤ s'.world.tables.authCur) s := by
  refine upholds_bind ((upholds_inside hs (upholds_look hs.1)).mono ?_)
  rintro e s₁ ⟨hs₁, hw₁⟩
  rw [← hw₁] at hi
  split
  · refine upholds_note_store hs₁ ⟨rfl, hn, hi⟩ fun s₂ e₂ hs₂ hw₂ => ?_
    have hi₂ : i < s₂.world.tables.authCur := by rwa [hw₂]
    refine upholds_note_store hs₂ ⟨rfl, hn, hi₂⟩ fun s₃ e₃ hs₃ hw₃ => ?_
    have hi₃ : i < s₃.world.tables.authCur := by rwa [hw₃]
    exact ⟨hs₃, Nat.succ_le_succ hn, hi₃⟩
  · exact ⟨hs₁, Nat.le_succ_of_le hn, hi⟩

/-- The swap: in between, both pointers lead to the same block. -/
theorem upholds_swap {n : ℕ} (hs : s.InRange) (hn : n ≤ s.world.tables.authCur) :
    Upholds Eq InRange (zoom toWorld (do
      let tmp ← read fun w => w.tables.auth
      modify (·.onTables fun tb => { tb with auth := tb.shadowAuth })
      modify (·.onTables fun tb => { tb with shadowAuth := tmp })
      modify (·.onTables fun tb => { tb with authCur := n })
      authWriteText)) (fun _ => InRange) s := by
  have h := hs.1
  refine (upholds_inside (Q := fun _ _ => True) hs (upholds_bind (upholds_act ?_))).mono
    fun _ _ h => h.1
  rintro _ rfl
  refine ⟨h, upholds_bind (upholds_act ?_)⟩
  rintro _ rfl
  refine ⟨⟨h.shadowSize, h.shadowSize, h.curLe⟩, upholds_bind (upholds_act ?_)⟩
  rintro _ rfl
  refine ⟨⟨h.shadowSize, h.authSize, h.curLe⟩, upholds_bind (upholds_act ?_)⟩
  rintro _ rfl
  have hend := (⟨h.shadowSize, h.authSize, hn.trans h.curLe⟩ : Tables.Sized
    { s.world.tables with
      auth := s.world.tables.shadowAuth
      shadowAuth := s.world.tables.auth
      authCur := n })
  exact ⟨hend, (upholds_authWriteText hend).mono fun _ _ _ => trivial⟩

theorem upholds_authTextClean (hs : s.InRange) :
    Upholds Eq InRange Watched.authTextClean (fun _ => InRange) s := by
  refine upholds_bind (upholds_act ?_)
  rintro _ rfl
  refine ⟨hs, upholds_bind ((upholds_inside hs (upholds_look hs.1)).mono ?_)⟩
  rintro max s₁ ⟨hs₁, -⟩
  refine upholds_bind (upholds_act ?_)
  rintro _ rfl
  refine ⟨hs₁, upholds_bind ?_⟩
  refine upholds_loop (fun i n s => s.InRange ∧ n ≤ i ∧ i ≤ s.world.tables.authCur)
    ?_ ?_ ?_ _ 0 0 ⟨hs₁, le_rfl, Nat.zero_le _⟩
  · rintro i n s _ rfl h
    exact ⟨h.1, h⟩
  · rintro i n s hi ⟨hs, hn, -⟩
    exact upholds_cleanEntry hs (of_decide_eq_true hi) hn
  · rintro i n s ⟨hs, hn, hi⟩
    exact upholds_swap hs (hn.trans hi)

/-! ### Whole histories -/

theorem upholds_call (libc : Libc) (hs : s.InRange) (hk : s.world.tables.Steady) (e : AuthEvent) :
    Upholds Eq InRange (Watched.call libc e)
      (fun _ s' => s'.InRange ∧ s'.world.tables.Steady) s := by
  have hcall : Upholds Eq InRange (Watched.call libc e) (fun _ => InRange) s := by
    cases e with
    | add username host => exact upholds_authTextAdd username hs hk
    | clean => exact upholds_authTextClean hs
  refine hcall.and_run fun _ s' hr => steady_call libc hk e ?_
  rw [← erases_call libc e s, hr]
  rfl

theorem upholds_history (libc : Libc) (hs : s.InRange) (hk : s.world.tables.Steady)
    (es : List (ℤ × AuthEvent)) :
    Upholds Eq InRange (Watched.history libc es)
      (fun _ s' => s'.InRange ∧ s'.world.tables.Steady) s := by
  induction es generalizing s with
  | nil => exact ⟨hs, hk⟩
  | cons e es ih =>
    refine upholds_bind ((upholds_inside (Q := fun _ w => w.tables = s.world.tables) hs
      (upholds_act ?_)).mono ?_)
    · rintro _ rfl
      exact ⟨hs.1, rfl⟩
    · rintro _ s₁ ⟨hs₁, hw₁⟩
      refine upholds_bind ((upholds_call libc hs₁ ?_ e.2).mono fun _ s' h => ih h.1 h.2)
      rw [hw₁]
      exact hk

theorem upholds_authInit (hb : w.tables.auth ≠ w.tables.shadowAuth) (hc : w.tables.authCur = 0) :
    Upholds Eq (fun w => w.tables.Sized) authInit (fun _ w' => w'.tables.Steady) w := by
  have hsteady : ∀ flush, (w.tables.initialised flush).Steady := fun flush =>
    (Tables.wellFormed_initialised hb hc flush).steady
  refine upholds_bind (upholds_act ?_)
  rintro _ rfl
  have hs : (w.onTables Tables.authInitMem).tables.Sized := (hsteady w.tables.authAlarm).toSized
  refine ⟨hs, upholds_bind ((upholds_look (I := fun w : World => w.tables.Sized) hs).mono ?_)⟩
  rintro flush _ rfl
  refine upholds_bind (upholds_act ?_)
  rintro _ rfl
  refine ⟨(hsteady flush).toSized, upholds_bind (upholds_act ?_)⟩
  rintro _ rfl
  refine ⟨(hsteady flush).toSized, (upholds_authWriteText (hsteady flush).toSized).mono ?_⟩
  intro _ w' hw'
  rw [hw']
  exact hsteady flush

theorem upholds_server (libc : Libc) (es : List (ℤ × AuthEvent))
    (hb : w.tables.auth ≠ w.tables.shadowAuth) (hc : w.tables.authCur = 0) :
    Upholds Eq InRange (Watched.server libc es)
      (fun _ s => s.InRange ∧ s.world.tables.Steady) ⟨w, []⟩ := by
  have hinit := upholds_zoom (l := toWorld) (t := ⟨w, []⟩) (upholds_authInit hb hc)
  refine upholds_bind ((hinit.weaken ?_).mono ?_)
  · rintro _ ⟨w', rfl, hw'⟩
    exact ⟨hw', List.forall_mem_nil _⟩
  · rintro _ _ ⟨w', rfl, hw'⟩
    exact upholds_history libc ⟨hw'.toSized, List.forall_mem_nil _⟩ hw' es

/-- After any history of adds and cleans, however many hosts of whatever length it names, both
blocks are as large as `auth_max` says, and every store and every growth so far was in
range. -/
theorem tables_in_range (libc : Libc) (es : List (ℤ × AuthEvent))
    (hb : w.tables.auth ≠ w.tables.shadowAuth) (hc : w.tables.authCur = 0) :
    Erases world (Watched.server libc es) (ExactDaemon.server libc es) ∧
      (∀ s ∈ ((Watched.server libc es).trace ⟨w, []⟩).tail,
        s.world.tables.Sized ∧ ∀ a ∈ s.accesses, a.2.Within a.1) ∧
      ∀ s, (Watched.server libc es).run ⟨w, []⟩ = .done () s →
        s.world.tables.auth ≠ s.world.tables.shadowAuth := by
  have h := upholds_server libc es hb hc
  exact ⟨erases_server libc es, h.trace, fun s hr => (h.run_done hr).2.blocks⟩

/-- A host is added, seen again and dropped, while a later one is kept. -/
def loggedIn : List (ℤ × AuthEvent) :=
  [(10, .add (cstr "u") (cstr "a")), (20, .add (cstr "u") (cstr "a")),
    (50, .add (cstr "v") (cstr "b")), (90, .clean)]

/-- Two growths, five stores of `auth_text_add`, and two of `auth_text_clean`, which moves the
later host to the front. -/
def LoggedAccesses : Prop :=
  ((Watched.server Libc.simple loggedIn).run ⟨World.boot (textParam (cstr "60")), []⟩).Returns
    fun _ s => s.accesses.length = 9

instance : Decidable LoggedAccesses :=
  inferInstanceAs (Decidable (Outcome.Returns _ _))

theorem tables_in_range_login :
    ∃ s, (Watched.server Libc.simple loggedIn).run ⟨World.boot (textParam (cstr "60")), []⟩ =
        .done () s ∧
      s.accesses.length = 9 ∧ s.world.tables.Sized ∧ (∀ a ∈ s.accesses, a.2.Within a.1) ∧
      s.world.tables.auth ≠ s.world.tables.shadowAuth := by
  have hrun : LoggedAccesses := by decide +kernel
  obtain ⟨_, s, hs, hlen⟩ := Outcome.returns_iff.mp hrun
  obtain ⟨-, hrange, hdone⟩ := tables_in_range (w := World.boot (textParam (cstr "60")))
    Libc.simple loggedIn Nat.zero_ne_one rfl
  -- the start has no accesses yet, so the end is a later point
  have hne : s ≠ ⟨World.boot (textParam (cstr "60")), []⟩ := by
    rintro rfl
    exact absurd hlen (by decide)
  have hmem := mem_trace_of_run hs
  rw [← List.cons_head?_tail (head?_trace _ _)] at hmem
  obtain ⟨hsized, hwithin⟩ := hrange s ((List.mem_cons.mp hmem).resolve_left hne)
  exact ⟨s, hs, hlen, hsized, hwithin, hdone s hs⟩

end ExactDaemon
