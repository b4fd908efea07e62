import ExactDaemon.Auth.Publish
import ExactDaemon.Lib.Table

/-! # The tables as a finite map

Well-formed tables are two blocks of the same size, the one in use strictly
ascending by hostname. Adding a host and cleaning are an update and a
restriction of the map from hostnames to login times, and keep the tables
well-formed.
-/

namespace ExactDaemon

open Prog

theorem comparison_authCmp : Comparison authCmp where
  flip a b := strcmp_neg a.hostname b.hostname
  trans _ _ _ := strcmp_le_trans

theorem nodup_hostname {l : List AuthEntry} (h : Ascending authCmp l) :
    (l.map AuthEntry.hostname).Nodup := by
  refine List.pairwise_map.mpr (h.distinct.imp fun hne he => hne ?_)
  exact strcmp_eq_zero.mpr he

namespace Tables

/-- Two distinct blocks of `auth_max` entries, with the entries in use inside and each
hostname terminated. -/
structure Sound (tb : Tables) : Prop where
  blocks : tb.auth ≠ tb.shadowAuth
  authSize : (tb.mem tb.auth).length = tb.authMax
  shadowSize : (tb.mem tb.shadowAuth).length = tb.authMax
  curLe : tb.authCur ≤ tb.authMax
  terminated : ∀ e ∈ tb.table, e.Terminated

structure WellFormed (tb : Tables) : Prop extends Sound tb where
  ascending : Ascending authCmp tb.table

/-- Both pointers lead to exactly `auth_max` entries, and no more are in use. -/
structure Sized (tb : Tables) : Prop where
  authSize : (tb.mem tb.auth).length = tb.authMax
  shadowSize : (tb.mem tb.shadowAuth).length = tb.authMax
  curLe : tb.authCur ≤ tb.authMax

/-- Two blocks, in which no hostname is longer than its array, but may fill it. -/
structure Fitted (tb : Tables) : Prop extends Sized tb where
  blocks : tb.auth ≠ tb.shadowAuth
  cut : ∀ e ∈ tb.table, e.hostname.length ≤ matchLoginHostnameMax

/-- The login time of each authorised host. -/
def map (tb : Tables) : CStr → Option ℤ := lookup AuthEntry.hostname AuthEntry.t tb.table

/-- The entries a clean at clock `t` keeps. -/
def kept (tb : Tables) (t max : ℤ) : List AuthEntry := tb.table.filter fun e => t - e.t < max

/-- The tables after `auth_text_clean`. -/
def cleaned (tb : Tables) (t max : ℤ) : Tables :=
  let n := (tb.kept t max).length
  { tb with
    mem := Function.update tb.mem tb.shadowAuth
      (tb.kept t max ++ (tb.mem tb.shadowAuth).drop n)
    auth := tb.shadowAuth
    shadowAuth := tb.auth
    authCur := n }

/-- The entry at a pointer overwritten. -/
def put (tb : Tables) (p : ℕ × ℕ) (e : AuthEntry) : Tables :=
  { tb with mem := Function.update tb.mem p.1 ((tb.mem p.1).set p.2 e) }

/-- The tables after a new host's entry is appended and counted. -/
def appended (tb : Tables) (e : AuthEntry) : Tables :=
  { tb.put (tb.auth, tb.authCur) e with authCur := tb.authCur + 1 }

section

variable {tb : Tables} {p : ℕ × ℕ} {e : AuthEntry} {g : AuthEntry → AuthEntry}

theorem store_ok (h : (tb.mem p.1)[p.2]? = some e) : tb.store p g = .ok (tb.put p (g e)) := by
  simp only [store, h, put]

theorem load_ok (h : (tb.mem p.1)[p.2]? = some e) : tb.load p = .ok e := by
  simp only [load, h]

@[simp] theorem auth_put (tb : Tables) (p : ℕ × ℕ) (e : AuthEntry) :
    (tb.put p e).auth = tb.auth := rfl

@[simp] theorem authCur_put (tb : Tables) (p : ℕ × ℕ) (e : AuthEntry) :
    (tb.put p e).authCur = tb.authCur := rfl

theorem put_put (tb : Tables) (p : ℕ × ℕ) (e e' : AuthEntry) :
    (tb.put p e).put p e' = tb.put p e' := by
  simp [put]

theorem getElem?_put (h : (tb.mem p.1)[p.2]? = some e) (e' : AuthEntry) :
    ((tb.put p e').mem p.1)[p.2]? = some e' := by
  have hlt := (List.getElem?_eq_some_iff.mp h).1
  simp [put, hlt]

theorem length_table_of_le (h : tb.authCur ≤ (tb.mem tb.auth).length) :
    tb.table.length = tb.authCur := by
  simp [table, h]

theorem Sound.fitted (h : tb.Sound) : tb.Fitted :=
  ⟨⟨h.authSize, h.shadowSize, h.curLe⟩, h.blocks, fun e he => Nat.le_of_lt (h.terminated e he)⟩

theorem Fitted.sound (h : tb.Fitted) (ht : ∀ e ∈ tb.table, e.Terminated) : tb.Sound :=
  ⟨h.blocks, h.authSize, h.shadowSize, h.curLe, ht⟩

theorem length_table (h : tb.Fitted) : tb.table.length = tb.authCur :=
  length_table_of_le (h.authSize ▸ h.curLe)

theorem getElem?_table {i : ℕ} (h : i < tb.authCur) :
    tb.table[i]? = (tb.mem tb.auth)[i]? := by
  simp [table, h]

theorem length_kept_le (h : tb.Fitted) (t max : ℤ) : (tb.kept t max).length ≤ tb.authMax :=
  (List.length_filter_le _ _).trans ((length_table h).le.trans h.curLe)

@[simp] theorem table_cleaned (tb : Tables) (t max : ℤ) :
    (tb.cleaned t max).table = tb.kept t max := by
  simp [table, cleaned]

/-- The entry behind those that a clean keeps is what the shadow block held there. -/
theorem getElem?_cleaned (tb : Tables) (t max : ℤ) :
    ((tb.cleaned t max).mem (tb.cleaned t max).auth)[(tb.cleaned t max).authCur]? =
      (tb.mem tb.shadowAuth)[(tb.kept t max).length]? := by
  simp [cleaned, List.getElem?_append_right]

theorem Fitted.cleaned (h : tb.Fitted) (t max : ℤ) : (tb.cleaned t max).Fitted where
  blocks := h.blocks.symm
  authSize := by
    have := length_kept_le h t max
    simp only [Tables.cleaned, Function.update_self, List.length_append, List.length_drop,
      h.shadowSize]
    omega
  shadowSize := by simp [Tables.cleaned, h.blocks, h.authSize]
  curLe := length_kept_le h t max
  cut e he := by
    rw [table_cleaned] at he
    exact h.cut e (List.mem_filter.mp he).1

theorem Sound.cleaned (h : tb.Sound) (t max : ℤ) : (tb.cleaned t max).Sound := by
  refine (h.fitted.cleaned t max).sound fun e he => ?_
  rw [table_cleaned] at he
  exact h.terminated e (List.mem_filter.mp he).1

theorem WellFormed.cleaned (h : tb.WellFormed) (t max : ℤ) : (tb.cleaned t max).WellFormed where
  toSound := h.toSound.cleaned t max
  ascending := by rw [table_cleaned]; exact h.ascending.filter _

theorem map_cleaned (h : tb.WellFormed) (t max : ℤ) (host : CStr) :
    (tb.cleaned t max).map host = (tb.map host).filter fun u => t - u < max := by
  rw [map, table_cleaned]
  exact lookup_filter (nodup_hostname h.ascending) fun u => t - u < max

/-! ### Looking a host up -/

theorem authPresent_some {libc : Libc} (h : tb.WellFormed) {host : CStr}
    (hp : tb.authPresent libc host = some p) :
    p.1 = tb.auth ∧ p.2 < tb.authCur ∧
      ∃ e, (tb.mem p.1)[p.2]? = some e ∧ e.hostname = strncpy host matchLoginHostnameMax := by
  obtain ⟨i, hi, rfl⟩ := Option.map_eq_some_iff.mp hp
  obtain ⟨e, he, hk⟩ := libc.bsearch_some comparison_authCmp h.ascending.sorted hi
  have hlt : i < tb.authCur := length_table h.fitted ▸ (List.getElem?_eq_some_iff.mp he).1
  exact ⟨rfl, hlt, e, (getElem?_table hlt) ▸ he, (strcmp_eq_zero.mp hk).symm⟩

theorem authPresent_none {libc : Libc} (h : tb.WellFormed) {host : CStr}
    (hp : tb.authPresent libc host = none) :
    ∀ e ∈ tb.table, e.hostname ≠ strncpy host matchLoginHostnameMax := by
  intro e he heq
  exact libc.bsearch_none comparison_authCmp h.ascending.sorted (Option.map_eq_none_iff.mp hp)
    e he (strcmp_eq_zero.mpr heq.symm)

/-- `auth_present` finds an entry exactly for the hosts of the map. -/
theorem authPresent_isSome_iff (libc : Libc) (h : tb.WellFormed) {host : CStr}
    (hh : host.length ≤ matchLoginHostnameMax) :
    (tb.authPresent libc host).isSome ↔ (tb.map host).isSome := by
  rw [authPresent, Option.isSome_map, libc.bsearch_isSome_iff comparison_authCmp h.ascending,
    Option.isSome_iff_ne_none, ne_eq, map, lookup_eq_none_iff]
  simp only [authCmp, strcmp_eq_zero, strncpy_of_length_le hh]
  push Not
  exact exists_congr fun e => and_congr_right fun _ => eq_comm

/-! ### Refreshing a host -/

theorem table_put (tb : Tables) (i : ℕ) (e : AuthEntry) :
    (tb.put (tb.auth, i) e).table = tb.table.set i e := by
  simp [table, put, List.take_set]

/-- Writing to the free entry does not change the table. -/
theorem table_put_authCur (tb : Tables) (e : AuthEntry) :
    (tb.put (tb.auth, tb.authCur) e).table = tb.table := by
  simp [table, put, List.take_set_of_le]

theorem Sound.put_authCur (h : tb.Sound) (e : AuthEntry) :
    (tb.put (tb.auth, tb.authCur) e).Sound where
  blocks := h.blocks
  authSize := by simp [Tables.put, h.authSize]
  shadowSize := by simp [Tables.put, h.blocks.symm, h.shadowSize]
  curLe := h.curLe
  terminated := by rw [table_put_authCur]; exact h.terminated

theorem forall_table_put {P : AuthEntry → Prop} (h : ∀ e ∈ tb.table, P e) (hp : p.1 = tb.auth)
    (he : P e) : ∀ e' ∈ (tb.put p e).table, P e' := by
  obtain ⟨b, i⟩ := p
  obtain rfl : b = tb.auth := hp
  intro e' he'
  rw [table_put] at he'
  rcases List.mem_or_eq_of_mem_set he' with hm | rfl
  · exact h e' hm
  · exact he

theorem length_mem_put (tb : Tables) (p : ℕ × ℕ) (e : AuthEntry) (b : ℕ) :
    ((tb.put p e).mem b).length = (tb.mem b).length := by
  by_cases hb : b = p.1
  · subst hb
    simp [put]
  · simp [put, hb]

theorem Sized.put (h : tb.Sized) (p : ℕ × ℕ) (e : AuthEntry) : (tb.put p e).Sized where
  authSize := (length_mem_put tb p e _).trans h.authSize
  shadowSize := (length_mem_put tb p e _).trans h.shadowSize
  curLe := h.curLe

theorem Fitted.put (h : tb.Fitted) (p : ℕ × ℕ) (hp : p.1 = tb.auth)
    (he : e.hostname.length ≤ matchLoginHostnameMax) : (tb.put p e).Fitted :=
  ⟨h.toSized.put p e, h.blocks, forall_table_put h.cut hp he⟩

theorem Sound.put (h : tb.Sound) (p : ℕ × ℕ) (hp : p.1 = tb.auth) (he : e.Terminated) :
    (tb.put p e).Sound :=
  (h.fitted.put p hp (Nat.le_of_lt he)).sound (forall_table_put h.terminated hp he)

theorem map_hostname_set {l : List AuthEntry} {i : ℕ} {e e' : AuthEntry}
    (hi : l[i]? = some e) (he : e'.hostname = e.hostname) :
    (l.set i e').map AuthEntry.hostname = l.map AuthEntry.hostname := by
  obtain ⟨hlt, rfl⟩ := List.getElem?_eq_some_iff.mp hi
  have hlt' : i < (l.map AuthEntry.hostname).length := by simpa using hlt
  have hself := List.set_getElem_self hlt'
  rw [List.getElem_map] at hself
  rw [List.map_set, he, hself]

/-- An order that looks at hostnames alone. -/
theorem pairwise_set (R : CStr → CStr → Prop) {l : List AuthEntry} {i : ℕ} {e e' : AuthEntry}
    (h : l.Pairwise fun a b => R a.hostname b.hostname) (hi : l[i]? = some e)
    (he : e'.hostname = e.hostname) :
    (l.set i e').Pairwise fun a b => R a.hostname b.hostname := by
  have hp : (l.map AuthEntry.hostname).Pairwise R := List.pairwise_map.mpr h
  exact List.pairwise_map.mp (map_hostname_set hi he ▸ hp)

theorem ascending_set {l : List AuthEntry} {i : ℕ} {e e' : AuthEntry}
    (h : Ascending authCmp l) (hi : l[i]? = some e) (he : e'.hostname = e.hostname) :
    Ascending authCmp (l.set i e') :=
  pairwise_set (fun a b => strcmp a b < 0) h hi he

theorem sorted_set {l : List AuthEntry} {i : ℕ} {e e' : AuthEntry}
    (h : Sorted authCmp l) (hi : l[i]? = some e) (he : e'.hostname = e.hostname) :
    Sorted authCmp (l.set i e') :=
  pairwise_set (fun a b => strcmp a b ≤ 0) h hi he

theorem WellFormed.refresh (h : tb.WellFormed) (hp : p.1 = tb.auth) {e' : AuthEntry}
    (hi : tb.table[p.2]? = some e) (he : e'.hostname = e.hostname) :
    (tb.put p e').WellFormed where
  toSound := h.toSound.put p hp <| by
    rw [AuthEntry.Terminated, he]
    exact h.terminated e (List.mem_of_getElem? hi)
  ascending := by
    obtain ⟨b, i⟩ := p
    obtain rfl : b = tb.auth := hp
    rw [table_put]
    exact ascending_set h.ascending hi he

theorem map_refresh (h : tb.WellFormed) (hp : p.1 = tb.auth) {e' : AuthEntry}
    (hi : tb.table[p.2]? = some e) (he : e'.hostname = e.hostname) :
    (tb.put p e').map = Function.update tb.map e'.hostname (some e'.t) := by
  obtain ⟨b, i⟩ := p
  obtain rfl : b = tb.auth := hp
  rw [map, table_put]
  exact lookup_set (nodup_hostname h.ascending) hi he

/-! ### Growing -/

theorem length_realloc (l : List AuthEntry) (n : ℕ) (fresh : ℕ → AuthEntry) :
    (realloc l n fresh).length = n := by
  simp only [realloc, List.length_append, List.length_take, List.length_map,
    List.length_range']
  omega

theorem take_realloc {l : List AuthEntry} {n k : ℕ} (fresh : ℕ → AuthEntry)
    (hn : k ≤ n) (hl : k ≤ l.length) : (realloc l n fresh).take k = l.take k := by
  rw [realloc, List.take_append_of_le_length (by simp; omega), List.take_take,
    Nat.min_eq_left hn]

/-- Memory allocated for the first time holds what it happened to contain. -/
theorem getElem?_realloc_nil {i n : ℕ} (h : i < n) (fresh : ℕ → AuthEntry) :
    (realloc [] n fresh)[i]? = some (fresh i) := by
  simp [realloc, h]

theorem grow_of_ne (h : tb.authCur ≠ tb.authMax) : tb.grow = tb := by
  simp [grow, h]

@[simp] theorem auth_grow (tb : Tables) : tb.grow.auth = tb.auth := by
  unfold grow; split <;> rfl

@[simp] theorem shadowAuth_grow (tb : Tables) : tb.grow.shadowAuth = tb.shadowAuth := by
  unfold grow; split <;> rfl

@[simp] theorem authCur_grow (tb : Tables) : tb.grow.authCur = tb.authCur := by
  unfold grow; split <;> rfl

theorem authMax_grow (tb : Tables) :
    tb.grow.authMax = if tb.authCur = tb.authMax then tb.authMax + 1024 else tb.authMax := by
  unfold grow; split <;> rfl

theorem mem_auth_authInitMem (h : tb.auth ≠ tb.shadowAuth) :
    tb.authInitMem.mem tb.auth = realloc (tb.mem tb.auth) tb.authMax (tb.fresh tb.auth) := by
  simp [authInitMem, reallocBlock, Function.update_of_ne h]

theorem mem_shadowAuth_authInitMem (h : tb.auth ≠ tb.shadowAuth) :
    tb.authInitMem.mem tb.shadowAuth =
      realloc (tb.mem tb.shadowAuth) tb.authMax (tb.fresh tb.shadowAuth) := by
  simp [authInitMem, reallocBlock, Function.update_of_ne h.symm]

theorem grow_of_eq (hc : tb.authCur = tb.authMax) :
    tb.grow = { tb with authMax := tb.authMax + 1024 }.authInitMem := by
  rw [grow, if_pos hc]

theorem mem_auth_grow (h : tb.auth ≠ tb.shadowAuth) (hc : tb.authCur = tb.authMax) :
    tb.grow.mem tb.auth =
      realloc (tb.mem tb.auth) (tb.authMax + 1024) (tb.fresh tb.auth) := by
  rw [grow_of_eq hc]
  exact mem_auth_authInitMem h

theorem mem_shadowAuth_grow (h : tb.auth ≠ tb.shadowAuth) (hc : tb.authCur = tb.authMax) :
    tb.grow.mem tb.shadowAuth =
      realloc (tb.mem tb.shadowAuth) (tb.authMax + 1024) (tb.fresh tb.shadowAuth) := by
  rw [grow_of_eq hc]
  exact mem_shadowAuth_authInitMem h

theorem table_grow (h : tb.Fitted) : tb.grow.table = tb.table := by
  by_cases hc : tb.authCur = tb.authMax
  · have hl := h.authSize
    rw [table, auth_grow, authCur_grow, mem_auth_grow h.blocks hc,
      take_realloc _ (by omega) (by omega), table]
  · rw [grow_of_ne hc]

theorem Fitted.grow (h : tb.Fitted) : tb.grow.Fitted where
  blocks := by simpa using h.blocks
  authSize := by
    by_cases hc : tb.authCur = tb.authMax
    · rw [auth_grow, mem_auth_grow h.blocks hc, length_realloc, authMax_grow, if_pos hc]
    · rw [grow_of_ne hc, h.authSize]
  shadowSize := by
    by_cases hc : tb.authCur = tb.authMax
    · rw [shadowAuth_grow, mem_shadowAuth_grow h.blocks hc, length_realloc, authMax_grow,
        if_pos hc]
    · rw [grow_of_ne hc, h.shadowSize]
  curLe := by
    have := h.curLe
    rw [authCur_grow, authMax_grow]
    split <;> omega
  cut := by rw [table_grow h]; exact h.cut

theorem Sound.grow (h : tb.Sound) : tb.grow.Sound :=
  h.fitted.grow.sound <| by rw [table_grow h.fitted]; exact h.terminated

theorem WellFormed.grow (h : tb.WellFormed) : tb.grow.WellFormed where
  toSound := h.toSound.grow
  ascending := by rw [table_grow h.fitted]; exact h.ascending

theorem authCur_lt_authMax_grow (h : tb.Fitted) : tb.grow.authCur < tb.grow.authMax := by
  have := h.curLe
  rw [authCur_grow, authMax_grow]
  split <;> omega

/-- After growing there is a free entry. -/
theorem exists_getElem?_grow (h : tb.Fitted) :
    ∃ e, (tb.grow.mem tb.grow.auth)[tb.grow.authCur]? = some e := by
  have hlt := authCur_lt_authMax_grow h
  rw [← h.grow.authSize] at hlt
  exact ⟨_, List.getElem?_eq_getElem hlt⟩

/-! ### Setting up -/

/-- The tables that `auth_init` sets up. -/
def initialised (tb : Tables) (flush : ℤ) : Tables := { tb.authInitMem with authAlarm := flush }

theorem table_initialised (hc : tb.authCur = 0) (flush : ℤ) :
    (tb.initialised flush).table = [] := by
  have h : (tb.initialised flush).authCur = 0 := hc
  rw [table, h, List.take_zero]

theorem wellFormed_initialised (hb : tb.auth ≠ tb.shadowAuth) (hc : tb.authCur = 0) (flush : ℤ) :
    (tb.initialised flush).WellFormed where
  blocks := hb
  authSize := (congrArg List.length (mem_auth_authInitMem hb)).trans (length_realloc _ _ _)
  shadowSize := (congrArg List.length (mem_shadowAuth_authInitMem hb)).trans (length_realloc _ _ _)
  curLe := hc.trans_le (Nat.zero_le _)
  terminated := by simp [table_initialised hc]
  ascending := by rw [table_initialised hc]; exact List.Pairwise.nil

/-! ### Adding a new host -/

theorem table_appended (hlt : tb.authCur < (tb.mem tb.auth).length) :
    (tb.appended e).table = tb.table ++ [e] := by
  have hlt' : tb.authCur < ((tb.mem tb.auth).set tb.authCur e).length := by simpa using hlt
  have htake := List.take_succ_eq_append_getElem hlt'
  rw [List.getElem_set_self, List.take_set_of_le (Nat.le_refl _)] at htake
  simpa only [table, appended, put, Function.update_self] using htake

theorem forall_table_appended {P : AuthEntry → Prop} (h : ∀ e ∈ tb.table, P e)
    (hlt : tb.authCur < (tb.mem tb.auth).length) (he : P e) :
    ∀ e' ∈ (tb.appended e).table, P e' := by
  intro e' he'
  rw [table_appended hlt] at he'
  rcases List.mem_append.mp he' with hm | hm
  · exact h e' hm
  · exact List.mem_singleton.mp hm ▸ he

theorem Fitted.appended (h : tb.Fitted) (hlt : tb.authCur < tb.authMax)
    (he : e.hostname.length ≤ matchLoginHostnameMax) : (tb.appended e).Fitted where
  blocks := h.blocks
  authSize := by simp [Tables.appended, Tables.put, h.authSize]
  shadowSize := by simp [Tables.appended, Tables.put, h.blocks.symm, h.shadowSize]
  curLe := hlt
  cut := forall_table_appended h.cut (h.authSize ▸ hlt) he

theorem Sound.appended (h : tb.Sound) (hlt : tb.authCur < tb.authMax) (he : e.Terminated) :
    (tb.appended e).Sound :=
  (h.fitted.appended hlt (Nat.le_of_lt he)).sound
    (forall_table_appended h.terminated (h.authSize ▸ hlt) he)

/-- Counting an entry that is already there appends it. -/
theorem appended_self (h : (tb.mem tb.auth)[tb.authCur]? = some e) :
    tb.appended e = { tb with authCur := tb.authCur + 1 } := by
  obtain ⟨hlt, rfl⟩ := List.getElem?_eq_some_iff.mp h
  simp [appended, put]

theorem table_qsort (libc : Libc) (h : tb.authCur ≤ (tb.mem tb.auth).length) :
    (tb.qsort libc).table = libc.qsort authCmp tb.table := by
  have hlen := (libc.qsort_perm authCmp tb.table).length_eq
  rw [length_table_of_le h] at hlen
  simp only [table, qsort, Function.update_self] at hlen ⊢
  exact List.take_left' hlen

theorem forall_table_qsort {P : AuthEntry → Prop} (libc : Libc) (h : ∀ e ∈ tb.table, P e)
    (hle : tb.authCur ≤ (tb.mem tb.auth).length) : ∀ e ∈ (tb.qsort libc).table, P e := by
  intro e he
  rw [table_qsort libc hle] at he
  exact h e ((libc.qsort_perm _ _).mem_iff.mp he)

theorem length_mem_qsort (libc : Libc) (h : tb.authCur ≤ (tb.mem tb.auth).length) (b : ℕ) :
    ((tb.qsort libc).mem b).length = (tb.mem b).length := by
  by_cases hb : b = tb.auth
  · have hlen := (libc.qsort_perm authCmp tb.table).length_eq
    rw [length_table_of_le h] at hlen
    subst hb
    simp only [qsort, Function.update_self, List.length_append, List.length_drop, hlen]
    omega
  · simp [qsort, hb]

theorem Sized.qsort (libc : Libc) (h : tb.Sized) : (tb.qsort libc).Sized where
  authSize := (length_mem_qsort libc (h.authSize ▸ h.curLe) _).trans h.authSize
  shadowSize := (length_mem_qsort libc (h.authSize ▸ h.curLe) _).trans h.shadowSize
  curLe := h.curLe

theorem Fitted.qsort (libc : Libc) (h : tb.Fitted) : (tb.qsort libc).Fitted :=
  ⟨h.toSized.qsort libc, h.blocks, forall_table_qsort libc h.cut (h.authSize ▸ h.curLe)⟩

theorem Sound.qsort (libc : Libc) (h : tb.Sound) : (tb.qsort libc).Sound :=
  (h.fitted.qsort libc).sound (forall_table_qsort libc h.terminated (h.authSize ▸ h.curLe))

/-- The tables after a host that was absent is added. -/
def inserted (libc : Libc) (tb : Tables) (e : AuthEntry) : Tables :=
  (tb.grow.appended e).qsort libc

theorem Fitted.inserted (libc : Libc) (h : tb.Fitted)
    (he : e.hostname.length ≤ matchLoginHostnameMax) : (tb.inserted libc e).Fitted :=
  (h.grow.appended (authCur_lt_authMax_grow h) he).qsort libc

theorem Sound.inserted (libc : Libc) (h : tb.Sound) (he : e.Terminated) :
    (tb.inserted libc e).Sound :=
  (h.grow.appended (authCur_lt_authMax_grow h.fitted) he).qsort libc

theorem table_inserted (libc : Libc) (h : tb.Fitted) (e : AuthEntry) :
    (tb.inserted libc e).table = libc.qsort authCmp (tb.table ++ [e]) := by
  have hlt := authCur_lt_authMax_grow h
  rw [← h.grow.authSize] at hlt
  have hle : (tb.grow.appended e).authCur ≤
      ((tb.grow.appended e).mem (tb.grow.appended e).auth).length := by
    simpa [appended, put] using Nat.succ_le_of_lt hlt
  rw [inserted, table_qsort libc hle, table_appended hlt, table_grow h]

theorem distinct_concat (h : tb.WellFormed) (hn : ∀ e' ∈ tb.table, e'.hostname ≠ e.hostname) :
    Distinct authCmp (tb.table ++ [e]) :=
  h.ascending.distinct.concat fun e' he' heq => hn e' he' (strcmp_eq_zero.mp heq)

theorem WellFormed.inserted (libc : Libc) (h : tb.WellFormed) (he : e.Terminated)
    (hn : ∀ e' ∈ tb.table, e'.hostname ≠ e.hostname) : (tb.inserted libc e).WellFormed where
  toSound := h.toSound.inserted libc he
  ascending := by
    rw [table_inserted libc h.fitted e]
    exact libc.ascending_qsort comparison_authCmp (distinct_concat h hn)

theorem map_inserted (libc : Libc) (h : tb.WellFormed) (he : e.Terminated)
    (hn : ∀ e' ∈ tb.table, e'.hostname ≠ e.hostname) :
    (tb.inserted libc e).map = Function.update tb.map e.hostname (some e.t) := by
  have hw := h.inserted libc he hn
  have hnd := nodup_hostname hw.ascending
  rw [map]
  rw [table_inserted libc h.fitted e] at hnd ⊢
  rw [lookup_perm (libc.qsort_perm _ _) hnd,
    lookup_append_singleton (lookup_eq_none_iff.mpr hn), map]

end

end Tables

end ExactDaemon
