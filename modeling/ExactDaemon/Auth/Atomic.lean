import ExactDaemon.Auth.Interrupt

/-! # Is adding a host atomic?

Where the interrupted call has a half-written entry beyond `auth_cur`, or a pointer
into the block that was swapped out, it finishes in a block that never received
what it wrote. Everywhere else the clean might as well have run before or after.
-/

namespace ExactDaemon

open Prog

variable {libc : Libc} {w s : World} {tmp file : CStr} {timeout : ℤ} {username host : CStr}
  {x : AuthEntry}

/-! ### What a clean before or after the call would leave -/

/-- The entries after `auth_text_clean` and then `auth_text_add`. -/
def CleanFirst (w : World) (host : CStr) (timeout : ℤ) (e : AuthEntry) : Prop :=
  e = ⟨host, w.clock⟩ ∨ e ∈ w.tables.kept w.clock timeout ∧ e.hostname ≠ host

/-- The entries after `auth_text_add` and then `auth_text_clean`. -/
def CleanLast (w : World) (host : CStr) (timeout : ℤ) (e : AuthEntry) : Prop :=
  e = ⟨host, w.clock⟩ ∧ 0 < timeout ∨ e ∈ w.tables.kept w.clock timeout ∧ e.hostname ≠ host

theorem mem_kept_iff (hr : w.Ready tmp file timeout) (e : AuthEntry) :
    e ∈ w.tables.kept w.clock timeout ↔
      w.tables.map e.hostname = some e.t ∧ w.clock - e.t < timeout := by
  rw [Tables.map_eq_some_iff hr.wellFormed, Tables.kept, List.mem_filter, decide_eq_true_eq]

theorem run_clean_add (libc : Libc) (hr : w.Ready tmp file timeout) (username : CStr)
    (hh : host.length < matchLoginHostnameMax) :
    ∃ s, (authTextClean >>= fun _ => authTextAdd libc username host).run w = .done () s ∧
      ∀ e, e ∈ s.tables.table ↔ CleanFirst w host timeout e := by
  obtain ⟨s₁, hs₁, hc₁⟩ := run_clean hr
  obtain ⟨s, hs, hc⟩ := run_add libc hc₁.ready username hh
  refine ⟨s, by rw [run_bind, hs₁, Outcome.bind_done, hs], fun ⟨k, t⟩ => ?_⟩
  rw [← Tables.map_eq_some_iff hc.ready.wellFormed, hc.map, hc₁.map, hc₁.clock, CleanFirst,
    mem_kept_iff hr]
  by_cases hk : k = host
  · subst hk
    simp [AuthEvent.lease, Lease.step, eq_comm]
  · simp [AuthEvent.lease, Lease.step, hk, Option.filter_eq_some_iff]

theorem run_add_clean (libc : Libc) (hr : w.Ready tmp file timeout) (username : CStr)
    (hh : host.length < matchLoginHostnameMax) :
    ∃ s, (authTextAdd libc username host >>= fun _ => authTextClean).run w = .done () s ∧
      ∀ e, e ∈ s.tables.table ↔ CleanLast w host timeout e := by
  obtain ⟨s₁, hs₁, hc₁⟩ := run_add libc hr username hh
  obtain ⟨s, hs, hc⟩ := run_clean hc₁.ready
  refine ⟨s, by rw [run_bind, hs₁, Outcome.bind_done, hs], fun ⟨k, t⟩ => ?_⟩
  rw [← Tables.map_eq_some_iff hc.ready.wellFormed, hc.map, hc₁.map, hc₁.clock, CleanLast,
    mem_kept_iff hr]
  by_cases hk : k = host
  · subst hk
    simp only [AuthEvent.lease, Lease.step, Function.update_self, Option.filter_eq_some_iff]
    simp only [AuthEntry.mk.injEq, true_and, Option.some.injEq, decide_eq_true_eq, not_true,
      and_false, or_false, ne_eq]
    constructor
    · rintro ⟨rfl, hlt⟩; exact ⟨rfl, by omega⟩
    · rintro ⟨rfl, hlt⟩; exact ⟨rfl, by omega⟩
  · simp [AuthEvent.lease, Lease.step, hk, Option.filter_eq_some_iff]

/-- The interrupted call leaves what a clean wholly before or wholly after it would. -/
def AddAtomic (libc : Libc) (w : World) (username host : CStr) (b : Between) : Prop :=
  ∃ s, (addInterrupted libc username host b).run w = .done () s ∧
    ((∃ s', (authTextClean >>= fun _ => authTextAdd libc username host).run w = .done () s' ∧
        ∀ e, e ∈ s.tables.table ↔ e ∈ s'.tables.table) ∨
      ∃ s', (authTextAdd libc username host >>= fun _ => authTextClean).run w = .done () s' ∧
        ∀ e, e ∈ s.tables.table ↔ e ∈ s'.tables.table)

/-- The entries are those of a clean at one end of the call. -/
def CleanAtEnd (w : World) (host : CStr) (timeout : ℤ) (q : AuthEntry → Prop) : Prop :=
  (∀ e, q e ↔ CleanFirst w host timeout e) ∨ ∀ e, q e ↔ CleanLast w host timeout e

theorem addAtomic_iff (hr : w.Ready tmp file timeout) (hh : host.length < matchLoginHostnameMax)
    (b : Between) :
    AddAtomic libc w username host b ↔
      ∃ s, (addInterrupted libc username host b).run w = .done () s ∧
        CleanAtEnd w host timeout (· ∈ s.tables.table) := by
  obtain ⟨s₁, hs₁, h₁⟩ := run_clean_add libc hr username hh
  obtain ⟨s₂, hs₂, h₂⟩ := run_add_clean libc hr username hh
  unfold AddAtomic CleanAtEnd
  simp only [hs₁, hs₂, Outcome.done.injEq, true_and, exists_eq_left', h₁, h₂]

/-! ### The tables at each boundary -/

/-- A clean of any sound tables, in a daemon that is otherwise ready. -/
theorem run_clean_withTables (hr : w.Ready tmp file timeout) {tb : Tables} (h : tb.Sound) :
    ∃ s, authTextClean.run (w.withTables tb) = .done () s ∧
      s.tables = tb.cleaned w.clock timeout ∧ s.clock = w.clock ∧ s.Publishes tmp file := by
  obtain ⟨s, hs, hpub⟩ := run_authTextClean (w := w.withTables tb) h (hr.publishes.withTables tb)
    hr.timeout
  refine ⟨s, hs, hpub.frame.tables, hpub.frame.clock, ?_, ?_, ?_⟩
  · exact (hpub.frame.conffileParam _).trans hr.publishes.authtemp
  · exact (hpub.frame.conffileParam _).trans hr.publishes.authfile
  · rw [hpub.writable]; exact hr.publishes.writable

/-- Appending an entry, sorting and publishing completes when the entry has a NUL. -/
theorem writes_appended_iff (hp : s.Publishes tmp file) {tb : Tables} (h : tb.Sound)
    (hlt : tb.authCur < tb.authMax) {q : (AuthEntry → Prop) → Prop} :
    (∃ s', authWriteText.run (s.withTables ((tb.appended x).qsort libc)) = .done () s' ∧
        q (· ∈ s'.tables.table)) ↔
      x.Terminated ∧ q fun e => e ∈ tb.table ∨ e = x := by
  have hlt' : tb.authCur < (tb.mem tb.auth).length := h.authSize ▸ hlt
  have hcur : (tb.appended x).authCur ≤ ((tb.appended x).mem (tb.appended x).auth).length := by
    simpa [Tables.appended, Tables.put] using Nat.succ_le_of_lt hlt'
  have hmem : ∀ e, e ∈ ((tb.appended x).qsort libc).table ↔ e ∈ tb.table ∨ e = x := fun e => by
    rw [Tables.table_qsort libc hcur, Tables.table_appended hlt', (libc.qsort_perm _ _).mem_iff,
      List.mem_append, List.mem_singleton]
  simp only [← hmem]
  constructor
  · rintro ⟨s', hs', hq⟩
    have hx : x.Terminated := by
      by_contra hu
      have hb := barred_authWriteText ((hmem x).mpr (Or.inr rfl)) hu
      exact hb.run_ne_done rfl () s' hs'
    have hS := (h.appended hlt hx).qsort libc
    obtain ⟨s'', hs'', hpub⟩ := run_authWriteText (hp.withTables _) (hS.authSize ▸ hS.curLe)
      hS.terminated
    obtain rfl : s' = s'' := by simpa using hs'.symm.trans hs''
    refine ⟨hx, ?_⟩
    have := hpub.frame.tables
    rwa [this] at hq
  · rintro ⟨hx, hq⟩
    have hS := (h.appended hlt hx).qsort libc
    obtain ⟨s', hs', hpub⟩ := run_authWriteText (hp.withTables _) (hS.authSize ▸ hS.curLe)
      hS.terminated
    refine ⟨s', hs', ?_⟩
    have := hpub.frame.tables
    rwa [this]

/-- The entry of the shadow block, grown as the call grows it, that a clean leaves behind
the entries it keeps. -/
def Tables.leftOver (tb : Tables) (t max : ℤ) : Option AuthEntry :=
  (tb.grow.mem tb.shadowAuth)[(tb.kept t max).length]?

/-- When the clean at this boundary does no harm. -/
def Between.Harmless (w : World) (host : CStr) (timeout : ℤ) : Between → Prop
  | lookupStore => ∃ t, w.tables.map host = some t ∧
      (t = w.clock ∨ timeout ≤ 0 ∧ timeout ≤ w.clock - t)
  | hostnameTime => ∃ x, w.tables.leftOver w.clock timeout = some x ∧ x.hostname = host
  | timeCount => ∃ x, w.tables.leftOver w.clock timeout = some x ∧
      (x = ⟨host, w.clock⟩ ∨ timeout ≤ 0 ∧ x ∈ w.tables.kept w.clock timeout)
  | lookupGrowth | growthHostname | countSort => True

theorem cleanAtEnd_kept_iff (hr : w.Ready tmp file timeout) {t : ℤ}
    (ht : w.tables.map host = some t) :
    CleanAtEnd w host timeout (· ∈ w.tables.kept w.clock timeout) ↔
      t = w.clock ∨ timeout ≤ 0 ∧ timeout ≤ w.clock - t := by
  have hhost : ∀ u, (⟨host, u⟩ : AuthEntry) ∈ w.tables.kept w.clock timeout ↔
      u = t ∧ w.clock - t < timeout := fun u => by
    rw [mem_kept_iff hr, ht, Option.some.injEq]
    constructor
    · rintro ⟨rfl, hlt⟩; exact ⟨rfl, hlt⟩
    · rintro ⟨rfl, hlt⟩; exact ⟨rfl, hlt⟩
  constructor
  · rintro (h | h)
    · have hnow := (hhost w.clock).mp ((h _).mpr (Or.inl rfl))
      exact Or.inl hnow.1.symm
    · by_cases hpos : 0 < timeout
      · have hnow := (hhost w.clock).mp ((h _).mpr (Or.inl ⟨rfl, hpos⟩))
        exact Or.inl hnow.1.symm
      · refine Or.inr ⟨by omega, ?_⟩
        by_contra hlt
        rcases (h ⟨host, t⟩).mp ((hhost t).mpr ⟨rfl, by omega⟩) with ⟨-, hpos'⟩ | ⟨-, hne⟩
        · exact hpos hpos'
        · exact hne rfl
  · intro h
    have hcase : ∀ e, e ∈ w.tables.kept w.clock timeout ↔
        (e = ⟨host, t⟩ ∧ w.clock - t < timeout) ∨
          e ∈ w.tables.kept w.clock timeout ∧ e.hostname ≠ host := fun ⟨k, u⟩ => by
      by_cases hk : k = host
      · subst hk
        rw [hhost]
        simp
      · simp [hk]
    by_cases hpos : 0 < timeout
    · obtain rfl : t = w.clock := by omega
      refine Or.inl fun e => (hcase e).trans (or_congr_left ?_)
      exact and_iff_left (by omega)
    · refine Or.inr fun e => (hcase e).trans (or_congr_left ?_)
      constructor
      · rintro ⟨-, hlt⟩; omega
      · rintro ⟨-, hlt⟩; exact absurd hlt hpos

theorem cleanAtEnd_concat_iff (hr : w.Ready tmp file timeout) (hn : w.tables.map host = none) :
    CleanAtEnd w host timeout (fun e => e ∈ w.tables.kept w.clock timeout ∨ e = x) ↔
      x = ⟨host, w.clock⟩ ∨ timeout ≤ 0 ∧ x ∈ w.tables.kept w.clock timeout := by
  have hne : ∀ e ∈ w.tables.kept w.clock timeout, e.hostname ≠ host := fun e he hk => by
    have hm := ((mem_kept_iff hr e).mp he).1
    rw [hk, hn] at hm
    cases hm
  have hnew : (⟨host, w.clock⟩ : AuthEntry) ∉ w.tables.kept w.clock timeout :=
    fun h => hne _ h rfl
  have hkeep : ∀ e, (e ∈ w.tables.kept w.clock timeout ∧ e.hostname ≠ host) ↔
      e ∈ w.tables.kept w.clock timeout := fun e => and_iff_left_of_imp (hne e)
  simp only [CleanAtEnd, CleanFirst, CleanLast, hkeep]
  constructor
  · rintro (h | h)
    · exact Or.inl (((h _).mpr (Or.inl rfl)).resolve_left hnew).symm
    · by_cases hpos : 0 < timeout
      · exact Or.inl (((h _).mpr (Or.inl ⟨rfl, hpos⟩)).resolve_left hnew).symm
      · refine Or.inr ⟨by omega, ?_⟩
        exact ((h x).mp (Or.inr rfl)).resolve_left fun h' => hpos h'.2
  · rintro (rfl | ⟨hle, hx⟩)
    · exact Or.inl fun e => or_comm
    · right
      intro e
      have hpos : ¬ 0 < timeout := by omega
      simp only [hpos, and_false, false_or]
      constructor
      · rintro (he | rfl)
        · exact he
        · exact hx
      · exact Or.inl

/-! ### Boundary by boundary -/

theorem addAtomic_lookupStore (hr : w.Ready tmp file timeout)
    (hh : host.length < matchLoginHostnameMax) (hp : (w.tables.authPresent libc host).isSome) :
    AddAtomic libc w username host .lookupStore ↔
      Between.lookupStore.Harmless w host timeout := by
  obtain ⟨p, hp⟩ := Option.isSome_iff_exists.mp hp
  obtain ⟨s, hs, htb, hclock, -⟩ := run_clean_withTables hr hr.wellFormed.toSound
  obtain ⟨h₁, -, e, he, -⟩ := Tables.authPresent_some hr.wellFormed hp
  obtain ⟨e', -, -, hmap⟩ := Tables.load_authPresent hr.wellFormed hh.le hp
  have hne : p.1 ≠ w.tables.shadowAuth := h₁ ▸ hr.wellFormed.blocks
  have hx : (s.tables.mem p.1)[p.2]? = some e := by
    rw [htb, ← he]
    simp only [Tables.cleaned, Function.update_of_ne hne]
  have htable : (s.tables.put p { e with t := s.clock }).table =
      w.tables.kept w.clock timeout := by
    rw [htb, ← Tables.table_cleaned]
    simp only [Tables.table, Tables.put, Tables.cleaned, Function.update_of_ne hne.symm]
  rw [addAtomic_iff hr hh, run_lookupStore hp hs hx]
  simp only [Outcome.done.injEq, true_and, exists_eq_left', World.tables_withTables, htable,
    cleanAtEnd_kept_iff hr hmap, Between.Harmless, hmap, Option.some.injEq, exists_eq_left']

/-- The state in which the clean leaves the daemon when it interrupts the call after the
growth: the next free entry is the left-over one. -/
structure Swapped (w : World) (tmp file : CStr) (timeout : ℤ) (x : AuthEntry) (s : World) :
    Prop where
  clock : s.clock = w.clock
  publishes : s.Publishes tmp file
  sound : s.tables.Sound
  table : s.tables.table = w.tables.kept w.clock timeout
  room : s.tables.authCur < s.tables.authMax
  free : (s.tables.mem s.tables.auth)[s.tables.authCur]? = some x
  leftOver : w.tables.leftOver w.clock timeout = some x

theorem exists_swapped (hr : w.Ready tmp file timeout) {tb : Tables} (h : tb.Sound)
    (htable : tb.table = w.tables.table) (hmax : tb.authMax = w.tables.grow.authMax)
    (hmem : tb.mem tb.shadowAuth = w.tables.grow.mem w.tables.shadowAuth) :
    ∃ s x, authTextClean.run (w.withTables tb) = .done () s ∧ Swapped w tmp file timeout x s := by
  obtain ⟨s, hs, htb, hclock, hpub⟩ := run_clean_withTables hr h
  have hkept : tb.kept w.clock timeout = w.tables.kept w.clock timeout := by
    rw [Tables.kept, htable, Tables.kept]
  have hlt : (w.tables.kept w.clock timeout).length < tb.authMax := by
    have hle : (w.tables.kept w.clock timeout).length ≤ w.tables.authCur :=
      (List.length_filter_le _ _).trans (Tables.length_table hr.wellFormed.fitted).le
    have hroom := Tables.authCur_lt_authMax_grow hr.wellFormed.fitted
    rw [Tables.authCur_grow] at hroom
    omega
  obtain ⟨x, hx⟩ : ∃ x, (tb.mem tb.shadowAuth)[(w.tables.kept w.clock timeout).length]? = some x :=
    ⟨_, List.getElem?_eq_getElem (h.shadowSize ▸ hlt)⟩
  have hfree := Tables.getElem?_cleaned tb w.clock timeout
  rw [hkept, hx, ← htb] at hfree
  refine ⟨s, x, hs, hclock, hpub, htb ▸ h.cleaned w.clock timeout, ?_, ?_, hfree,
    by rw [Tables.leftOver, ← hmem, hx]⟩
  · rw [htb, Tables.table_cleaned, hkept]
  · rw [htb]
    simpa only [Tables.cleaned, hkept] using hlt

section New

variable (hr : w.Ready tmp file timeout) (hh : host.length < matchLoginHostnameMax)
  (hp : w.tables.authPresent libc host = none)
include hr hh hp

theorem map_eq_none_of_absent : w.tables.map host = none := by
  have h := Tables.authPresent_isSome_iff libc hr.wellFormed hh.le
  rw [hp] at h
  exact Option.not_isSome_iff_eq_none.mp fun hs => by simpa using h.mpr hs

/-- A clean that leaves room for the call to append `x` in the swapped-in block. -/
theorem addAtomic_of_appended {b : Between} {tb : Tables} (hS : tb.Sound)
    (hlt : tb.authCur < tb.authMax) (hpub : s.Publishes tmp file)
    (htb : tb.table = w.tables.kept w.clock timeout)
    (hrun : (addInterrupted libc username host b).run w =
      authWriteText.run (s.withTables ((tb.appended x).qsort libc))) :
    AddAtomic libc w username host b ↔
      x = ⟨host, w.clock⟩ ∨ timeout ≤ 0 ∧ x ∈ w.tables.kept w.clock timeout := by
  rw [addAtomic_iff hr hh, hrun,
    writes_appended_iff (q := CleanAtEnd w host timeout) hpub hS hlt, htb,
    cleanAtEnd_concat_iff hr (map_eq_none_of_absent hr hh hp)]
  refine and_iff_right_of_imp ?_
  rintro (rfl | ⟨-, hx⟩)
  · exact hh
  · exact hr.wellFormed.terminated x (List.mem_filter.mp hx).1

theorem addAtomic_lookupGrowth : AddAtomic libc w username host .lookupGrowth := by
  obtain ⟨s, hs, htb, hclock, hpub⟩ := run_clean_withTables hr hr.wellFormed.toSound
  have hS : s.tables.Sound := htb ▸ hr.wellFormed.toSound.cleaned w.clock timeout
  refine (addAtomic_of_appended hr hh hp hS.grow (Tables.authCur_lt_authMax_grow hS.fitted) hpub ?_
    (run_lookupGrowth hp hs hS)).mpr ?_
  · rw [Tables.table_grow hS.fitted, htb, Tables.table_cleaned]
  · rw [hclock, strncpy_of_length_le hh.le]
    exact Or.inl rfl

theorem addAtomic_growthHostname : AddAtomic libc w username host .growthHostname := by
  have hS := hr.wellFormed.toSound
  obtain ⟨s, x, hs, h⟩ := exists_swapped hr hS.grow (Tables.table_grow hS.fitted) rfl
    (by rw [Tables.shadowAuth_grow])
  refine (addAtomic_of_appended hr hh hp h.sound h.room h.publishes h.table
    (run_growthHostname hp hs h.free)).mpr (Or.inl ?_)
  rw [h.clock, strncpy_of_length_le hh.le]

theorem addAtomic_hostnameTime :
    AddAtomic libc w username host .hostnameTime ↔
      Between.hostnameTime.Harmless w host timeout := by
  have hS := hr.wellFormed.toSound
  obtain ⟨x₀, hx₀⟩ := Tables.exists_getElem?_grow hS.fitted
  let e : AuthEntry := ⟨strncpy host matchLoginHostnameMax, x₀.t⟩
  obtain ⟨s, x, hs, h⟩ := exists_swapped hr (hS.grow.put_authCur e)
    ((Tables.table_put_authCur _ e).trans (Tables.table_grow hS.fitted)) rfl
    (by simp [Tables.put, hS.blocks.symm])
  rw [addAtomic_of_appended hr hh hp h.sound h.room h.publishes h.table
    (run_hostnameTime hp hx₀ hs h.free), h.clock]
  simp only [Between.Harmless, h.leftOver, Option.some.injEq, exists_eq_left', AuthEntry.mk.injEq,
    and_true, or_iff_left_iff_imp]
  -- an entry of this very second is kept only by a positive timeout
  rintro ⟨hle, hx⟩
  have hlt := ((mem_kept_iff hr _).mp hx).2
  dsimp only at hlt
  omega

theorem addAtomic_timeCount :
    AddAtomic libc w username host .timeCount ↔ Between.timeCount.Harmless w host timeout := by
  have hS := hr.wellFormed.toSound
  obtain ⟨x₀, hx₀⟩ := Tables.exists_getElem?_grow hS.fitted
  let e : AuthEntry := ⟨strncpy host matchLoginHostnameMax, w.clock⟩
  obtain ⟨s, x, hs, h⟩ := exists_swapped hr (hS.grow.put_authCur e)
    ((Tables.table_put_authCur _ e).trans (Tables.table_grow hS.fitted)) rfl
    (by simp [Tables.put, hS.blocks.symm])
  have hrun : (addInterrupted libc username host .timeCount).run w = _ := run_timeCount hp hx₀ hs
  rw [← Tables.appended_self h.free] at hrun
  rw [addAtomic_of_appended hr hh hp h.sound h.room h.publishes h.table hrun]
  simp only [Between.Harmless, h.leftOver, Option.some.injEq, exists_eq_left']

theorem addAtomic_countSort : AddAtomic libc w username host .countSort := by
  have hS := hr.wellFormed.toSound
  obtain ⟨x₀, hx₀⟩ := Tables.exists_getElem?_grow hS.fitted
  let e : AuthEntry := ⟨strncpy host matchLoginHostnameMax, w.clock⟩
  have he : e = ⟨host, w.clock⟩ := by simp only [e, strncpy_of_length_le hh.le]
  have hlt := Tables.authCur_lt_authMax_grow hS.fitted
  have hA : (w.tables.grow.appended e).Sound := hS.grow.appended hlt (by rw [he]; exact hh)
  obtain ⟨s, hs, htb, hclock, hpub⟩ := run_clean_withTables hr hA
  have hQ := ((htb ▸ hA.cleaned w.clock timeout : s.tables.Sound)).qsort libc
  obtain ⟨s', hs', hpub'⟩ := run_authWriteText (hpub.withTables _) (hQ.authSize ▸ hQ.curLe)
    hQ.terminated
  have htables : s'.tables = s.tables.qsort libc := hpub'.frame.tables
  have hC := hA.cleaned w.clock timeout
  refine (addAtomic_iff hr hh _).mpr ⟨s', (run_countSort hp hx₀ hs).trans hs', Or.inr ?_⟩
  have hn := map_eq_none_of_absent hr hh hp
  intro e'
  change e' ∈ s'.tables.table ↔ _
  rw [htables, htb, Tables.table_qsort libc (hC.authSize ▸ hC.curLe),
    (libc.qsort_perm _ _).mem_iff, Tables.table_cleaned, Tables.kept,
    Tables.table_appended (hS.grow.authSize ▸ hlt), Tables.table_grow hS.fitted, he,
    List.filter_append, List.mem_append, or_comm, CleanLast]
  refine or_congr ?_ (and_iff_left_of_imp fun hk heq => ?_).symm
  · simp only [List.mem_filter, List.mem_singleton, decide_eq_true_eq]
    refine and_congr_right ?_
    rintro rfl
    simp
  · have hm := ((mem_kept_iff hr e').mp hk).1
    rw [heq, hn] at hm
    cases hm

end New

/-- A hostname that does not fit is not added, whenever the clean comes. -/
theorem not_addAtomic_of_unfit (hr : w.Ready tmp file timeout)
    (hh : ¬ host.length < matchLoginHostnameMax) (b : Between) :
    ¬ AddAtomic libc w username host b := by
  rintro ⟨s, -, ⟨s', hs', -⟩ | ⟨s', hs', -⟩⟩
  · obtain ⟨s₁, hs₁, hc⟩ := run_clean hr
    rw [run_bind, hs₁, Outcome.bind_done] at hs'
    exact not_done_add libc hc.ready username hh s' hs'
  · obtain ⟨_, s₁, hs₁, -⟩ := done_of_bind hs'
    exact not_done_add libc hr username hh s₁ hs₁

theorem addAtomic_of_fits (libc : Libc) (hr : w.Ready tmp file timeout) (username : CStr)
    (hh : host.length < matchLoginHostnameMax) (b : Between)
    (hb : (w.tables.authPresent libc host).isSome ↔ b.Refreshing) :
    AddAtomic libc w username host b ↔ b.Harmless w host timeout := by
  by_cases hrf : b.Refreshing
  · obtain rfl : b = .lookupStore := hrf
    exact addAtomic_lookupStore hr hh (hb.mpr rfl)
  · have hp : w.tables.authPresent libc host = none :=
      Option.not_isSome_iff_eq_none.mp fun hs => hrf (hb.mp hs)
    cases b with
    | lookupStore => exact absurd rfl hrf
    | lookupGrowth => exact iff_of_true (addAtomic_lookupGrowth hr hh hp) trivial
    | growthHostname => exact iff_of_true (addAtomic_growthHostname hr hh hp) trivial
    | hostnameTime => exact addAtomic_hostnameTime hr hh hp
    | timeCount => exact addAtomic_timeCount hr hh hp
    | countSort => exact iff_of_true (addAtomic_countSort hr hh hp) trivial

/-- A clean at a boundary of the path that `auth_text_add` takes is as good as one at either end
of the call, exactly when the hostname fits and the clean is harmless there. -/
theorem addAtomic_iff_harmless (libc : Libc) (hr : w.Ready tmp file timeout) (username : CStr)
    (host : CStr) (b : Between) (hb : (w.tables.authPresent libc host).isSome ↔ b.Refreshing) :
    AddAtomic libc w username host b ↔
      host.length < matchLoginHostnameMax ∧ b.Harmless w host timeout := by
  by_cases hh : host.length < matchLoginHostnameMax
  · rw [and_iff_right hh]
    exact addAtomic_of_fits libc hr username hh b hb
  · exact iff_of_false (not_addAtomic_of_unfit hr hh b) fun h => hh h.1

/-- A fresh daemon, with nothing in its tables yet. -/
theorem exists_fresh (t : ℤ) :
    ∃ w, authInit.run (World.boot (textParam (cstr "60"))) = .done () w ∧
      (w.atClock t).Ready (cstr "tmp") (cstr "relay") 60 ∧
      (∀ host, host.length < matchLoginHostnameMax →
        w.tables.authPresent Libc.simple host = none) ∧
      w.tables.leftOver t 60 = some ⟨[], 0⟩ := by
  have hb := booted_textParam (cstr "60")
  rw [show atoi (cstr "60") = 60 by decide] at hb
  obtain ⟨w, flush, hw, hpub⟩ := run_authInit hb
  have hr := hpub.ready (hb.initialised flush)
  have htb : w.tables = (World.boot _).tables.initialised flush := hpub.frame.tables
  have htable : w.tables.table = [] := by rw [htb, Tables.table_initialised hb.authCur]
  have hgrow : w.tables.grow = w.tables := by
    rw [htb]
    exact Tables.grow_of_ne (by decide : (0 : ℕ) ≠ 16384)
  have hmem : w.tables.mem w.tables.shadowAuth = realloc [] 16384 fun _ => ⟨[], 0⟩ := by
    rw [htb]
    exact Tables.mem_shadowAuth_authInitMem hb.blocks
  refine ⟨w, hw, hr.atClock t, fun host hh => ?_, ?_⟩
  · have h := Tables.authPresent_isSome_iff Libc.simple hr.wellFormed hh.le
    rw [Tables.map, htable] at h
    exact Option.not_isSome_iff_eq_none.mp fun hs => by simpa [lookup] using h.mp hs
  · rw [Tables.leftOver, hgrow, hmem, Tables.kept, htable]
    exact Tables.getElem?_realloc_nil (by rw [List.filter_nil]; decide) _

theorem addAtomic_iff_harmless_new :
    ∃ w, authInit.run (World.boot (textParam (cstr "60"))) = .done () w ∧
      AddAtomic Libc.simple (w.atClock 100) (cstr "u") (cstr "a") .growthHostname := by
  obtain ⟨w, hw, hr, hnone, -⟩ := exists_fresh 100
  refine ⟨w, hw, (addAtomic_iff_harmless Libc.simple hr (cstr "u") (cstr "a") .growthHostname
    ?_).mpr ⟨by decide, trivial⟩⟩
  have hp : (w.atClock 100).tables.authPresent Libc.simple (cstr "a") = none :=
    hnone _ (by decide)
  rw [hp]
  simp [Between.Refreshing]

/-- The first login ever, interrupted before it is counted, is replaced by the empty
entry that the shadow block was allocated with. -/
theorem addAtomic_lost_login :
    ∃ w, authInit.run (World.boot (textParam (cstr "60"))) = .done () w ∧
      ¬ AddAtomic Libc.simple (w.atClock 100) (cstr "u") (cstr "a") .timeCount := by
  obtain ⟨w, hw, hr, hnone, hleft⟩ := exists_fresh 100
  refine ⟨w, hw, fun h => ?_⟩
  obtain ⟨x, hx, hor⟩ :=
    (addAtomic_timeCount hr (by decide : (cstr "a").length < 255) (hnone _ (by decide))).mp h
  obtain rfl : ⟨[], 0⟩ = x := Option.some.inj (hleft.symm.trans hx)
  rcases hor with heq | ⟨hle, -⟩
  · cases heq
  · exact absurd hle (by decide)

end ExactDaemon
