import ExactDaemon.Auth.Bounds
import ExactDaemon.Conf.Accepted
import ExactDaemon.Lib.Decimal
import ExactDaemon.Tail.Quiet

/-! # Timeout, flush and suspicious

`conffile_check` accepts the three periods if `atoi` makes a number other than 0 of each. A
sign, text behind the digits or more digits than an `int` has room for pass this check. With
plain numerals a host outlives the second in which it was added, the alarm is set to the
period that was configured, and a log is not opened again in the second in which it grew.
-/

namespace ExactDaemon

open Prog

/-- A numeral of decimal digits, in the range of an `int` and not 0. -/
def IsInterval (v : CStr) : Prop :=
  v ≠ [] ∧ (∀ b ∈ v, isdigit b = true) ∧ 1 ≤ digits v ∧ (digits v : ℤ) ≤ intMax

/-- Nothing but digits, and not too many. -/
def Unadorned (v : CStr) : Prop := (∀ b ∈ v, isdigit b = true) ∧ (digits v : ℤ) ≤ intMax

namespace World

/-- The values of the three parameters. -/
structure Intervals (vt vf vs : CStr) (w : World) : Prop where
  timeout : w.conffileParam (cstr "timeout") = some vt
  flush : w.conffileParam (cstr "flush") = some vf
  suspicious : w.conffileParam (cstr "suspicious") = some vs

/-- The loop of `conffile_check` over the three parameters returns. -/
def AcceptsIntervals (w : World) : Prop :=
  (requiredI.forM fun name => attempt (requireInt name)).run w = .done () w

/-- Where the stream stands, and the length of its file. -/
def position (w : World) (fd : ℕ) : ℕ := (w.fs.stream fd).pos
def logLength (w : World) (fd : ℕ) : ℕ := (w.fs.data (w.fs.stream fd).ino).length

/-- The log was found to have grown in this second, or is found so now. -/
def GrewNow (fd : ℕ) (w : World) : Prop :=
  w.tail.last = w.clock ∨ w.position fd < w.logLength fd

end World

/-- The three values are numerals of periods, and the periods are kept: a host that was added
survives a clean in the same second, the alarm is set to the number of seconds of `flush`, and
of a log that has grown in this second the new bytes are taken, without opening it again. -/
structure SaneIntervals (vt vf vs : CStr) : Prop where
  numerals : IsInterval vt ∧ IsInterval vf ∧ IsInterval vs
  survives : ∀ (libc : Libc) username host w u v, World.Intervals vt vf vs w →
    w.tables.Steady → (authTextAdd libc username host).run w = .done () u →
    authTextClean.run u = .done () v →
    ∃ e ∈ v.tables.table, e.hostname = strncpy host matchLoginHostnameMax
  init : ∀ w u, World.Intervals vt vf vs w → authInit.run w = .done () u →
    (u.alarm : ℤ) = digits vf ∧ u.tables.authAlarm = atoi vf
  clean : ∀ w u, w.tables.Steady → w.tables.authAlarm = atoi vf →
    authClean.run w = .done () u → (u.alarm : ℤ) = digits vf
  growth : ∀ fd w, World.Intervals vt vf vs w → w.tail.f = some fd → w.GrewNow fd →
    tailRead.run w = (tailTake fd (w.position fd) (w.logLength fd)).run
      (w.noteGrowth (w.position fd) (w.logLength fd))

variable {lib : RegexLib} {libc : Libc} {w u v : World} {vt vf vs s username host : CStr} {fd : ℕ}

/-! ### Numerals -/

theorem IsInterval.unadorned (h : IsInterval s) : Unadorned s := ⟨h.2.1, h.2.2.2⟩

theorem Unadorned.atoi_eq (h : Unadorned s) : atoi s = digits s := by
  cases s with
  | nil => decide
  | cons b s =>
    have hmax := h.2
    rw [atoi, strtol_digit (h.1 b List.mem_cons_self)]
    unfold intMax at hmax
    unfold longMax uintRange
    rw [max_eq_right (by omega), min_eq_right (by omega)]
    exact Int.bmod_eq_of_le (by omega) (by omega)

/-- An accepted value of digits only. -/
theorem Unadorned.isInterval (h : Unadorned s) (hne : atoi s ≠ 0) : IsInterval s := by
  rw [h.atoi_eq] at hne
  refine ⟨?_, h.1, by omega, h.2⟩
  rintro rfl
  exact hne rfl

/-! ### What is accepted -/

theorem acceptsIntervals_iff (hw : w.Intervals vt vf vs) :
    w.AcceptsIntervals ↔ atoi vt ≠ 0 ∧ atoi vf ≠ 0 ∧ atoi vs ≠ 0 := by
  have hvalue : ∀ {name v}, w.conffileParam name = some v →
      (w.requireInt name = .ok ((), w) ↔ atoi v ≠ 0) := by
    intro name v hv
    simp only [World.requireInt, hv]
    split
    · next h => exact iff_of_false (by simp) (by simp [h])
    · next h => exact iff_of_true rfl h
  constructor
  · intro h
    obtain ⟨-, hall⟩ := forM_done (fun _ _ _ _ => requireInt_same) h
    exact ⟨(hvalue hw.timeout).mp (hall _ (by decide)), (hvalue hw.flush).mp (hall _ (by decide)),
      (hvalue hw.suspicious).mp (hall _ (by decide))⟩
  · rintro ⟨ht, hf, hs⟩
    refine run_forM ?_
    simp only [requiredI, List.forall_mem_cons]
    exact ⟨(hvalue hw.timeout).mpr ht, (hvalue hw.flush).mpr hf, (hvalue hw.suspicious).mpr hs,
      List.forall_mem_nil _⟩

/-- What `conffile_check` as a whole accepts has passed the loop. -/
theorem acceptsIntervals_of_check (h : (conffileCheck lib).run w = .done () u) :
    w.AcceptsIntervals := by
  obtain ⟨_, w₁, hw₁, hrest⟩ := done_of_bind h
  obtain ⟨_, w₂, hw₂, -⟩ := done_of_bind hrest
  obtain ⟨rfl, -⟩ := forM_done (fun _ _ _ _ => require_same) hw₁
  obtain ⟨rfl, -⟩ := forM_done (fun _ _ _ _ => requireInt_same) hw₂
  exact hw₂

/-! ### The periods are kept -/

/-- What `auth_text_add` leaves when it returns. -/
theorem added_of_run (h : w.tables.Steady)
    (hr : (authTextAdd libc username host).run w = .done () u) :
    u.tables.Steady ∧
      ∃ e ∈ u.tables.table, e.hostname = strncpy host matchLoginHostnameMax ∧ e.t = w.clock := by
  refine ⟨steady_call libc h (.add username host) hr, ?_⟩
  cases hp : w.tables.authPresent libc host with
  | some p =>
    obtain ⟨i, hi, rfl⟩ := Option.map_eq_some_iff.mp hp
    obtain ⟨e, he, hk⟩ := libc.bsearch_some comparison_authCmp h.sorted hi
    have hlt : i < w.tables.table.length := (List.getElem?_eq_some_iff.mp he).1
    have hm : (w.tables.mem w.tables.auth)[i]? = some e := by
      rw [← Tables.getElem?_table (Tables.length_table h.toFitted ▸ hlt), he]
    rw [run_authTextAdd_present hp hm] at hr
    cases hr
    refine ⟨{ e with t := w.clock }, ?_, (strcmp_eq_zero.mp hk).symm, rfl⟩
    rw [World.tables_withTables, Tables.table_put]
    exact List.mem_set hlt _
  | none =>
    rw [run_authTextAdd_absent h.toFitted hp] at hr
    rw [(keeps_authWriteText_tables _).run_done rfl hr]
    refine ⟨⟨strncpy host matchLoginHostnameMax, w.clock⟩, ?_, rfl, rfl⟩
    change _ ∈ (w.tables.inserted libc _).table
    rw [Tables.table_inserted libc h.toFitted, (libc.qsort_perm _ _).mem_iff]
    exact List.mem_append_right _ (List.mem_singleton_self _)

theorem IsInterval.survives (h : IsInterval vt) (hw : w.Intervals vt vf vs)
    (hsteady : w.tables.Steady) (hadd : (authTextAdd libc username host).run w = .done () u)
    (hclean : authTextClean.run u = .done () v) :
    ∃ e ∈ v.tables.table, e.hostname = strncpy host matchLoginHostnameMax := by
  obtain ⟨hu, e, he, hhost, ht⟩ := added_of_run hsteady hadd
  obtain ⟨hconf, hclock⟩ : u.conf = w.conf ∧ u.clock = w.clock :=
    (keeps_authTextAdd (J := fun u => u.conf = w.conf ∧ u.clock = w.clock) (fun _ _ hJ => hJ)
      (fun _ _ ho _ hJ => ⟨ho.conf.trans hJ.1, ho.clock.trans hJ.2⟩) libc username host).run_done
      ⟨rfl, rfl⟩ hadd
  have hmax : u.conffileParamInt (cstr "timeout") = .ok (atoi vt) := by
    rw [World.conffileParamInt, World.conffileParam, hconf, ← World.conffileParam, hw.timeout]
  rw [run_authTextClean_eq hu.toFitted hmax] at hclean
  rw [(keeps_authWriteText_tables _).run_done rfl hclean]
  refine ⟨e, ?_, hhost⟩
  rw [World.tables_withTables, Tables.table_cleaned]
  refine List.mem_filter.mpr ⟨he, decide_eq_true ?_⟩
  rw [ht, hclock, h.unadorned.atoi_eq]
  have hpos := h.2.2.1
  omega

/-- The seconds of the alarm, as long as they fit an `int`. -/
theorem alarm_setAlarm {n : ℕ} (hn : (n : ℤ) ≤ intMax) : ((w.setAlarm n).alarm : ℤ) = n := by
  unfold intMax at hn
  unfold World.setAlarm uintRange
  dsimp only
  omega

theorem IsInterval.init (h : IsInterval vf) (hw : w.Intervals vt vf vs)
    (hr : authInit.run w = .done () u) :
    (u.alarm : ℤ) = digits vf ∧ u.tables.authAlarm = atoi vf := by
  have hf : w.conffileParamInt (cstr "flush") = .ok (atoi vf) := by
    rw [World.conffileParamInt, hw.flush]
  rw [run_authInit_eq hf] at hr
  have hset : (w.initialised (atoi vf)).alarm = ((digits vf : ℤ) % uintRange).toNat := by
    rw [← h.unadorned.atoi_eq]
    rfl
  obtain ⟨halarm, htables⟩ : u.alarm = (w.initialised (atoi vf)).alarm ∧
      u.tables = (w.initialised (atoi vf)).tables :=
    (keeps_authWriteText (J := fun u => u.alarm = (w.initialised (atoi vf)).alarm ∧
      u.tables = (w.initialised (atoi vf)).tables) fun _ _ ho _ hJ =>
        ⟨ho.alarm.trans hJ.1, ho.tables.trans hJ.2⟩).run_done ⟨rfl, rfl⟩ hr
  refine ⟨?_, by rw [htables]; rfl⟩
  rw [halarm, hset]
  exact alarm_setAlarm (w := w) h.2.2.2

/-- `auth_text_clean` does not touch the period of the alarm. -/
theorem authAlarm_of_clean (hsteady : w.tables.Steady) (hr : authTextClean.run w = .done () u) :
    u.tables.authAlarm = w.tables.authAlarm := by
  cases hmax : w.conffileParamInt (cstr "timeout") with
  | error e =>
    unfold authTextClean at hr
    rw [run_bind, run_read, Outcome.bind_done, run_bind, run_attempt, hmax] at hr
    cases hr
  | ok max =>
    rw [run_authTextClean_eq hsteady.toFitted hmax] at hr
    rw [(keeps_authWriteText_tables _).run_done rfl hr]
    rfl

theorem IsInterval.clean (h : IsInterval vf) (hsteady : w.tables.Steady)
    (ha : w.tables.authAlarm = atoi vf) (hr : authClean.run w = .done () u) :
    (u.alarm : ℤ) = digits vf := by
  obtain ⟨_, v, hv, hset⟩ := done_of_bind hr
  obtain rfl : v.setAlarm v.tables.authAlarm = u := by
    cases hset
    rfl
  rw [authAlarm_of_clean hsteady hv, ha, h.unadorned.atoi_eq]
  exact alarm_setAlarm h.2.2.2

theorem IsInterval.growth (h : IsInterval vs) (hw : w.Intervals vt vf vs)
    (hf : w.tail.f = some fd) (hg : w.GrewNow fd) :
    tailRead.run w = (tailTake fd (w.position fd) (w.logLength fd)).run
      (w.noteGrowth (w.position fd) (w.logLength fd)) := by
  have hs : w.conffileParamInt (cstr "suspicious") = .ok (atoi vs) := by
    rw [World.conffileParamInt, hw.suspicious]
  have hlast : (w.noteGrowth (w.position fd) (w.logLength fd)).tail.last = w.clock := by
    unfold World.noteGrowth
    rcases hg with hlast | hlt
    · split
      · rfl
      · exact hlast
    · rw [if_pos (by omega)]
      rfl
  rw [run_tailRead_open hf hs rfl rfl, if_neg]
  · rfl
  · have hpos := h.2.2.1
    have hzero : w.clock - (w.noteGrowth (w.position fd) (w.logLength fd)).tail.last = 0 := by
      rw [hlast, sub_self]
    rw [h.unadorned.atoi_eq]
    change ¬ w.clock - (w.noteGrowth (w.position fd) (w.logLength fd)).tail.last > _
    omega

/-! ### What the check lets through -/

theorem IsInterval.sane (ht : IsInterval vt) (hf : IsInterval vf) (hs : IsInterval vs) :
    SaneIntervals vt vf vs where
  numerals := ⟨ht, hf, hs⟩
  survives _ _ _ _ _ _ hw hsteady hadd hclean := ht.survives hw hsteady hadd hclean
  init _ _ hw hr := hf.init hw hr
  clean _ _ hsteady ha hr := hf.clean hsteady ha hr
  growth _ _ hw hopen hg := hs.growth hw hopen hg

/-- A process that knows only these three values. -/
def withIntervals (vt vf vs : CStr) : World :=
  World.boot [⟨cstr "timeout", vt, false⟩, ⟨cstr "flush", vf, false⟩,
    ⟨cstr "suspicious", vs, false⟩]

theorem intervals_withIntervals (vt vf vs : CStr) :
    (withIntervals vt vf vs).Intervals vt vf vs := ⟨rfl, rfl, rfl⟩

/-- The periods that `conffile_check` accepts are sane if and only if it rejects one of them,
as `atoi` makes 0 of it, or each is written with digits only and fits an `int`. -/
theorem saneIntervals_iff (vt vf vs : CStr) :
    (∀ w, World.Intervals vt vf vs w → w.AcceptsIntervals → SaneIntervals vt vf vs) ↔
      (atoi vt = 0 ∨ atoi vf = 0 ∨ atoi vs = 0) ∨
        (Unadorned vt ∧ Unadorned vf ∧ Unadorned vs) := by
  constructor
  · intro h
    by_cases hzero : atoi vt = 0 ∨ atoi vf = 0 ∨ atoi vs = 0
    · exact .inl hzero
    · rw [not_or, not_or] at hzero
      have hw := intervals_withIntervals vt vf vs
      obtain ⟨ht, hf, hs⟩ := (h _ hw ((acceptsIntervals_iff hw).mpr hzero)).numerals
      exact .inr ⟨ht.unadorned, hf.unadorned, hs.unadorned⟩
  · intro h w hw haccepts
    obtain ⟨ht, hf, hs⟩ := (acceptsIntervals_iff hw).mp haccepts
    rcases h with (h | h | h) | ⟨hvt, hvf, hvs⟩
    · exact absurd h ht
    · exact absurd h hf
    · exact absurd h hs
    · exact (hvt.isInterval ht).sane (hvf.isInterval hf) (hvs.isInterval hs)

/-- A timeout of -1 is accepted. -/
theorem accepts_negative :
    ¬ ∀ w, World.Intervals (cstr "-1") (cstr "60") (cstr "60") w → w.AcceptsIntervals →
      SaneIntervals (cstr "-1") (cstr "60") (cstr "60") := by
  intro h
  have hw := intervals_withIntervals (cstr "-1") (cstr "60") (cstr "60")
  have haccepts := (acceptsIntervals_iff hw).mpr (by decide)
  exact absurd ((h _ hw haccepts).numerals.1.2.1 45 (by decide)) (by decide)

end ExactDaemon
