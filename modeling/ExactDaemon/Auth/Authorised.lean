import ExactDaemon.Auth.Server

/-! # Who is authorised

The sorted table is the finite map of leases, and a host is authorised by its
last login alone: neither the number of cleans nor their times matter, only the
clock of the last one.
-/

namespace ExactDaemon

open Prog

variable {libc : Libc} {w w₀ : World} {tmp file : CStr} {timeout : ℤ} {es : List (ℤ × AuthEvent)}

namespace Tables

variable {tb : Tables}

theorem map_eq_some_iff (h : tb.WellFormed) {host : CStr} {t : ℤ} :
    tb.map host = some t ↔ ⟨host, t⟩ ∈ tb.table := by
  rw [map, lookup_eq_some_iff (nodup_hostname h.ascending)]
  constructor
  · rintro ⟨e, he, rfl, rfl⟩; exact he
  · intro he; exact ⟨_, he, rfl, rfl⟩

theorem holds_iff (tb : Tables) (host : CStr) : tb.Holds host ↔ (tb.map host).isSome := by
  rw [Option.isSome_iff_ne_none, ne_eq, map, lookup_eq_none_iff, Holds]
  push Not
  rfl

/-- What `auth_present` points to is the host's entry. -/
theorem load_authPresent {libc : Libc} (h : tb.WellFormed) {host : CStr}
    (hh : host.length ≤ matchLoginHostnameMax) {p : ℕ × ℕ}
    (hp : tb.authPresent libc host = some p) :
    ∃ e, tb.load p = .ok e ∧ e.hostname = host ∧ tb.map host = some e.t := by
  obtain ⟨h₁, hlt, e, he, hk⟩ := authPresent_some h hp
  rw [strncpy_of_length_le hh] at hk
  refine ⟨e, load_ok he, hk, (map_eq_some_iff h).mpr ?_⟩
  rw [← hk]
  exact List.mem_of_getElem? ((getElem?_table hlt).trans (h₁ ▸ he))

end Tables

/-- In every reachable state the table is a strictly ascending listing of the map of
leases, `auth_present` is its lookup, and the calls are its update and restriction. -/
theorem table_refines_map (libc : Libc) (es : List (ℤ × AuthEvent))
    (hb : w₀.Booted tmp file timeout) (hf : ∀ e ∈ es, e.2.Fits) :
    ∃ w, (server libc es).run w₀ = .done () w ∧
      Ascending authCmp w.tables.table ∧
      (∀ host t, w.tables.map host = some t ↔ ⟨host, t⟩ ∈ w.tables.table) ∧
      w.tables.map = Lease.after timeout (leases es) ∧
      (∀ host, host.length < matchLoginHostnameMax →
        ((w.tables.authPresent libc host).isSome ↔ (w.tables.map host).isSome) ∧
        ∀ p, w.tables.authPresent libc host = some p →
          ∃ e, w.tables.load p = .ok e ∧ e.hostname = host ∧ w.tables.map host = some e.t) ∧
      (∀ t username host, host.length < matchLoginHostnameMax →
        ∃ s, (authTextAdd libc username host).run (w.atClock t) = .done () s ∧
          s.tables.map = Function.update w.tables.map host (some t)) ∧
      ∀ c, ∃ s, authTextClean.run (w.atClock c) = .done () s ∧
        s.tables.map = fun host => (w.tables.map host).filter fun t => c - t < timeout := by
  obtain ⟨w, hw, hr⟩ := run_server libc hb hf
  have hwf := hr.ready.wellFormed
  refine ⟨w, hw, hwf.ascending, fun _ _ => Tables.map_eq_some_iff hwf, hr.map, ?_, ?_, ?_⟩
  · intro host hh
    exact ⟨Tables.authPresent_isSome_iff libc hwf hh.le,
      fun p hp => Tables.load_authPresent hwf hh.le hp⟩
  · intro t username host hh
    obtain ⟨s, hs, hc⟩ := run_add libc (hr.ready.atClock t) username hh
    exact ⟨s, hs, hc.map⟩
  · intro c
    obtain ⟨s, hs, hc⟩ := run_clean (hr.ready.atClock c)
    exact ⟨s, hs, hc.map⟩

/-- The refinement on a history that adds, refreshes and cleans. -/
theorem table_refines_map_login :
    ∃ w, (server Libc.simple [(10, .add (cstr "u") (cstr "b")), (20, .add (cstr "v") (cstr "a")),
        (30, .add (cstr "u") (cstr "b")), (85, .clean)]).run
        (World.boot (textParam (cstr "60"))) = .done () w ∧
      w.tables.map (cstr "b") = some 30 ∧ w.tables.map (cstr "a") = none := by
  obtain ⟨w, hw, -, -, hm, -⟩ := table_refines_map Libc.simple [(10, .add (cstr "u") (cstr "b")),
    (20, .add (cstr "v") (cstr "a")), (30, .add (cstr "u") (cstr "b")), (85, .clean)]
    (booted_textParam (cstr "60")) (by decide)
  exact ⟨w, hw, by rw [hm]; decide, by rw [hm]; decide⟩

/-- Authorisation is decided by the login history alone. -/
theorem authorised_iff_last_login (libc : Libc) (es : List (ℤ × AuthEvent))
    (hb : w₀.Booted tmp file timeout) (hf : ∀ e ∈ es, e.2.Fits)
    (hc : es.Pairwise fun a b => a.1 ≤ b.1) :
    ∃ w, (server libc es).run w₀ = .done () w ∧
      (∀ pre c, es = pre ++ [(c, .clean)] → ∀ host, w.tables.Holds host ↔
        ∃ t, Lease.lastAdd (leases pre) host = some t ∧ c - t < timeout) ∧
      (∀ now, (∀ e ∈ es, e.1 ≤ now) → ∀ host t, Lease.lastAdd (leases es) host = some t →
        now - t < timeout → w.tables.Holds host) ∧
      (∀ host, w.tables.Holds host → (∃ t, Lease.lastAdd (leases es) host = some t) ∧
        ∀ pre c post, es = pre ++ (c, .clean) :: post →
          (∃ c' username, (c', .add username host) ∈ post) ∨
            ∃ t, Lease.lastAdd (leases pre) host = some t ∧ c - t < timeout) ∧
      (∀ pre c username host, es = pre ++ [(c, .add username host)] →
        w.tables.map host = some c) ∧
      ∀ es' : List (ℤ × AuthEvent), (∀ e ∈ es', e.2.Fits) →
        (es'.Pairwise fun a b => a.1 ≤ b.1) → ∀ pre pre' c,
        es = pre ++ [(c, .clean)] → es' = pre' ++ [(c, .clean)] →
        (leases pre).filter Lease.IsAdd = (leases pre').filter Lease.IsAdd →
        ∃ w', (server libc es').run w₀ = .done () w' ∧
          ∀ host, w.tables.Holds host ↔ w'.tables.Holds host := by
  obtain ⟨w, hw, hr⟩ := run_server libc hb hf
  have hholds : ∀ host, w.tables.Holds host ↔ (Lease.after timeout (leases es) host).isSome :=
    fun host => by rw [Tables.holds_iff, hr.map]
  have hchron : ∀ {es : List (ℤ × AuthEvent)}, (es.Pairwise fun a b => a.1 ≤ b.1) →
      Lease.Chronological (leases es) := fun h => List.pairwise_map.mpr h
  refine ⟨w, hw, ?_, ?_, ?_, ?_, ?_⟩
  · rintro pre c rfl host
    have hc' := hchron hc
    rw [leases_append] at hc'
    rw [hholds, leases_append]
    exact Lease.isSome_after_clean_iff hc'
  · intro now hnow host t hlast hlive
    refine (hholds host).mpr (Lease.isSome_after_of_live (fun e he => ?_) hlast hlive)
    obtain ⟨e', he', rfl⟩ := List.mem_map.mp he
    exact hnow e' he'
  · intro host hh
    have hs := (hholds host).mp hh
    constructor
    · obtain ⟨t, ht⟩ := Option.isSome_iff_exists.mp hs
      exact ⟨t, Lease.lastAdd_of_after ht⟩
    · rintro pre c post rfl
      rw [leases_append] at hs
      rcases Lease.isSome_after_since_clean hs with ⟨c', hadd⟩ | hlast
      · left
        obtain ⟨⟨c'', e⟩, he, heq⟩ := List.mem_map.mp hadd
        cases e with
        | clean => cases heq
        | add username host' => cases heq; exact ⟨_, username, he⟩
      · exact Or.inr hlast
  · rintro pre c username host rfl
    rw [hr.map, leases_append]
    exact (congrFun Lease.after_concat host).trans (Function.update_self _ _ _)
  · rintro es' hf' hc' pre pre' c rfl rfl hadds
    obtain ⟨w', hw', hr'⟩ := run_server libc hb hf'
    refine ⟨w', hw', fun host => ?_⟩
    have h₁ := hchron hc
    have h₂ := hchron hc'
    rw [leases_append] at h₁ h₂
    rw [hholds, Tables.holds_iff, hr'.map, leases_append, leases_append]
    exact Lease.isSome_after_clean_congr h₁ h₂ hadds

/-- A host that logs in again just in time survives the clean that would have
dropped it, and a host that does not is dropped on the second. -/
theorem authorised_iff_last_login_refreshed :
    ∃ w, (server Libc.simple [(0, .add (cstr "u") (cstr "a")), (0, .add (cstr "v") (cstr "b")),
        (59, .add (cstr "u") (cstr "a")), (60, .clean)]).run
        (World.boot (textParam (cstr "60"))) = .done () w ∧
      w.tables.Holds (cstr "a") ∧ ¬ w.tables.Holds (cstr "b") := by
  obtain ⟨w, hw, hiff, -⟩ := authorised_iff_last_login Libc.simple
    [(0, .add (cstr "u") (cstr "a")), (0, .add (cstr "v") (cstr "b")),
      (59, .add (cstr "u") (cstr "a")), (60, .clean)]
    (booted_textParam (cstr "60")) (by decide) (by decide)
  have hpre := hiff [(0, .add (cstr "u") (cstr "a")), (0, .add (cstr "v") (cstr "b")),
    (59, .add (cstr "u") (cstr "a"))] 60 rfl
  refine ⟨w, hw, (hpre _).mpr ⟨59, by decide, by decide⟩, fun hb => ?_⟩
  obtain ⟨t, ht, hlt⟩ := (hpre _).mp hb
  obtain rfl : 0 = t := Option.some.inj ht
  exact absurd hlt (by decide)

end ExactDaemon
