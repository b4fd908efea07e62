import ExactDaemon.Auth.Db
import ExactDaemon.Auth.RelayFile

/-! # Two backends, one history

The text backend and the database backend are given the same events. They
authorise the same hosts as long as each sweep of the database, which compares
the clock with addresses, comes out as a comparison with the times of the logins.
-/

namespace ExactDaemon

open Prog

/-- The keys of the database are the hosts of the table. -/
def SameHosts (stored : Bytes → Option ℤ) (t : World) : Prop :=
  ∀ key, (stored key).isSome ↔ ∃ host, t.tables.Holds host ∧ key = hostnameKey host

/-- At each clean, for every host with a login left to judge, the comparison with the address of
its record comes out as the text backend's comparison with the time of the login. -/
def SweepsRight (address : ℕ → Bytes → ℤ) (timeout : ℤ) (es : List (ℤ × AuthEvent)) : Prop :=
  ∀ pre c post, es = pre ++ (c, .clean) :: post →
    ∀ host t, Lease.after timeout (leases pre) host = some t →
      (timeout < c - address pre.length (hostnameKey host) ↔ timeout ≤ c - t)

def AuthEvent.keys : AuthEvent → List Bytes
  | add _ hostname => [hostnameKey hostname]
  | clean => []

/-- The keys that a history stores under. -/
def keysOf (es : List (ℤ × AuthEvent)) : List Bytes := es.flatMap fun e => e.2.keys

/-- The database daemon after a history that it handled as the text daemon would. -/
structure Mirrored {δ : Type} (stored : δ → Bytes → Option ℤ) (timeout : ℤ)
    (es : List (ℤ × AuthEvent)) (s : Backed δ) : Prop where
  conf : s.world.conffileParamInt (cstr "timeout") = .ok timeout
  key : ∀ key, (stored s.db key).isSome → key ∈ keysOf es
  map : ∀ host, stored s.db (hostnameKey host) = Lease.after timeout (leases es) host

variable {δ κ : Type} {lib : CursorDb δ κ Bytes ℤ} {stored : δ → Bytes → Option ℤ}
  {ahead : κ → δ → List Bytes} {address : ℕ → Bytes → ℤ} {n k : ℕ}
  {libc : Libc} {w w₀ t : World} {tmp file : CStr} {timeout c : ℤ}
  {es es' : List (ℤ × AuthEvent)} {s s' : Backed δ} {d d' : δ} {host : CStr}

theorem keysOf_append (es es' : List (ℤ × AuthEvent)) :
    keysOf (es ++ es') = keysOf es ++ keysOf es' := List.flatMap_append

theorem exists_host_of_mem_keysOf {key : Bytes} (h : key ∈ keysOf es) :
    ∃ host, key = hostnameKey host := by
  obtain ⟨⟨c, e⟩, -, hk⟩ := List.mem_flatMap.mp h
  cases e with
  | add username host => exact ⟨host, List.mem_singleton.mp hk⟩
  | clean => cases hk

theorem length_keysOf_le (es : List (ℤ × AuthEvent)) : (keysOf es).length ≤ es.length := by
  induction es with
  | nil => exact Nat.le_refl 0
  | cons e es ih =>
    obtain ⟨c, e⟩ := e
    rw [keysOf, List.flatMap_cons, List.length_append, List.length_cons]
    change e.keys.length + (keysOf es).length ≤ _
    have he : e.keys.length ≤ 1 := by cases e <;> simp [AuthEvent.keys]
    omega

theorem SweepsRight.of_append (h : SweepsRight address timeout (es ++ es')) :
    SweepsRight address timeout es := by
  rintro pre c post rfl
  exact h pre c (post ++ es') (by simp)

namespace Mirrored

theorem sameHosts (hs : Mirrored stored timeout es s) (ht : Reached tmp file timeout es t) :
    SameHosts (stored s.db) t := by
  have hholds : ∀ host, (stored s.db (hostnameKey host)).isSome ↔ t.tables.Holds host := by
    intro host
    rw [hs.map, Tables.holds_iff, ht.map]
  intro key
  constructor
  · intro hk
    obtain ⟨host, rfl⟩ := exists_host_of_mem_keysOf (hs.key key hk)
    exact ⟨host, (hholds host).mp hk, rfl⟩
  · rintro ⟨host, hh, rfl⟩
    exact (hholds host).mpr hh

/-- The loop of a clean has a round for each record. -/
theorem length_ahead_le (hlib : lib.Documented stored ahead) (hs : Mirrored stored timeout es s) :
    (ahead (lib.cursor s.db).1 (lib.cursor s.db).2).length ≤ es.length := by
  refine Nat.le_trans ?_ (length_keysOf_le es)
  refine (List.subperm_of_subset (hlib.cursor_nodup s.db) fun key hk => ?_).length_le
  exact hs.key key ((hlib.mem_cursor s.db key).mp hk)

/-! ### One event -/

theorem add (hlib : lib.Documented stored ahead) (hs : Mirrored stored timeout es s) (c : ℤ)
    (username host : CStr) :
    ∃ s', (dbHistory lib address n k [(c, .add username host)]).run s = .done () s' ∧
      Mirrored stored timeout (es ++ [(c, .add username host)]) s' := by
  refine ⟨⟨s.world.atClock c, lib.put (hostnameKey host) c s.db⟩, rfl, hs.conf, ?_, ?_⟩
  · intro key hk
    rw [keysOf_append]
    rw [hlib.put] at hk
    by_cases hkey : key = hostnameKey host
    · exact List.mem_append_right _ (List.mem_singleton.mpr hkey)
    · rw [Function.update_of_ne hkey] at hk
      exact List.mem_append_left _ (hs.key key hk)
  · intro host'
    rw [hlib.put, leases_append]
    refine Eq.trans ?_ (congrFun Lease.after_concat.symm host')
    change _ = Function.update (Lease.after timeout (leases es)) host (some c) host'
    by_cases hh : host' = host
    · subst hh
      rw [Function.update_self, Function.update_self]
    · rw [Function.update_of_ne hh, Function.update_of_ne fun he => hh (hostnameKey_injective he),
        hs.map]

/-- A clean keeps what is not older than the timeout by its address. -/
theorem run_clean (hlib : lib.Documented stored ahead) (hs : Mirrored stored timeout es s)
    (hn : es.length < n) (address : ℕ → Bytes → ℤ) (k : ℕ) (c : ℤ) :
    ∃ d, (dbHistory lib address n k [(c, .clean)]).run s = .done () ⟨s.world.atClock c, d⟩ ∧
      ∀ key, stored d key =
        if timeout < c - address k key then none else stored s.db key := by
  obtain ⟨d, hd, hstored⟩ := hlib.sweep (address k) (fun a => decide (timeout < c - a))
    (Nat.lt_of_le_of_lt (hs.length_ahead_le hlib) hn) (hlib.cursor_nodup s.db)
  refine ⟨d, ?_, fun key => ?_⟩
  · have hrun := Backed.run_authDbClean (w := s.world.atClock c) (d := s.db) hs.conf hd
    simp only [dbHistory, AuthEvent.dbCall]
    rw [run_zoom_bind (l := Backed.toWorld) (run_modify _ _), run_bind]
    change Outcome.bind ((Backed.authDbClean lib (address k) n).run ⟨s.world.atClock c, s.db⟩) _ = _
    rw [hrun]
    rfl
  · simp only [hstored, hlib.mem_cursor, hlib.cursor_stored, decide_eq_true_eq]
    cases hk : stored s.db key with
    | none => simp
    | some t => simp

theorem clean (hlib : lib.Documented stored ahead) (hs : Mirrored stored timeout es s)
    (hn : es.length < n)
    (hright : SweepsRight address timeout (es ++ [(c, .clean)])) :
    ∃ s', (dbHistory lib address n es.length [(c, .clean)]).run s = .done () s' ∧
      Mirrored stored timeout (es ++ [(c, .clean)]) s' := by
  obtain ⟨d, hd, hstored⟩ := hs.run_clean hlib hn address es.length c
  refine ⟨_, hd, hs.conf, fun key hk => ?_, fun host => ?_⟩
  · rw [keysOf_append]
    refine List.mem_append_left _ (hs.key key ?_)
    rw [hstored] at hk
    split at hk
    · cases hk
    · exact hk
  · rw [hstored, leases_append]
    change _ = Lease.after timeout (leases es ++ [(c, .clean)]) host
    rw [Lease.after_concat_clean, hs.map]
    cases ha : Lease.after timeout (leases es) host with
    | none => simp
    | some t =>
      have hiff := hright es c [] rfl host t ha
      rw [Option.filter_some]
      by_cases ht : timeout ≤ c - t
      · rw [if_pos (hiff.mpr ht), if_neg (by simpa using ht)]
      · rw [if_neg fun hlt => ht (hiff.mp hlt), if_pos (by simpa using ht)]

/-- A clean after which the backends agree judged every login rightly. -/
theorem sweepsRight (hlib : lib.Documented stored ahead) (hs : Mirrored stored timeout es s)
    (hn : es.length < n) (hright : SweepsRight address timeout es)
    (hrun : (dbHistory lib address n es.length [(c, .clean)]).run s = .done () s')
    (ht : Reached tmp file timeout (es ++ [(c, .clean)]) t) (hsame : SameHosts (stored s'.db) t) :
    SweepsRight address timeout (es ++ [(c, .clean)]) := by
  obtain ⟨d, hd, hstored⟩ := hs.run_clean hlib hn address es.length c
  obtain rfl := (Outcome.done.inj (hd.symm.trans hrun)).2
  intro pre c' post he host u hu
  rcases List.eq_nil_or_concat post with rfl | ⟨post', e', rfl⟩
  · obtain ⟨rfl, hlast⟩ := List.append_inj' he rfl
    cases hlast
    have hkept : (stored d (hostnameKey host)).isSome ↔
        ¬ timeout < c - address es.length (hostnameKey host) := by
      rw [hstored, hs.map, hu]
      split <;> simp [*]
    have hheld : t.tables.Holds host ↔ c - u < timeout := by
      rw [Tables.holds_iff, ht.map, leases_append]
      change (Lease.after timeout (leases es ++ [(c, .clean)]) host).isSome ↔ _
      rw [Lease.after_concat_clean, hu]
      simp
    have hiff : (stored d (hostnameKey host)).isSome ↔ t.tables.Holds host := by
      refine (hsame _).trans ⟨?_, fun hh => ⟨host, hh, rfl⟩⟩
      rintro ⟨host', hh, heq⟩
      rwa [hostnameKey_injective heq]
    have := (hkept.symm.trans hiff).trans hheld
    omega
  · rw [List.concat_eq_append, ← List.cons_append, ← List.append_assoc] at he
    exact hright pre c' post' (List.append_inj' he rfl).1 host u hu

end Mirrored

/-! ### Whole histories -/

theorem mirrored_of_sweepsRight (hlib : lib.Documented stored ahead)
    (hb : w₀.Booted tmp file timeout) (hd : ∀ key, stored d key = none)
    (hn : es.length < n) (h : SweepsRight address timeout es) :
    ∃ s, (dbHistory lib address n 0 es).run ⟨w₀, d⟩ = .done () s ∧
      Mirrored stored timeout es s := by
  induction es using List.reverseRecOn with
  | nil =>
    refine ⟨⟨w₀, d⟩, rfl, hb.timeout, fun key hk => ?_, fun host => hd _⟩
    rw [hd] at hk
    cases hk
  | append_singleton es e ih =>
    have hlen : es.length < n := by
      rw [List.length_append] at hn
      omega
    obtain ⟨s, hs, hm⟩ := ih hlen h.of_append
    obtain ⟨c, e⟩ := e
    rw [dbHistory_append, run_bind, hs, Outcome.bind_done, Nat.zero_add]
    cases e with
    | add username host => exact hm.add hlib c username host
    | clean => exact hm.clean hlib hlen h

/-- Agreement after a clean shows that it judged rightly. -/
theorem sweepsRight_of_agree (es : List (ℤ × AuthEvent)) (hlib : lib.Documented stored ahead)
    (hb : w₀.Booted tmp file timeout) (hd : ∀ key, stored d key = none) (hn : es.length < n)
    (hf : ∀ e ∈ es, e.2.Fits) (hright : SweepsRight address timeout es)
    (ht : (server libc (es ++ [(c, .clean)])).run w₀ = .done () t)
    (hs' : (dbHistory lib address n 0 (es ++ [(c, .clean)])).run ⟨w₀, d⟩ = .done () s')
    (hsame : SameHosts (stored s'.db) t) : SweepsRight address timeout (es ++ [(c, .clean)]) := by
  obtain ⟨w, hw, hreached⟩ := run_server libc hb hf
  obtain ⟨t', ht', hreached'⟩ := hreached.step (e := .clean) libc c trivial
  obtain ⟨s, hs, hm⟩ := mirrored_of_sweepsRight hlib hb hd hn hright
  rw [server_append, run_bind, hw, Outcome.bind_done] at ht
  rw [dbHistory_append, run_bind, hs, Outcome.bind_done, Nat.zero_add] at hs'
  obtain rfl : t = t' := by simpa using ht.symm.trans ht'
  exact hm.sweepsRight hlib hn hright hs' hreached' hsame

/-- The backends authorise the same hosts throughout a history, exactly when every
hostname fits its array and every clean judges as the text backend does. The library
does what is documented; the loop of a clean has more rounds than there are events. -/
theorem backends_agree_iff (libc : Libc) (es : List (ℤ × AuthEvent)) (address : ℕ → Bytes → ℤ)
    (hlib : lib.Documented stored ahead) (hb : w₀.Booted tmp file timeout)
    (hd : ∀ key, stored d key = none) (hn : es.length < n) :
    (∀ pre, pre <+: es → ∃ t s, (server libc pre).run w₀ = .done () t ∧
        (dbHistory lib address n 0 pre).run ⟨w₀, d⟩ = .done () s ∧ SameHosts (stored s.db) t) ↔
      (∀ e ∈ es, e.2.Fits) ∧ SweepsRight address timeout es := by
  constructor
  · intro h
    induction es using List.reverseRecOn with
    | nil => exact ⟨by simp, fun pre c post he => by simp at he⟩
    | append_singleton es e ih =>
      have hlen : es.length < n := by
        rw [List.length_append] at hn
        omega
      obtain ⟨hf, hright⟩ := ih hlen fun pre hpre => h pre (hpre.trans (List.prefix_append _ _))
      obtain ⟨w, hw, hreached⟩ := run_server libc hb hf
      obtain ⟨t, s', ht, hs', hsame⟩ := h _ List.prefix_rfl
      have hfit : e.2.Fits := by
        rw [server_append, run_bind, hw, Outcome.bind_done] at ht
        by_contra hnf
        exact not_done_unfit libc hreached.ready hnf t ht
      constructor
      · intro e' he'
        rcases List.mem_append.mp he' with hm' | hm'
        · exact hf e' hm'
        · exact List.mem_singleton.mp hm' ▸ hfit
      · obtain ⟨c, e⟩ := e
        cases e with
        | add username host =>
          intro pre c' post he
          rcases List.eq_nil_or_concat post with rfl | ⟨post', e', rfl⟩
          · cases (List.append_inj' he rfl).2
          · rw [List.concat_eq_append, ← List.cons_append, ← List.append_assoc] at he
            exact hright pre c' post' (List.append_inj' he rfl).1
        | clean => exact sweepsRight_of_agree _ hlib hb hd hlen hf hright ht hs' hsame
  · rintro ⟨hf, hright⟩ pre hpre
    obtain ⟨post, rfl⟩ := hpre
    obtain ⟨t, ht, hreached⟩ := run_server libc hb fun e he => hf e (List.mem_append_left _ he)
    have hlen : pre.length < n := by
      rw [List.length_append] at hn
      omega
    obtain ⟨s, hs, hm⟩ := mirrored_of_sweepsRight hlib hb hd hlen hright.of_append
    exact ⟨t, s, ht, hs, hm.sameHosts hreached⟩

/-- A place on the heap, read as a time. -/
def heapAddress (_ : ℕ) (_ : Bytes) : ℤ := 94000000000000

/-- The world of a daemon with this timeout, and an empty database in memory. -/
def emptyBacked (timeout : CStr) : Backed (CursorDb.InMemory Bytes ℤ) :=
  ⟨World.boot (textParam timeout), ⟨∅, fun _ => none⟩⟩

/-- The backends agree as long as nothing expires. -/
theorem backends_agree_iff_young :
    ∃ t s, (server Libc.simple [(100, .add (cstr "u") (cstr "a")), (130, .clean)]).run
        (emptyBacked (cstr "60")).world = .done () t ∧
      (dbHistory (CursorDb.inMemory Bytes ℤ) heapAddress 3 0
        [(100, .add (cstr "u") (cstr "a")), (130, .clean)]).run (emptyBacked (cstr "60")) =
          .done () s ∧
      SameHosts (fun key => s.db.table.lookup key) t := by
  have hb := booted_textParam (cstr "60")
  rw [show atoi (cstr "60") = 60 by decide] at hb
  refine (backends_agree_iff Libc.simple _ heapAddress (CursorDb.documented_inMemory Bytes ℤ) hb
    (fun _ => rfl) (by decide)).mpr ⟨by decide, ?_⟩ _ List.prefix_rfl
  intro pre c post he host t ht
  match pre, he with
  | [_], he =>
    cases he
    change Function.update (fun _ => none) (cstr "a") (some 100) host = some t at ht
    by_cases hhost : host = cstr "a"
    · subst hhost
      rw [Function.update_self] at ht
      cases ht
      decide
    · rw [Function.update_of_ne hhost] at ht
      cases ht
  | [_, _], he => cases he

/-- At the age of the timeout the text backend drops the host; the database keeps it,
because no clock reading exceeds an address by the timeout. -/
theorem backends_disagree :
    ¬ ∀ pre, pre <+: [(100, .add (cstr "u") (cstr "a")), (160, .clean)] →
      ∃ t s, (server Libc.simple pre).run (emptyBacked (cstr "60")).world = .done () t ∧
        (dbHistory (CursorDb.inMemory Bytes ℤ) heapAddress 3 0 pre).run (emptyBacked (cstr "60")) =
          .done () s ∧
        SameHosts (fun key => s.db.table.lookup key) t := by
  intro h
  have hb := booted_textParam (cstr "60")
  rw [show atoi (cstr "60") = 60 by decide] at hb
  have hlib := CursorDb.documented_inMemory Bytes ℤ
  have hone : SweepsRight heapAddress 60 [(100, .add (cstr "u") (cstr "a"))] := by
    intro pre c post he
    match pre, he with
    | [_], he => cases he
  obtain ⟨t, s, ht, hs, hsame⟩ := h _ List.prefix_rfl
  have hright := sweepsRight_of_agree [(100, .add (cstr "u") (cstr "a"))] hlib hb (fun _ => rfl)
    (by decide) (by decide) hone ht hs hsame
  have hlt := (hright _ 160 [] rfl (cstr "a") 100 (by decide)).mpr (by decide)
  exact absurd hlt (by decide : ¬ (60 : ℤ) < 160 - 94000000000000)

end ExactDaemon
