import ExactDaemon.Auth.Authorised
import ExactDaemon.Lib.Lines

/-! # The relay file and the table

As long as every hostname leaves room for its NUL, the relay file lists the table
after every call. A hostname that fills its array is printed without an end, and
the call that adds it does not come back.
-/

namespace ExactDaemon

open Prog

variable {libc : Libc} {w w₀ : World} {tmp file : CStr} {timeout : ℤ} {es : List (ℤ × AuthEvent)}

/-! ### Splitting the file into lines -/

theorem lines_listing {l : List AuthEntry} (h : ∀ e ∈ l, ∀ c ∈ e.hostname, c ≠ 10) :
    lines (· = 10) (listing l) = l.map AuthEntry.hostname := by
  induction l with
  | nil => rfl
  | cons e l ih =>
    have he : Unbroken (· = 10) e.hostname := fun c hc => by
      simpa using h e List.mem_cons_self c hc
    have happ : listing (e :: l) = e.hostname ++ 10 :: listing l := by simp [listing]
    rw [happ, lines_append_cons he (by simp), ih fun e' he' => h e' (by simp [he']), List.map_cons]

/-- The hostname is one line of text. -/
def AuthEvent.OneLine : AuthEvent → Prop
  | add _ hostname => hostname.all (· != 10)
  | clean => True

instance : DecidablePred AuthEvent.OneLine
  | .add _ hostname => instDecidableEqBool (hostname.all (· != 10)) true
  | .clean => instDecidableTrue

/-- The relay file lists the table, and its lines are the hosts, each once. -/
def World.Agrees (w : World) (file : CStr) : Prop :=
  w.Synced file ∧ ∃ text, w.fs.contents file = some text ∧
    lines (· = 10) text = w.tables.table.map AuthEntry.hostname ∧
    (lines (· = 10) text).Nodup

theorem Reached.oneLine (h : Reached tmp file timeout es w) (hl : ∀ e ∈ es, e.2.OneLine) :
    ∀ e ∈ w.tables.table, ∀ c ∈ e.hostname, c ≠ 10 := by
  intro e he
  have hm : w.tables.map e.hostname = some e.t :=
    (Tables.map_eq_some_iff h.ready.wellFormed).mpr he
  rw [h.map] at hm
  have hs : (Lease.after timeout ([] ++ leases es) e.hostname).isSome := by
    rw [List.nil_append, hm]; rfl
  rcases Lease.isSome_after_append hs with ⟨c, hadd⟩ | hnil
  · obtain ⟨⟨c', e'⟩, he', heq⟩ := List.mem_map.mp hadd
    cases e' with
    | clean => cases heq
    | add username host =>
      cases heq
      have hall : e.hostname.all (· != 10) = true := hl _ he'
      simpa using hall
  · cases hnil

theorem Reached.agrees (h : Reached tmp file timeout es w) (hl : ∀ e ∈ es, e.2.OneLine) :
    w.Agrees file := by
  have hlines := lines_listing (h.oneLine hl)
  exact ⟨h.synced, _, h.synced, hlines,
    hlines ▸ nodup_hostname h.ready.wellFormed.ascending⟩

/-! ### A hostname without an end -/

theorem World.tables_fopenWrite {w s : World} {path : Option CStr} {f : Option ℕ}
    (h : w.fopenWrite path = .ok (f, s)) : s.tables = w.tables := by
  unfold fopenWrite at h
  split at h
  · cases h
    rfl
  · split at h <;> · cases h; rfl

theorem World.tables_printHost {w s : World} {fd i : ℕ}
    (h : w.printHost fd i = .ok ((), s)) : s.tables = w.tables := by
  unfold printHost at h
  split at h
  · cases h
  · split at h <;> cases h
    rfl

/-- With an unterminated hostname in the table, `auth_write_text` does not return. -/
theorem barred_authWriteText {tb : Tables} {e : AuthEntry} (he : e ∈ tb.table)
    (hu : ¬ e.Terminated) : Barred (fun w => w.tables = tb) authWriteText := by
  obtain ⟨j, hlt, rfl⟩ := List.getElem_of_mem he
  simp only [Tables.table, List.length_take] at hlt
  have hload : tb.load (tb.auth, j) = .ok tb.table[j] := by
    refine Tables.load_ok ?_
    simp [Tables.table]
  unfold authWriteText
  refine Keeps.barred_bind (keeps_attempt fun s a s' hs hf => ?_) fun f => ?_
  · exact (World.tables_fopenWrite hf).trans hs
  · cases f with
    | none => trivial
    | some f =>
      refine Keeps.barred_bind (keeps_act fun _ hs => hs) fun n => Barred.bind (barred_loop
        (j := j) ?_ ?_ ?_ (Nat.zero_le j) ())
      · intro i s hi hs
        simp only [hs, decide_eq_true_eq]
        omega
      · intro i _ _
        exact keeps_attempt fun s a s' hs hf => (World.tables_printHost hf).trans hs
      · intro _
        refine barred_attempt fun s hs => ⟨.undefined, ?_⟩
        simp only [World.printHost, hs, hload, if_neg hu]

/-- Adding a hostname that fills its array does not return. -/
theorem not_done_add (libc : Libc) (hr : w.Ready tmp file timeout) (username : CStr) {host : CStr}
    (hh : ¬ host.length < matchLoginHostnameMax) (s : World) :
    (authTextAdd libc username host).run w ≠ .done () s := by
  have hlen : (strncpy host matchLoginHostnameMax).length = matchLoginHostnameMax := by
    simp only [strncpy, List.length_take]
    omega
  have hp : w.tables.authPresent libc host = none := by
    rw [Option.eq_none_iff_forall_ne_some]
    intro p hp
    obtain ⟨h₁, hlt, e, he, hk⟩ := Tables.authPresent_some hr.wellFormed hp
    have hmem : e ∈ w.tables.table :=
      List.mem_of_getElem? ((Tables.getElem?_table hlt).trans (h₁ ▸ he))
    have hterm := hr.wellFormed.terminated e hmem
    rw [AuthEntry.Terminated, hk, hlen] at hterm
    exact Nat.lt_irrefl _ hterm
  rw [run_authTextAdd_absent hr.wellFormed.fitted hp]
  let e : AuthEntry := ⟨strncpy host matchLoginHostnameMax, w.clock⟩
  have he : e ∈ (w.inserted libc host).tables.table := by
    rw [World.inserted, World.tables_withTables,
      Tables.table_inserted libc hr.wellFormed.fitted, (libc.qsort_perm _ _).mem_iff]
    simp [e]
  have hu : ¬ e.Terminated := by
    change ¬ (strncpy host matchLoginHostnameMax).length < matchLoginHostnameMax
    rw [hlen]
    exact Nat.lt_irrefl _
  exact (barred_authWriteText he hu).run_ne_done rfl () s

theorem not_done_unfit (libc : Libc) (hr : w.Ready tmp file timeout) {t : ℤ} {e : AuthEvent}
    (hf : ¬ e.Fits)
    (s : World) : (history libc [(t, e)]).run w ≠ .done () s := by
  cases e with
  | clean => exact absurd trivial hf
  | add username host =>
    have h := not_done_add libc (hr.atClock t) username hf s
    intro hd
    apply h
    simp only [history, run_bind, run_modify, Outcome.bind_done] at hd
    change ((authTextAdd libc username host).run (w.atClock t)).bind _ = _ at hd
    cases hrun : (authTextAdd libc username host).run (w.atClock t) with
    | done a s' => rw [hrun] at hd; exact hd
    | halted e s' => rw [hrun] at hd; exact hd

/-- Throughout a history the relay file agrees with the table, exactly when every
hostname added leaves room for its NUL. -/
theorem relay_file_agrees_iff (libc : Libc) (hb : w₀.Booted tmp file timeout)
    (hl : ∀ e ∈ es, e.2.OneLine) :
    (∀ pre, pre <+: es → ∃ w, (server libc pre).run w₀ = .done () w ∧ w.Agrees file) ↔
      ∀ e ∈ es, e.2.Fits := by
  constructor
  · intro h
    induction es using List.reverseRecOn with
    | nil => simp
    | append_singleton es e ih =>
      have hfits := ih (fun e he => hl e (List.mem_append_left _ he)) fun pre hpre =>
        h pre (hpre.trans (List.prefix_append _ _))
      obtain ⟨w, hw, hreached⟩ := run_server libc hb hfits
      obtain ⟨s, hs, -⟩ := h _ List.prefix_rfl
      rw [server_append, run_bind, hw] at hs
      have hfit : e.2.Fits := by
        by_contra hn
        exact not_done_unfit libc hreached.ready hn s hs
      intro e' he'
      rcases List.mem_append.mp he' with hm | hm
      · exact hfits e' hm
      · exact List.mem_singleton.mp hm ▸ hfit
  · intro hf pre hpre
    obtain ⟨w, hw, hreached⟩ := run_server libc hb fun e he => hf e (hpre.subset he)
    exact ⟨w, hw, hreached.agrees fun e he => hl e (hpre.subset he)⟩

/-- The file agrees after a history with a refresh and a clean. -/
theorem relay_file_agrees_iff_login :
    ∃ w, (server Libc.simple [(5, .add (cstr "u") (cstr "a")), (7, .add (cstr "v") (cstr "b")),
        (9, .add (cstr "u") (cstr "a")), (70, .clean)]).run
        (World.boot (textParam (cstr "60"))) = .done () w ∧ w.Agrees (cstr "relay") :=
  (relay_file_agrees_iff Libc.simple (booted_textParam (cstr "60")) (by decide)).mpr (by decide)
    _ List.prefix_rfl

/-- A hostname of 255 letters fills its array, and its entry is printed without an end. -/
theorem relay_file_disagrees :
    ¬ ∀ pre, pre <+: [(5, .add (cstr "u") (List.replicate 255 97))] →
      ∃ w, (server Libc.simple pre).run (World.boot (textParam (cstr "60"))) = .done () w ∧
        w.Agrees (cstr "relay") := by
  intro h
  obtain ⟨s, hs, -⟩ := h _ List.prefix_rfl
  obtain ⟨w, hw, hreached⟩ := run_server Libc.simple (booted_textParam (cstr "60"))
    (List.forall_mem_nil fun e : ℤ × AuthEvent => e.2.Fits)
  rw [← List.nil_append [_], server_append, run_bind, hw] at hs
  refine not_done_unfit Libc.simple hreached.ready (fun hf => ?_) s hs
  change (List.replicate 255 97).length < 255 at hf
  rw [List.length_replicate] at hf
  exact Nat.lt_irrefl _ hf

end ExactDaemon
