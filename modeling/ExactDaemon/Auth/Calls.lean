import ExactDaemon.Auth.Tables

/-! # Adding and cleaning, run to completion

What an undisturbed call of `auth_text_clean` or `auth_text_add` returns: the
tables change as `Tables.cleaned`, `Tables.put` and `Tables.inserted` say, and the
relay file is published or left alone.
-/

namespace ExactDaemon

open Prog

variable {w s : World} {tmp file : CStr} {t max : ℤ} {I : World → Prop}

namespace World

@[simp] theorem tables_withTables (w : World) (tb : Tables) : (w.withTables tb).tables = tb := rfl

@[simp] theorem clock_withTables (w : World) (tb : Tables) :
    (w.withTables tb).clock = w.clock := rfl

@[simp] theorem fs_withTables (w : World) (tb : Tables) : (w.withTables tb).fs = w.fs := rfl

@[simp] theorem withTables_withTables (w : World) (tb tb' : Tables) :
    (w.withTables tb).withTables tb' = w.withTables tb' := rfl

theorem Publishes.withTables (h : w.Publishes tmp file) (tb : Tables) :
    (w.withTables tb).Publishes tmp file :=
  ⟨h.authtemp, h.authfile, h.writable⟩

theorem store_ok {p : ℕ × ℕ} {e : AuthEntry} {g : AuthEntry → AuthEntry}
    (h : (w.tables.mem p.1)[p.2]? = some e) :
    w.store p g = .ok ((), w.withTables (w.tables.put p (g e))) := by
  simp only [World.store, Tables.store_ok h, Except.map]

end World

/-! ### The copying loop of `auth_text_clean` -/

namespace Tables

/-- The entries that the first `i` rounds keep. -/
def keptTo (tb : Tables) (t max : ℤ) (i : ℕ) : List AuthEntry :=
  (tb.table.take i).filter fun e => t - e.t < max

/-- The tables with other contents in the shadow block. -/
def withShadow (tb : Tables) (l : List AuthEntry) : Tables :=
  { tb with mem := Function.update tb.mem tb.shadowAuth l }

/-- The tables after `i` rounds of the copying loop. -/
def copied (tb : Tables) (t max : ℤ) (i : ℕ) : Tables :=
  tb.withShadow
    (tb.keptTo t max i ++ (tb.mem tb.shadowAuth).drop (tb.keptTo t max i).length)

variable {tb : Tables} {i : ℕ}

@[simp] theorem copied_zero (tb : Tables) (t max : ℤ) : tb.copied t max 0 = tb := by
  simp [copied, keptTo, withShadow]

theorem keptTo_authCur (h : tb.Fitted) (t max : ℤ) :
    tb.keptTo t max tb.authCur = tb.kept t max := by
  rw [keptTo, List.take_of_length_le (length_table h).le, kept]

theorem keptTo_succ (hi : i < tb.table.length) (t max : ℤ) :
    tb.keptTo t max (i + 1) =
      if t - tb.table[i].t < max then tb.keptTo t max i ++ [tb.table[i]]
      else tb.keptTo t max i := by
  rw [keptTo, List.take_succ_eq_append_getElem hi, List.filter_append]
  split <;> simp_all [keptTo]

theorem length_keptTo_le (tb : Tables) (t max : ℤ) (i : ℕ) :
    (tb.keptTo t max i).length ≤ i :=
  (List.length_filter_le _ _).trans (List.length_take_le i _)

/-- The loop does not touch the block it reads. -/
theorem load_copied (h : tb.Fitted) (hi : i < tb.table.length) (t max : ℤ) (n : ℕ) :
    (tb.copied t max n).load (tb.auth, i) = .ok tb.table[i] := by
  have hm : i < (tb.mem tb.auth).length := by
    have := length_table h
    have := h.curLe
    have := h.authSize
    omega
  refine load_ok ?_
  simp [copied, withShadow, Function.update_of_ne h.blocks, table, hm]

/-- A kept entry goes to the next free place of the shadow block. -/
theorem put_copied (h : tb.Fitted) (hi : i < tb.table.length) (hk : t - tb.table[i].t < max) :
    ∃ e, ((tb.copied t max i).mem tb.shadowAuth)[(tb.keptTo t max i).length]? = some e ∧
      (tb.copied t max i).put (tb.shadowAuth, (tb.keptTo t max i).length) tb.table[i] =
        tb.copied t max (i + 1) := by
  have hn : (tb.keptTo t max i).length < (tb.mem tb.shadowAuth).length := by
    have := length_keptTo_le tb t max i
    have := length_table h
    have := h.curLe
    have := h.shadowSize
    omega
  have hdrop := List.drop_eq_getElem_cons hn
  refine ⟨(tb.mem tb.shadowAuth)[(tb.keptTo t max i).length], ?_, ?_⟩
  · simp only [copied, withShadow, Function.update_self]
    rw [List.getElem?_append_right le_rfl, Nat.sub_self, hdrop]
    rfl
  · rw [copied, copied, keptTo_succ hi, if_pos hk]
    simp only [put, withShadow, Function.update_self, Function.update_idem, le_refl,
      List.set_append_right, Nat.sub_self, List.append_assoc, List.singleton_append,
      List.length_append, List.length_singleton]
    rw [hdrop, List.set_cons_zero]

theorem copied_succ_of_not (hi : i < tb.table.length) (hk : ¬ t - tb.table[i].t < max) :
    tb.copied t max (i + 1) = tb.copied t max i := by
  rw [copied, copied, keptTo_succ hi, if_neg hk]

end Tables

/-- One round of the copying loop. -/
theorem always_cleanEntry {i : ℕ} (h : w.tables.Fitted) (hi : i < w.tables.authCur)
    (hI : ∀ tb, I (w.withTables tb)) :
    always I (cleanEntry t max i (w.tables.keptTo t max i).length)
      (fun n s => n = (w.tables.keptTo t max (i + 1)).length ∧
        s = w.withTables (w.tables.copied t max (i + 1)))
      (w.withTables (w.tables.copied t max i)) := by
  have hi' : i < w.tables.table.length := by rwa [Tables.length_table h]
  have hload : ((w.tables.copied t max i).load (w.tables.auth, i)).map
      (·, w.withTables (w.tables.copied t max i)) =
        .ok (w.tables.table[i], w.withTables (w.tables.copied t max i)) := by
    rw [Tables.load_copied h hi' t max i]
    rfl
  unfold cleanEntry
  refine always_bind (always_attempt hload (hI _) (hI _) ?_)
  split
  · next hk =>
    have hterm : w.tables.table[i].hostname.length ≤ matchLoginHostnameMax :=
      h.cut _ (List.getElem_mem hi')
    obtain ⟨x, hx, hput⟩ := Tables.put_copied h hi' hk
    refine always_bind (always_attempt
      (World.store_ok (w := w.withTables (w.tables.copied t max i)) hx) (hI _) (hI _) ?_)
    refine always_bind (always_attempt (World.store_ok (Tables.getElem?_put hx _))
      (hI _) (hI _) ?_)
    refine (always_pure _).mpr ⟨hI _, ?_, ?_⟩
    · rw [Tables.keptTo_succ hi', if_pos hk, List.length_append, List.length_singleton]
    · simp only [strncpy_of_length_le hterm]
      exact congrArg (fun tb => (w.withTables tb))
        ((Tables.put_put _ (w.tables.shadowAuth, _) _ _).trans hput)
  · next hk =>
    refine (always_pure _).mpr ⟨hI _, ?_, ?_⟩
    · rw [Tables.keptTo_succ hi', if_neg hk]
    · rw [Tables.copied_succ_of_not hi' hk]

/-- The loop of `auth_text_clean` copies the entries that are kept. -/
theorem always_cleanLoop (h : w.tables.Fitted) (t max : ℤ) (hI : ∀ tb, I (w.withTables tb)) :
    always I
      (loop (fun i w => i < w.tables.authCur) (cleanEntry t max) (w.tables.authCur + 1) 0 0)
      (fun n s => n = (w.tables.keptTo t max w.tables.authCur).length ∧
        s = w.withTables (w.tables.copied t max w.tables.authCur)) w := by
  let Inv (i : ℕ) (n : ℕ) (s : World) := n = (w.tables.keptTo t max i).length ∧
    s = w.withTables (w.tables.copied t max i)
  have hinv : ∀ i n s, Inv i n s → I s := by rintro i n s ⟨-, rfl⟩; exact hI _
  have h₀ : Inv 0 0 w := ⟨by simp [Tables.keptTo], by simp [World.withTables]⟩
  refine always_loop (N := w.tables.authCur) hinv ?_ ?_ ?_ (by simp) (Nat.zero_le _) h₀
  · rintro i n s ⟨-, rfl⟩
    rfl
  · rintro i n s hi ⟨rfl, rfl⟩
    exact always_cleanEntry h hi hI
  · exact fun n s hn => hn

/-- What an undisturbed `auth_text_clean` does, in each of its states and at its end. -/
theorem always_authTextClean (h : w.tables.Sound) (hp : w.Publishes tmp file)
    (hmax : w.conffileParamInt (cstr "timeout") = .ok max)
    (hI : ∀ tb, I (w.withTables tb))
    (hd : ∀ bs s, Draft (w.withTables (w.tables.cleaned w.clock max)) tmp bs s → I s)
    (hP : ∀ s, Published (w.withTables (w.tables.cleaned w.clock max)) tmp file s → I s) :
    always I authTextClean
      (fun _ s => Published (w.withTables (w.tables.cleaned w.clock max)) tmp file s) w := by
  have hw : I w := hI w.tables
  have htimeout : (w.conffileParamInt (cstr "timeout")).map (·, w) = .ok (max, w) := by
    rw [hmax]
    rfl
  unfold authTextClean
  refine always_bind (always_read hw (always_bind (always_attempt htimeout hw hw
    (always_bind (always_read hw (always_bind ((always_cleanLoop h.fitted _ _ hI).mono ?_)))))))
  rintro n s ⟨rfl, rfl⟩
  refine always_bind (always_read (hI _) (always_bind (always_modify (hI _) (hI _) (always_bind
    (always_modify (hI _) (hI _) (always_bind (always_modify (hI _) (hI _) ?_)))))))
  have hc := h.cleaned w.clock max
  have := always_authWriteText (hp.withTables (w.tables.cleaned w.clock max))
    (hc.authSize ▸ hc.curLe) hc.terminated (hI _) hd hP
  convert this using 1
  simp only [World.onTables, World.tables_withTables, World.withTables_withTables,
    Tables.copied, Tables.withShadow, Tables.keptTo_authCur h.fitted, Tables.cleaned]

/-- The cleaned tables are published, or that fails. -/
theorem run_authTextClean_eq (h : w.tables.Fitted)
    (hmax : w.conffileParamInt (cstr "timeout") = .ok max) :
    authTextClean.run w = authWriteText.run (w.withTables (w.tables.cleaned w.clock max)) := by
  have htimeout : (w.conffileParamInt (cstr "timeout")).map (·, w) = .ok (max, w) := by
    rw [hmax]
    rfl
  obtain ⟨n, s, hloop, rfl, rfl⟩ := (always_cleanLoop (I := fun _ => True) h w.clock max
    fun _ => trivial).run_done
  unfold authTextClean
  rw [run_bind, run_read, Outcome.bind_done, run_bind, run_attempt_ok htimeout, Outcome.bind_done,
    run_bind, run_read, Outcome.bind_done, run_bind, hloop, Outcome.bind_done]
  simp only [run_bind, run_read, run_modify, Outcome.bind_done, World.onTables,
    World.tables_withTables, World.withTables_withTables, Tables.copied, Tables.withShadow,
    Tables.keptTo_authCur h, Tables.cleaned]

theorem run_authTextClean (h : w.tables.Sound) (hp : w.Publishes tmp file)
    (hmax : w.conffileParamInt (cstr "timeout") = .ok max) :
    ∃ s, authTextClean.run w = .done () s ∧
      Published (w.withTables (w.tables.cleaned w.clock max)) tmp file s := by
  obtain ⟨_, s, hr, hs⟩ := (always_authTextClean (I := fun _ => True) h hp hmax
    (fun _ => trivial) (fun _ _ _ => trivial) fun _ _ => trivial).run_done
  exact ⟨s, hr, hs⟩

/-! ### Adding -/

variable {libc : Libc} {username host : CStr}

/-- A host that is found only has its time refreshed. -/
theorem run_authTextAdd_present {p : ℕ × ℕ} {e : AuthEntry}
    (hp : w.tables.authPresent libc host = some p) (he : (w.tables.mem p.1)[p.2]? = some e) :
    (authTextAdd libc username host).run w =
      .done () (w.withTables (w.tables.put p { e with t := w.clock })) := by
  simp [authTextAdd, hp, run_attempt, World.store_ok he]

/-- The state in which `auth_text_add` of a new host calls `auth_write_text`. -/
def World.inserted (libc : Libc) (w : World) (host : CStr) : World :=
  w.withTables (w.tables.inserted libc ⟨strncpy host matchLoginHostnameMax, w.clock⟩)

/-- What `auth_text_add` does once there is room for the entry. -/
theorem run_append {x : AuthEntry}
    (hx : (w.tables.mem w.tables.auth)[w.tables.authCur]? = some x) :
    (do
      attempt fun w => w.store (w.tables.auth, w.tables.authCur) fun x =>
        { x with hostname := strncpy host matchLoginHostnameMax }
      attempt fun w => w.store (w.tables.auth, w.tables.authCur) fun x => { x with t := w.clock }
      modify (·.onTables fun tb => { tb with authCur := tb.authCur + 1 })
      modify (·.onTables (Tables.qsort libc))
      authWriteText : Prog World Unit).run w =
    authWriteText.run (w.withTables
      ((w.tables.appended ⟨strncpy host matchLoginHostnameMax, w.clock⟩).qsort libc)) := by
  have h₁ := World.store_ok (w := w) (p := (w.tables.auth, w.tables.authCur))
    (g := fun x => { x with hostname := strncpy host matchLoginHostnameMax }) hx
  have h₂ := World.store_ok (g := fun x => { x with t := w.clock })
    (w := w.withTables (w.tables.put (w.tables.auth, w.tables.authCur)
      { x with hostname := strncpy host matchLoginHostnameMax }))
    (p := (w.tables.auth, w.tables.authCur)) (Tables.getElem?_put hx _)
  simp only [World.tables_withTables, World.withTables_withTables] at h₂
  simp only [run_bind, run_modify, World.onTables, run_attempt, h₁, Outcome.bind_done,
    World.tables_withTables, World.withTables_withTables, Tables.auth_put, Tables.authCur_put,
    World.clock_withTables, h₂, Tables.put_put]
  rfl

theorem run_authTextAdd_absent (h : w.tables.Fitted)
    (hp : w.tables.authPresent libc host = none) :
    (authTextAdd libc username host).run w = authWriteText.run (w.inserted libc host) := by
  obtain ⟨x, hx⟩ := Tables.exists_getElem?_grow h
  unfold authTextAdd
  rw [run_bind, run_read, Outcome.bind_done]
  simp only [hp]
  rw [run_bind, run_modify, Outcome.bind_done]
  exact run_append (w := w.onTables Tables.grow) hx

/-! ### What adding and cleaning leave alone -/

section Keeps

variable {J : World → Prop} (hT : ∀ s tb, J s → J (s.withTables tb))
  (hF : ∀ s t : World, s.OnlyFiles t → s.Creates relayNames t → J s → J t)

include hT in
theorem keeps_store (p : World → ℕ × ℕ) (g : World → AuthEntry → AuthEntry) :
    Keeps J (attempt fun w => w.store (p w) (g w)) := by
  refine keeps_attempt fun s a s' h hs => ?_
  unfold World.store at hs
  cases hst : s.tables.store (p s) (g s) with
  | error e =>
    rw [hst] at hs
    cases hs
  | ok tb =>
    rw [hst] at hs
    cases hs
    exact hT s tb h

include hT hF

theorem keeps_authTextAdd (libc : Libc) (username hostname : CStr) :
    Keeps J (authTextAdd libc username hostname) := by
  refine (keeps_read _).bind fun e => ?_
  cases e with
  | some e => exact keeps_store hT (fun _ => e) _
  | none =>
    refine (keeps_act fun s h => hT s _ h).bind fun _ => ?_
    refine (keeps_store hT (fun w => (w.tables.auth, w.tables.authCur)) _).bind fun _ => ?_
    refine (keeps_store hT (fun w => (w.tables.auth, w.tables.authCur)) _).bind fun _ => ?_
    refine (keeps_act fun s h => hT s _ h).bind fun _ => ?_
    exact (keeps_act fun s h => hT s _ h).bind fun _ => keeps_authWriteText hF

theorem keeps_authTextClean : Keeps J authTextClean := by
  refine (keeps_read _).bind fun t => (keeps_attempt fun s a s' h hs => ?_).bind fun max => ?_
  · cases hp : s.conffileParamInt (cstr "timeout") with
    | error e =>
      rw [hp] at hs
      cases hs
    | ok n =>
      rw [hp] at hs
      cases hs
      exact h
  refine (keeps_read _).bind fun m => (keeps_loop (fun i n => ?_) _ _ _).bind fun n => ?_
  · refine (keeps_attempt fun s a s' h hs => ?_).bind fun e => ?_
    · cases hl : s.tables.load (s.tables.auth, i) with
      | error e =>
        rw [hl] at hs
        cases hs
      | ok e =>
        rw [hl] at hs
        cases hs
        exact h
    · refine keeps_ite ?_ (keeps_pure _)
      refine (keeps_store hT (fun w => (w.tables.shadowAuth, n)) _).bind fun _ => ?_
      exact (keeps_store hT (fun w => (w.tables.shadowAuth, n)) _).bind fun _ => keeps_pure _
  refine (keeps_read _).bind fun tmp => (keeps_act fun s h => hT s _ h).bind fun _ => ?_
  refine (keeps_act fun s h => hT s _ h).bind fun _ => ?_
  exact (keeps_act fun s h => hT s _ h).bind fun _ => keeps_authWriteText hF

end Keeps

end ExactDaemon
