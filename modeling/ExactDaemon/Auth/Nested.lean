import ExactDaemon.Auth.RelayFile

/-! # Two writers and one temporary file

While `auth_write_text` runs, the alarm may start another one through
`auth_text_clean`. Both write the same temporary file, and the inner one moves it
away: from then on the outer one has nothing to move.
-/

namespace ExactDaemon

open Prog

/-- The temporary file and the relay file are two files. -/
structure World.Apart (w : World) (tmp file : CStr) : Prop where
  ne : file ≠ tmp
  wellFormed : w.fs.WellFormed
  ino : ∀ i, w.fs.dir tmp = some i → w.fs.dir file ≠ some i

/-- What SIGALRM does at a boundary, if it arrives, at the given clock. -/
def handler : Option ℤ → Prog World Unit
  | none => ret ()
  | some t => do
    modify (·.atClock t)
    authTextClean

/-- `auth_write_text` with the alarms of a schedule between its steps. -/
def writeInterrupted (during : List (Option ℤ)) : Prog World Unit :=
  weave (ret () :: during.map handler) authWriteText

/-- The states of a run from `w`, after an earlier state `w₀`. -/
def visited (w₀ : World) (p : Prog World Unit) (w : World) : List World := w₀ :: p.trace w

/-- The call returns, so that every `rename` succeeded and neither fatal exit was taken,
and in each state the relay file lists a table that the daemon has had by then. -/
structure WholeThroughout (file : CStr) (w₀ : World) (p : Prog World Unit) (w : World) : Prop where
  returns : ∃ s, p.run w = .done () s
  whole : ∀ (k : ℕ) (s : World), (visited w₀ p w)[k]? = some s →
    ∃ j ≤ k, ∃ s' : World, (visited w₀ p w)[j]? = some s' ∧
      s.fs.contents file = some (listing s'.tables.table)

variable {libc : Libc} {w w₀ s : World} {tmp file : CStr} {timeout : ℤ} {host : CStr}
  {during : List (Option ℤ)}

theorem World.Apart.target (h : w.Apart tmp file) : w.fs.dir file ≠ some (w.fs.target tmp) := by
  intro hf
  cases ht : w.fs.dir tmp with
  | some i =>
    rw [Fs.target, ht] at hf
    exact h.ino i ht hf
  | none =>
    rw [Fs.target, ht] at hf
    exact Nat.lt_irrefl _ (h.wellFormed file _ hf)

/-- While it is drafted, the listing does not show. -/
theorem Draft.contents {bs : Bytes} (h : Draft w tmp bs s) (ha : w.Apart tmp file) :
    s.fs.contents file = w.fs.contents file := by
  rw [Fs.contents, h.dir, Function.update_of_ne ha.ne, Fs.contents]
  cases hf : w.fs.dir file with
  | none => rfl
  | some i =>
    have hi : i ≠ w.fs.target tmp := fun heq => ha.target (by rw [hf, heq])
    rw [Option.map_some, Option.map_some, h.other i hi]

theorem target_lt_nextIno (hwf : w.fs.WellFormed) (tmp : CStr) :
    w.fs.target tmp < (w.fs.truncated tmp).nextIno ∧
      w.fs.nextIno ≤ (w.fs.truncated tmp).nextIno := by
  unfold Fs.target Fs.truncated
  cases ht : w.fs.dir tmp with
  | none => simp
  | some i => simpa using hwf tmp i ht

theorem Draft.apart {bs : Bytes} (h : Draft w tmp bs s) (ha : w.Apart tmp file) :
    s.Apart tmp file where
  ne := ha.ne
  wellFormed path i hi := by
    obtain ⟨hlt, hle⟩ := target_lt_nextIno ha.wellFormed tmp
    rw [h.nextIno]
    rw [h.dir] at hi
    by_cases hp : path = tmp
    · rw [hp, Function.update_self] at hi
      exact Option.some.inj hi ▸ hlt
    · rw [Function.update_of_ne hp] at hi
      exact (ha.wellFormed path i hi).trans_le hle
  ino i hi hf := by
    rw [h.dir, Function.update_self] at hi
    rw [h.dir, Function.update_of_ne ha.ne, ← hi] at hf
    exact ha.target hf

theorem Published.dir_eq (h : Published w tmp file s) (ha : w.Apart tmp file) :
    s.fs.dir = Function.update (Function.update w.fs.dir file (some (w.fs.target tmp))) tmp none :=
  h.dir ha.ne ha.target

theorem Published.gone (h : Published w tmp file s) (ha : w.Apart tmp file) :
    s.fs.dir tmp = none := by
  rw [h.dir_eq ha, Function.update_self]

theorem Published.apart (h : Published w tmp file s) (ha : w.Apart tmp file) :
    s.Apart tmp file where
  ne := ha.ne
  wellFormed path i hi := by
    obtain ⟨hlt, hle⟩ := target_lt_nextIno ha.wellFormed tmp
    rw [h.nextIno]
    rw [h.dir_eq ha] at hi
    by_cases hp : path = tmp
    · rw [hp, Function.update_self] at hi
      cases hi
    · rw [Function.update_of_ne hp] at hi
      by_cases hpf : path = file
      · rw [hpf, Function.update_self] at hi
        exact Option.some.inj hi ▸ hlt
      · rw [Function.update_of_ne hpf] at hi
        exact (ha.wellFormed path i hi).trans_le hle
  ino i hi := by
    rw [h.gone ha] at hi
    cases hi

/-! ### Undisturbed -/

theorem wholeThroughout_idle (hr : w.Ready tmp file timeout) (ha : w.Apart tmp file)
    (hw : w.fs = w₀.fs) (hsync : w₀.Synced file) : WholeThroughout file w₀ authWriteText w := by
  let I (s : World) := s.fs.contents file = w₀.fs.contents file ∨ s.Synced file
  have h := always_authWriteText (I := I) hr.publishes
    (hr.wellFormed.authSize ▸ hr.wellFormed.curLe) hr.wellFormed.terminated
    (Or.inl (by rw [hw])) (fun bs s hd => Or.inl (by rw [hd.contents ha, hw]))
    fun s hp => Or.inr hp.synced
  obtain ⟨_, s, hs, -⟩ := h.run_done
  refine ⟨⟨s, hs⟩, fun k s hk => ?_⟩
  cases k with
  | zero =>
    obtain rfl : w₀ = s := by simpa [visited] using hk
    exact ⟨0, le_rfl, w₀, rfl, hsync⟩
  | succ k =>
    rw [visited, List.getElem?_cons_succ] at hk
    rcases h.trace s (List.mem_of_getElem? hk) with hc | hc
    · exact ⟨0, Nat.zero_le _, w₀, rfl, hc.trans hsync⟩
    · exact ⟨k + 1, le_rfl, s, hk, hc⟩

/-! ### Disturbed -/

/-- Ready to write, and the two files are apart. -/
structure Steady (tmp file : CStr) (timeout : ℤ) (w : World) : Prop where
  ready : w.Ready tmp file timeout
  apart : w.Apart tmp file

/-- The temporary file has been moved away. -/
structure Stale (tmp file : CStr) (timeout : ℤ) (w : World) : Prop
    extends Steady tmp file timeout w where
  gone : w.fs.dir tmp = none

theorem stale_of_handler {t : ℤ} (h : Steady tmp file timeout w)
    (hs : (handler (some t)).run w = .done () s) : Stale tmp file timeout s := by
  have hr := h.ready.atClock t
  obtain ⟨s', hs', hpub⟩ := run_authTextClean hr.wellFormed.toSound hr.publishes hr.timeout
  obtain rfl : s' = s := by
    rw [handler, run_bind, run_modify, Outcome.bind_done, hs'] at hs
    simpa using hs
  have ha : ((w.atClock t).withTables
      ((w.atClock t).tables.cleaned (w.atClock t).clock timeout)).Apart tmp file :=
    ⟨h.apart.ne, h.apart.wellFormed, h.apart.ino⟩
  have hw := hr.withTables (hr.wellFormed.cleaned (w.atClock t).clock timeout)
  exact ⟨⟨hpub.ready hw, hpub.apart ha⟩, hpub.gone ha⟩

theorem Stale.fprintf (h : Stale tmp file timeout w) (fd : ℕ) (bs : Bytes) :
    Stale tmp file timeout (w.fprintf fd bs) where
  ready := ⟨⟨h.ready.publishes.authtemp, h.ready.publishes.authfile, h.ready.publishes.writable⟩,
    h.ready.timeout, h.ready.wellFormed⟩
  apart := ⟨h.apart.ne, h.apart.wellFormed, h.apart.ino⟩
  gone := h.gone

theorem Stale.fclose (h : Stale tmp file timeout w) (fd : ℕ) :
    Stale tmp file timeout (w.fclose fd) where
  ready := ⟨⟨h.ready.publishes.authtemp, h.ready.publishes.authfile, h.ready.publishes.writable⟩,
    h.ready.timeout, h.ready.wellFormed⟩
  apart := ⟨h.apart.ne, h.apart.wellFormed, h.apart.ino⟩
  gone := h.gone

theorem Stale.printHost {fd i : ℕ} {u : Unit} (h : Stale tmp file timeout w)
    (hs : w.printHost fd i = .ok (u, s)) : Stale tmp file timeout s := by
  unfold World.printHost at hs
  split at hs
  · cases hs
  · split at hs <;> cases hs
    exact h.fprintf fd _

/-- Without the temporary file the `rename` fails. -/
theorem Stale.publish (h : Stale tmp file timeout w) : w.publish = .error (.exit 22) := by
  simp only [World.publish, h.ready.publishes.authtemp, h.ready.publishes.authfile]
  rw [Fs.rename_none h.gone]

theorem doomed_authWriteLines (fd : ℕ) (w : World) :
    Doomed (Stale tmp file timeout) (authWriteLines fd) w := by
  have hpub : ∀ s, Stale tmp file timeout s → ∃ e, s.publish = .error e :=
    fun s h => ⟨_, h.publish⟩
  have hprint : ∀ i (u : Unit), Keeps (Stale tmp file timeout)
      (attempt (World.printHost · fd i)) := fun i _ =>
    keeps_attempt fun s _ s' h hs => h.printHost hs
  have hclose : Keeps (Stale tmp file timeout) (modify (World.fclose · fd)) :=
    keeps_act fun s h => h.fclose fd
  have hread : Keeps (Stale tmp file timeout) (read fun w => w.tables.authCur + 1) :=
    keeps_act fun _ h => h
  have hloop : ∀ n, Keeps (Stale tmp file timeout)
      (loop (fun i w => i < w.tables.authCur)
        (fun i _ => attempt (World.printHost · fd i)) n 0 ()) :=
    fun n => keeps_loop hprint n 0 ()
  have hrest := fun _ : Unit => Keeps.barred_bind hclose fun _ => barred_attempt hpub
  refine Keeps.doomed_bind hread (fun n => Keeps.barred_bind (hloop n) hrest) fun n s => ?_
  refine Keeps.doomed_bind (hloop n) hrest fun _ s => ?_
  exact Keeps.doomed_bind hclose (fun _ => barred_attempt hpub) fun _ s => doomed_attempt hpub

theorem steady_of_trace (h : Steady tmp file timeout w) :
    ∀ s ∈ authWriteText.trace w, Steady tmp file timeout s :=
  always.trace (always_authWriteText h.ready.publishes
    (h.ready.wellFormed.authSize ▸ h.ready.wellFormed.curLe) h.ready.wellFormed.terminated h
    (fun _ _ hd => ⟨hd.frame.ready hd.writable h.ready, hd.apart h.apart⟩)
    fun _ hp => ⟨hp.ready h.ready, hp.apart h.apart⟩)

theorem World.Publishes.fopenWrite (h : w.Publishes tmp file) :
    w.fopenWrite (w.conffileParam (cstr "authtemp")) =
      .ok (some w.fs.nextFd, { w with fs := w.fs.truncated tmp }) := by
  rw [h.authtemp]
  exact World.fopenWrite_ok h.writable

theorem one_lt_steps (h : w.Publishes tmp file) : 1 < authWriteText.steps w := by
  unfold authWriteText
  rw [steps_attempt_bind h.fopenWrite]
  exact Nat.succ_lt_succ (Nat.succ_pos _)

theorem steady_inserted (libc : Libc) (hr : w₀.Ready tmp file timeout) (ha : w₀.Apart tmp file)
    (hh : host.length < matchLoginHostnameMax) (hp : w₀.tables.authPresent libc host = none) :
    Steady tmp file timeout (w₀.inserted libc host) where
  ready := by
    have hn := Tables.authPresent_none hr.wellFormed hp
    have hcut := strncpy_of_length_le hh.le
    rw [hcut] at hn
    rw [World.inserted, hcut]
    exact hr.withTables (hr.wellFormed.inserted libc hh hn)
  apart := ⟨ha.ne, ha.wellFormed, ha.ino⟩

/-- An alarm between the open and the `rename` keeps the call from returning. -/
theorem not_done_writeInterrupted (h : Steady tmp file timeout w) {i : ℕ} {t : ℤ}
    (hi : i + 1 < authWriteText.steps w) (ht : during[i]? = some (some t)) (s : World) :
    (writeInterrupted during).run w ≠ .done () s := by
  have hf := h.ready.publishes.fopenWrite
  have htrace := steady_of_trace h
  unfold authWriteText at htrace hi
  rw [trace_attempt_bind hf] at htrace
  rw [steps_attempt_bind hf] at hi
  unfold writeInterrupted authWriteText
  rw [run_weave_attempt_ok rfl hf]
  refine Doomed.not_done (doomed_authWriteLines _ _)
    (fun t ht => htrace t (List.mem_cons_of_mem _ ht)) (fun t h => h.toSteady) ?_ ?_ () s
  · intro q hq
    obtain ⟨o, -, rfl⟩ := List.mem_map.mp hq
    cases o with
    | none => exact Or.inl rfl
    | some t => exact Or.inr fun s s' hs hrun => stale_of_handler hs hrun
  · refine ⟨i, Nat.lt_of_add_lt_add_right hi, handler (some t), by simp [ht], fun heq => ?_⟩
    cases heq

/-- The relay file stays whole and `auth_write_text` returns, exactly when no alarm
goes off between its open and its `rename`. -/
theorem wholeThroughout_writeInterrupted_iff (libc : Libc) (hr : w₀.Ready tmp file timeout)
    (ha : w₀.Apart tmp file) (hsync : w₀.Synced file) (hh : host.length < matchLoginHostnameMax)
    (hp : w₀.tables.authPresent libc host = none) (during : List (Option ℤ)) :
    WholeThroughout file w₀ (writeInterrupted during) (w₀.inserted libc host) ↔
      ∀ i t, during[i]? = some (some t) →
        authWriteText.steps (w₀.inserted libc host) ≤ i + 1 := by
  have hsteady := steady_inserted libc hr ha hh hp
  constructor
  · intro h i t ht
    by_contra hlt
    obtain ⟨s, hs⟩ := h.returns
    exact not_done_writeInterrupted hsteady (by omega) ht s hs
  · intro h
    have hidle : ∀ i < authWriteText.steps (w₀.inserted libc host), ∀ q,
        (ret () :: during.map handler)[i]? = some q → q = ret () := by
      intro i hi q hq
      cases i with
      | zero => exact (Option.some.inj hq).symm
      | succ i =>
        rw [List.getElem?_cons_succ, List.getElem?_map, Option.map_eq_some_iff] at hq
        obtain ⟨o, ho, rfl⟩ := hq
        cases o with
        | none => rfl
        | some t => exact absurd (h i t ho) (by omega)
    obtain ⟨hrun, htrace⟩ := weave_idle hidle
    have hfs : (w₀.inserted libc host).fs = w₀.fs := rfl
    obtain ⟨hret, hwhole⟩ := wholeThroughout_idle hsteady.ready hsteady.apart hfs hsync
    refine ⟨?_, ?_⟩
    · rwa [writeInterrupted, hrun]
    · rwa [visited, writeInterrupted, htrace]

/-- A fresh daemon that is about to publish its first login. -/
theorem exists_first_login :
    ∃ w, authInit.run (World.boot (textParam (cstr "60"))) = .done () w ∧
      w.Ready (cstr "tmp") (cstr "relay") 60 ∧ w.Apart (cstr "tmp") (cstr "relay") ∧
      w.Synced (cstr "relay") ∧ w.tables.authPresent Libc.simple (cstr "a") = none := by
  have hb := booted_textParam (cstr "60")
  rw [show atoi (cstr "60") = 60 by decide] at hb
  obtain ⟨w, flush, hw, hpub⟩ := run_authInit hb
  have hr := hpub.ready (hb.initialised flush)
  have ha : ((World.boot (textParam (cstr "60"))).initialised flush).Apart (cstr "tmp")
      (cstr "relay") := ⟨by decide, (fun _ _ h => nomatch h), (fun _ h => nomatch h)⟩
  have htable : w.tables.table = [] := by
    rw [hpub.frame.tables]
    exact Tables.table_initialised hb.authCur flush
  refine ⟨w, hw, hr, hpub.apart ha, hpub.synced, ?_⟩
  have h := Tables.authPresent_isSome_iff Libc.simple hr.wellFormed
    (by decide : (cstr "a").length ≤ 255)
  rw [Tables.map, htable] at h
  exact Option.not_isSome_iff_eq_none.mp fun hs => by simpa [lookup] using h.mp hs

theorem wholeThroughout_writeInterrupted_quiet :
    ∃ w, authInit.run (World.boot (textParam (cstr "60"))) = .done () w ∧
      WholeThroughout (cstr "relay") w (writeInterrupted [none, none])
        (w.inserted Libc.simple (cstr "a")) := by
  obtain ⟨w, hw, hr, ha, hsync, hp⟩ := exists_first_login
  refine ⟨w, hw, (wholeThroughout_writeInterrupted_iff Libc.simple hr ha hsync (by decide) hp
    [none, none]).mpr fun i t ht => ?_⟩
  match i with
  | 0 => cases ht
  | 1 => cases ht
  | i + 2 => cases ht

/-- An alarm right after the open: the inner writer takes the temporary file away. -/
theorem wholeThroughout_broken :
    ∃ w, authInit.run (World.boot (textParam (cstr "60"))) = .done () w ∧
      ¬ WholeThroughout (cstr "relay") w (writeInterrupted [some 100])
        (w.inserted Libc.simple (cstr "a")) := by
  obtain ⟨w, hw, hr, ha, hsync, hp⟩ := exists_first_login
  refine ⟨w, hw, fun h => ?_⟩
  obtain ⟨s, hs⟩ := h.returns
  have hsteady := steady_inserted Libc.simple hr ha (by decide) hp
  exact not_done_writeInterrupted hsteady (one_lt_steps hsteady.ready.publishes) rfl s hs

end ExactDaemon
