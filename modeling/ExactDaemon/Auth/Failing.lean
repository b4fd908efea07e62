import ExactDaemon.Auth.Publish
import ExactDaemon.Lib.Cut

/-! # A write that fails

`auth_write_text` once more, with any of its file operations failing. Only the results of
`fopen` and `rename` are looked at: a listing that was cut short on its way to the
temporary file replaces the relay file like any other.
-/

namespace ExactDaemon

open Prog

/-- What goes wrong: whether the `fopen` and the `rename` fail, and how many bytes are lost
of what the `fprintf` of each entry and the `fclose` hand on. -/
structure Failures where
  fopen : Bool
  fprintf : ℕ → ℕ
  fclose : ℕ
  rename : Bool

def Failures.none : Failures := ⟨false, fun _ => 0, 0, false⟩

namespace World

def fopenFailing (fails : Bool) (path : Option CStr) (w : World) :
    Except Halt (Option ℕ × World) :=
  if fails then .ok (Option.none, w) else w.fopenWrite path

def fprintfCut (w : World) (fd : ℕ) (bs : Bytes) (lost : ℕ) : World :=
  { w with fs := w.fs.putCut fd bs (w.flushes.headD 0) lost, flushes := w.flushes.tail }

def printHostCut (w : World) (fd i lost : ℕ) : Except Halt (Unit × World) :=
  match w.tables.load (w.tables.auth, i) with
  | .error h => .error h
  | .ok e =>
    if e.Terminated then .ok ((), w.fprintfCut fd (e.hostname ++ [10]) lost)
    else .error .undefined

def fcloseCut (w : World) (fd lost : ℕ) : World := { w with fs := w.fs.closeCut fd lost }

def publishFailing (fails : Bool) (w : World) : Except Halt (Unit × World) :=
  match w.conffileParam (cstr "authtemp"), w.conffileParam (cstr "authfile") with
  | some old, some new =>
    match if fails then Option.none else w.fs.rename old new with
    | .none => .error (.exit 22)
    | some fs => .ok ((), { w with fs := fs })
  | _, _ => .error .undefined

end World

/-- `auth_write_text` under these failures. -/
def authWriteTextFailing (φ : Failures) : Prog World Unit := do
  let f ← attempt fun w => w.fopenFailing φ.fopen (w.conffileParam (cstr "authtemp"))
  match f with
  | none => halt (.exit 21)
  | some f => do
    let n ← read fun w => w.tables.authCur + 1
    loop (fun i w => i < w.tables.authCur)
      (fun i _ => attempt (·.printHostCut f i (φ.fprintf i))) n 0 ()
    modify (·.fcloseCut f φ.fclose)
    attempt (World.publishFailing φ.rename)

theorem World.printHostCut_zero (w : World) (fd i : ℕ) :
    w.printHostCut fd i 0 = w.printHost fd i := by
  have hput : ∀ bs, w.fprintfCut fd bs 0 = w.fprintf fd bs := fun bs => by
    rw [fprintfCut, Fs.putCut_zero, fprintf]
  unfold printHostCut printHost
  cases w.tables.load (w.tables.auth, i) with
  | error e => rfl
  | ok e =>
    dsimp only
    rw [hput]

/-- Without failures it is `auth_write_text`. -/
theorem authWriteTextFailing_none : authWriteTextFailing .none = authWriteText := by
  unfold authWriteTextFailing authWriteText authWriteLines Failures.none
  simp only [World.fopenFailing, World.printHostCut_zero, World.fcloseCut, World.fclose,
    Fs.closeCut_zero, Bool.false_eq_true, if_false]
  rfl

/-- What the calls write out: one line for each entry. -/
def Failures.writes (φ : Failures) (w : World) : List WriteOut :=
  w.tables.table.mapIdx fun i e => ⟨e.hostname ++ [10], (w.flushes.drop i).headD 0, φ.fprintf i⟩

/-- The relay file has the contents it had, or the listing of the table, and the call has
returned or has exited. -/
def Undamaged (φ : Failures) (w : World) (file : CStr) : Prop :=
  let o := (authWriteTextFailing φ).run w
  (o = .done () o.state ∨ ∃ code, o = .halted (.exit code) o.state) ∧
    (o.state.fs.contents file = w.fs.contents file ∨
      o.state.fs.contents file = some (listing w.tables.table))

/-- Both names lead to the same file once the temporary one is open. -/
def World.Shares (w : World) (tmp file : CStr) : Prop :=
  file = tmp ∨ w.fs.dir file = some (w.fs.target tmp)

/-- The state while the call, made in `w`, has made `n` writes. -/
structure CutDraft (w : World) (tmp : CStr) (x : Bytes × Bytes) (n : ℕ) (s : World) : Prop where
  frame : w.OnlyFiles s
  flushes : s.flushes = w.flushes.drop n
  dir : s.fs.dir = Function.update w.fs.dir tmp (some (w.fs.target tmp))
  other : ∀ i, i ≠ w.fs.target tmp → s.fs.data i = w.fs.data i
  holding : s.fs.Holding w.fs.nextFd (w.fs.target tmp) x

section

variable {φ : Failures} {w s : World} {tmp file : CStr} {x : Bytes × Bytes} {n : ℕ}

theorem Failures.length_writes (φ : Failures) (w : World) :
    (φ.writes w).length = w.tables.table.length := List.length_mapIdx

theorem Failures.text_writes (φ : Failures) (w : World) :
    WriteOut.text (φ.writes w) = listing w.tables.table := by
  rw [WriteOut.text, Failures.writes, List.mapIdx_eq_zipIdx_map, List.flatMap_map]
  calc w.tables.table.zipIdx.flatMap (fun p => p.1.hostname ++ [10])
      = (w.tables.table.zipIdx.map Prod.fst).flatMap fun e => e.hostname ++ [10] := by
        rw [List.flatMap_map]
    _ = listing w.tables.table := by rw [List.zipIdx_map_fst, listing]

theorem Failures.bytes_ne_nil (φ : Failures) (w : World) :
    ∀ o ∈ φ.writes w, o.bytes ≠ [] := by
  intro o ho
  obtain ⟨i, hi, rfl⟩ := List.mem_mapIdx.mp ho
  simp

theorem cutDraft_truncated (w : World) (tmp : CStr) :
    CutDraft w tmp ([], []) 0 { w with fs := w.fs.truncated tmp } where
  frame := .of_fs w _
  flushes := rfl
  dir := rfl
  other _ hi := Function.update_of_ne hi _ _
  holding := by constructor <;> simp [Fs.truncated]

theorem CutDraft.fprintf (h : CutDraft w tmp x n s) (bs : Bytes) (lost : ℕ) :
    CutDraft w tmp (WriteOut.step x ⟨bs, (w.flushes.drop n).headD 0, lost⟩) (n + 1)
      (s.fprintfCut w.fs.nextFd bs lost) where
  frame := h.frame.trans rfl
  flushes := by
    rw [World.fprintfCut, h.flushes, List.tail_drop]
  dir := h.dir
  other i hi := (Fs.data_putCut_of_ne (by rwa [h.holding.ino])).trans (h.other i hi)
  holding := by
    rw [World.fprintfCut, h.flushes]
    exact h.holding.putCut ⟨bs, _, lost⟩

/-- The state when the temporary file is closed. -/
structure CutShort (φ : Failures) (w : World) (tmp : CStr) (s : World) : Prop where
  frame : w.OnlyFiles s
  dir : s.fs.dir = Function.update w.fs.dir tmp (some (w.fs.target tmp))
  other : ∀ i, i ≠ w.fs.target tmp → s.fs.data i = w.fs.data i
  data : s.fs.data (w.fs.target tmp) = WriteOut.survivors (φ.writes w) φ.fclose

theorem CutDraft.fclose (h : CutDraft w tmp (WriteOut.drafted (φ.writes w)) n s) :
    CutShort φ w tmp (s.fcloseCut w.fs.nextFd φ.fclose) where
  frame := h.frame.trans rfl
  dir := h.dir
  other i hi := (Fs.data_closeCut_of_ne (by rwa [h.holding.ino])).trans (h.other i hi)
  data := h.holding.data_closeCut φ.fclose

theorem run_fopenFailing (htmp : w.conffileParam (cstr "authtemp") = some tmp)
    (h : φ.fopen = true ∨ w.fs.writable tmp = false) :
    (authWriteTextFailing φ).run w = .halted (.exit 21) w := by
  have hopen : w.fopenFailing φ.fopen (w.conffileParam (cstr "authtemp")) = .ok (none, w) := by
    rw [htmp, World.fopenFailing]
    rcases h with h | h
    · rw [if_pos h]
    · split
      · rfl
      · rw [World.fopenWrite, Fs.openWrite, h, if_neg Bool.false_ne_true]
  unfold authWriteTextFailing
  rw [run_bind, run_attempt, hopen]
  rfl

/-- One round of the loop makes one more write. -/
theorem CutDraft.printHost {i : ℕ} (hi : i < w.tables.table.length)
    (ht : ∀ e ∈ w.tables.table, e.Terminated)
    (h : CutDraft w tmp (WriteOut.drafted ((φ.writes w).take i)) i s) :
    ∃ s', s.printHostCut w.fs.nextFd i (φ.fprintf i) = .ok ((), s') ∧
      CutDraft w tmp (WriteOut.drafted ((φ.writes w).take (i + 1))) (i + 1) s' := by
  have hload : s.tables.load (s.tables.auth, i) = .ok w.tables.table[i] := by
    have hm : (w.tables.mem w.tables.auth)[i]? = some w.tables.table[i] := by
      rw [← List.getElem?_eq_getElem hi, Tables.table, List.getElem?_take_of_lt]
      rw [Tables.table, List.length_take] at hi
      omega
    simp [h.frame.tables, Tables.load, hm]
  have hw : i < (φ.writes w).length := by rwa [φ.length_writes]
  have hnext := h.fprintf (w.tables.table[i].hostname ++ [10]) (φ.fprintf i)
  refine ⟨_, by
    rw [World.printHostCut, hload]
    exact if_pos (ht _ (List.getElem_mem hi)), ?_⟩
  rw [WriteOut.drafted, List.take_succ_eq_append_getElem hw, List.foldl_concat]
  simpa [Failures.writes, WriteOut.drafted] using hnext

theorem run_authWriteTextFailing (htmp : w.conffileParam (cstr "authtemp") = some tmp)
    (hopen : φ.fopen = false) (hwritable : w.fs.writable tmp = true)
    (hcur : w.tables.authCur ≤ (w.tables.mem w.tables.auth).length)
    (ht : ∀ e ∈ w.tables.table, e.Terminated) :
    ∃ s, (authWriteTextFailing φ).run w = (attempt (World.publishFailing φ.rename)).run s ∧
      CutShort φ w tmp s := by
  have hlen : w.tables.table.length = w.tables.authCur := by simp [Tables.table, hcur]
  have hfopen : w.fopenFailing φ.fopen (w.conffileParam (cstr "authtemp")) =
      .ok (some w.fs.nextFd, { w with fs := w.fs.truncated tmp }) := by
    rw [htmp, World.fopenFailing, hopen, if_neg (by simp)]
    exact World.fopenWrite_ok hwritable
  let Inv (i : ℕ) (_ : Unit) (s : World) :=
    CutDraft w tmp (WriteOut.drafted ((φ.writes w).take i)) i s
  have hloop : always (fun _ => True)
      (loop (fun i w => i < w.tables.authCur)
        (fun i _ => attempt (·.printHostCut w.fs.nextFd i (φ.fprintf i)))
        (w.tables.authCur + 1) 0 ())
      (fun _ s => CutDraft w tmp (WriteOut.drafted (φ.writes w)) w.tables.authCur s)
      { w with fs := w.fs.truncated tmp } := by
    refine always_loop (N := w.tables.authCur) (fun i b s (_ : Inv i b s) => trivial) ?_ ?_ ?_
      (by simp) (Nat.zero_le _) (cutDraft_truncated w tmp)
    · intro i _ s h
      rw [h.frame.tables]
    · intro i _ s hi h
      obtain ⟨s', hs', h'⟩ := h.printHost (by omega) ht
      exact always_attempt hs' trivial trivial h'
    · intro _ s h
      have h : CutDraft w tmp (WriteOut.drafted ((φ.writes w).take w.tables.authCur))
        w.tables.authCur s := h
      rwa [List.take_of_length_le (by rw [φ.length_writes, hlen])] at h
  obtain ⟨_, s, hs, h⟩ := hloop.run_done
  refine ⟨_, ?_, h.fclose⟩
  unfold authWriteTextFailing
  rw [run_bind, run_attempt, hfopen]
  simp only [Outcome.bind_done]
  rw [run_bind, run_read, Outcome.bind_done, run_bind, hs, Outcome.bind_done, run_bind, run_modify,
    Outcome.bind_done]

/-- What the relay file holds before the `rename`. -/
theorem CutShort.contents (h : CutShort φ w tmp s) :
    (w.Shares tmp file → s.fs.contents file =
      some (WriteOut.survivors (φ.writes w) φ.fclose)) ∧
    (¬ w.Shares tmp file → s.fs.contents file = w.fs.contents file) := by
  constructor
  · intro hs
    have hd : s.fs.dir file = some (w.fs.target tmp) := by
      rw [h.dir]
      by_cases he : file = tmp
      · rw [he, Function.update_self]
      · rw [Function.update_of_ne he]
        exact hs.resolve_left he
    rw [Fs.contents, hd, Option.map_some, h.data]
  · intro hs
    rw [World.Shares, not_or] at hs
    rw [Fs.contents, h.dir, Function.update_of_ne hs.1, Fs.contents]
    cases hd : w.fs.dir file with
    | none => rfl
    | some i =>
      have hi : i ≠ w.fs.target tmp := fun he => hs.2 (he ▸ hd)
      rw [Option.map_some, Option.map_some, h.other i hi]

/-- What it holds after it. -/
theorem CutShort.publish (htmp : w.conffileParam (cstr "authtemp") = some tmp)
    (hfile : w.conffileParam (cstr "authfile") = some file) (h : CutShort φ w tmp s) :
    ∃ s', (attempt (World.publishFailing false)).run s = .done () s' ∧
      s'.fs.contents file = some (WriteOut.survivors (φ.writes w) φ.fclose) := by
  have hd : s.fs.dir tmp = some (w.fs.target tmp) := by simp [h.dir]
  obtain ⟨fs', hfs⟩ : ∃ fs', s.fs.rename tmp file = some fs' := Fs.rename_isSome (by simp [hd])
  have hok : s.publishFailing false = .ok ((), { s with fs := fs' }) := by
    rw [World.publishFailing, h.frame.conffileParam, h.frame.conffileParam, htmp, hfile]
    simp [hfs]
  refine ⟨_, run_attempt_ok hok, ?_⟩
  rw [Fs.contents_rename hfs, Fs.contents, hd, Option.map_some, h.data]

theorem run_publishFailing (htmp : w.conffileParam (cstr "authtemp") = some tmp)
    (hfile : w.conffileParam (cstr "authfile") = some file) (h : CutShort φ w tmp s) :
    (attempt (World.publishFailing true)).run s = .halted (.exit 22) s := by
  refine run_attempt_error ?_
  rw [World.publishFailing, h.frame.conffileParam, h.frame.conffileParam, htmp, hfile]
  rfl

/-- Nothing was published, or nothing was lost, or what is left is what was there. -/
def Harmless (φ : Failures) (w : World) (tmp file : CStr) : Prop :=
  (φ.fopen = true ∨ w.fs.writable tmp = false) ∨ (φ.rename = true ∧ ¬ w.Shares tmp file) ∨
    WriteOut.Lossless (φ.writes w) φ.fclose ∨
    w.fs.contents file = some (WriteOut.survivors (φ.writes w) φ.fclose)

theorem survivors_writes_iff : WriteOut.survivors (φ.writes w) φ.fclose = listing w.tables.table ↔
    WriteOut.Lossless (φ.writes w) φ.fclose := by
  rw [← φ.text_writes]
  exact WriteOut.survivors_eq_iff (φ.bytes_ne_nil w)

/-- What was left of the listing is what the relay file holds. -/
theorem undamaged_of_contents {o : Outcome World Unit}
    (hrun : (authWriteTextFailing φ).run w = o)
    (hend : o = .done () o.state ∨ ∃ code, o = .halted (.exit code) o.state)
    (hc : o.state.fs.contents file = some (WriteOut.survivors (φ.writes w) φ.fclose)) :
    Undamaged φ w file ↔ WriteOut.Lossless (φ.writes w) φ.fclose ∨
      w.fs.contents file = some (WriteOut.survivors (φ.writes w) φ.fclose) := by
  unfold Undamaged
  rw [hrun]
  dsimp only
  rw [hc, Option.some.injEq, survivors_writes_iff]
  constructor
  · rintro ⟨-, h | h⟩
    · exact Or.inr h.symm
    · exact Or.inl h
  · rintro (h | h)
    · exact ⟨hend, Or.inr h⟩
    · exact ⟨hend, Or.inl h.symm⟩

/-- The relay file comes to no harm exactly if the `fopen` or the `rename` fails, or if no
write is cut short, or if what is left of the listing is what the file held before. -/
theorem undamaged_iff (htmp : w.conffileParam (cstr "authtemp") = some tmp)
    (hfile : w.conffileParam (cstr "authfile") = some file)
    (hcur : w.tables.authCur ≤ (w.tables.mem w.tables.auth).length)
    (ht : ∀ e ∈ w.tables.table, e.Terminated) (φ : Failures) :
    Undamaged φ w file ↔ Harmless φ w tmp file := by
  unfold Harmless
  by_cases hopen : φ.fopen = true ∨ w.fs.writable tmp = false
  · have hrun := run_fopenFailing htmp hopen
    constructor
    · intro _
      exact Or.inl hopen
    · intro _
      unfold Undamaged
      rw [hrun]
      exact ⟨Or.inr ⟨21, rfl⟩, Or.inl rfl⟩
  · rw [or_iff_right hopen]
    rw [not_or, Bool.not_eq_true, Bool.not_eq_false] at hopen
    obtain ⟨s, hs, hcut⟩ := run_authWriteTextFailing htmp hopen.1 hopen.2 hcur ht
    cases hr : φ.rename with
    | false =>
      rw [hr] at hs
      obtain ⟨s', hs', hc⟩ := hcut.publish htmp hfile
      have h := undamaged_of_contents (hs.trans hs') (Or.inl rfl) hc
      rw [h]
      exact (or_iff_right fun h => absurd h.1 (by decide)).symm
    | true =>
      rw [hr, run_publishFailing htmp hfile hcut] at hs
      by_cases hsh : w.Shares tmp file
      · have h := undamaged_of_contents hs (Or.inr ⟨22, rfl⟩) (hcut.contents.1 hsh)
        rw [h]
        exact (or_iff_right fun h => h.2 hsh).symm
      · constructor
        · intro _
          exact Or.inl ⟨rfl, hsh⟩
        · intro _
          unfold Undamaged
          rw [hs]
          exact ⟨Or.inr ⟨22, rfl⟩, Or.inl (hcut.contents.2 hsh)⟩

/-- A daemon with these hosts in its table, in which the relay file lists a host. -/
def World.listed (hosts : List CStr) : World :=
  let w := (World.boot [⟨cstr "authtemp", cstr "relay.tmp", false⟩,
    ⟨cstr "authfile", cstr "relay", false⟩]).withFile (cstr "relay") (cstr "10.0.0.9\n")
  { w with tables := { w.tables with
      mem := fun _ => hosts.map fun h => ⟨h, 0⟩, authCur := hosts.length } }

theorem undamaged_iff_whole :
    Undamaged .none (World.listed [cstr "10.0.0.1", cstr "10.0.0.2"]) (cstr "relay") := by
  have htmp : (World.listed [cstr "10.0.0.1", cstr "10.0.0.2"]).conffileParam (cstr "authtemp") =
      some (cstr "relay.tmp") := by decide
  refine (undamaged_iff htmp (by decide) (by decide) (by decide) .none).mpr
    (Or.inr (Or.inr (Or.inl ⟨?_, Or.inr rfl⟩)))
  intro o ho
  obtain ⟨i, hi, rfl⟩ := List.mem_mapIdx.mp ho
  exact Or.inr rfl

/-- The disk is full when the file is closed, and the empty file is published. -/
theorem undamaged_full_disk :
    ¬ Undamaged ⟨false, fun _ => 0, 18, false⟩
      (World.listed [cstr "10.0.0.1", cstr "10.0.0.2"]) (cstr "relay") := by
  rintro ⟨-, h⟩
  revert h
  decide

end

end ExactDaemon
