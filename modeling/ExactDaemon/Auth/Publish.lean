import ExactDaemon.Auth.Text
import ExactDaemon.Lib.Weave

/-! # Publishing the relay file

An undisturbed `auth_write_text` drafts the listing of the table in a file that
the relay file's name does not lead to, and then moves it there. Nothing but
files changes.
-/

namespace ExactDaemon

open Prog

/-- One newline-terminated line for each entry. -/
def listing (l : List AuthEntry) : Bytes := l.flatMap fun e => e.hostname ++ [10]

@[simp] theorem listing_nil : listing [] = [] := rfl

theorem listing_take_succ {l : List AuthEntry} {i : ℕ} (h : i < l.length) :
    listing (l.take (i + 1)) = listing (l.take i) ++ (l[i].hostname ++ [10]) := by
  rw [List.take_succ_eq_append_getElem h]
  simp only [listing, List.flatMap_append, List.flatMap_cons, List.flatMap_nil, List.append_nil]

/-- The configuration names both files and the temporary one can be written. -/
structure World.Publishes (w : World) (tmp file : CStr) : Prop where
  authtemp : w.conffileParam (cstr "authtemp") = some tmp
  authfile : w.conffileParam (cstr "authfile") = some file
  writable : w.fs.writable tmp = true

/-- Only files, and stdio's choices about them, differ. -/
def World.OnlyFiles (w w' : World) : Prop := w' = { w with fs := w'.fs, flushes := w'.flushes }

namespace World.OnlyFiles

variable {w w' w'' : World}

theorem refl (w : World) : w.OnlyFiles w := rfl

theorem trans (h : w.OnlyFiles w') (h' : w'.OnlyFiles w'') : w.OnlyFiles w'' := by
  unfold OnlyFiles at *
  rw [h', h]

theorem tables (h : w.OnlyFiles w') : w'.tables = w.tables := by
  rw [show w' = _ from h]

theorem clock (h : w.OnlyFiles w') : w'.clock = w.clock := by
  rw [show w' = _ from h]

theorem alarm (h : w.OnlyFiles w') : w'.alarm = w.alarm := by
  rw [show w' = _ from h]

theorem conf (h : w.OnlyFiles w') : w'.conf = w.conf := by
  rw [show w' = _ from h]

theorem conffileParam (h : w.OnlyFiles w') (name : CStr) :
    w'.conffileParam name = w.conffileParam name :=
  congrFun (World.conffileParam_congr h.conf) name

theorem of_fs (w : World) (fs : Fs) : w.OnlyFiles { w with fs := fs } := rfl

theorem fprintf (w : World) (fd : ℕ) (bs : Bytes) : w.OnlyFiles (w.fprintf fd bs) := rfl

theorem printHost {fd i : ℕ} {u : Unit} (h : w.printHost fd i = .ok (u, w')) : w.OnlyFiles w' := by
  unfold World.printHost at h
  split at h
  · cases h
  · split at h <;> cases h
    exact .fprintf w _ _

theorem fopenWrite {path : Option CStr} {f : Option ℕ} (h : w.fopenWrite path = .ok (f, w')) :
    w.OnlyFiles w' := by
  unfold World.fopenWrite at h
  split at h
  · cases h
    exact .refl _
  · split at h <;> cases h
    · exact .refl _
    · exact .of_fs _ _

theorem publish {u : Unit} (h : w.publish = .ok (u, w')) : w.OnlyFiles w' := by
  unfold World.publish at h
  split at h
  · split at h <;> cases h
    exact .of_fs _ _
  · cases h

end World.OnlyFiles

/-- The configuration stays, and no file appears but under the values of these parameters. -/
structure World.Creates (names : List CStr) (w w' : World) : Prop where
  conf : w'.conf = w.conf
  absent : ∀ x, (∀ name ∈ names, w.conffileParam name ≠ some x) → w.fs.dir x = none →
    w'.fs.dir x = none

namespace World.Creates

variable {names names' : List CStr} {w w' w'' : World}

theorem of_same (hc : w'.conf = w.conf) (hd : w'.fs.dir = w.fs.dir) : w.Creates names w' :=
  ⟨hc, fun _ _ hx => by rw [hd, hx]⟩

theorem refl (w : World) : w.Creates names w := .of_same rfl rfl

theorem conffileParam (h : w.Creates names w') (name : CStr) :
    w'.conffileParam name = w.conffileParam name :=
  congrFun (World.conffileParam_congr h.conf) name

theorem trans (h : w.Creates names w') (h' : w'.Creates names w'') : w.Creates names w'' := by
  refine ⟨h'.conf.trans h.conf, fun x hx hd => h'.absent x (fun name hn => ?_) (h.absent x hx hd)⟩
  rw [h.conffileParam]
  exact hx name hn

theorem mono (hn : names ⊆ names') (h : w.Creates names w') : w.Creates names' w' :=
  ⟨h.conf, fun x hx => h.absent x fun name h => hx name (hn h)⟩

theorem printHost {fd i : ℕ} {u : Unit} (h : w.printHost fd i = .ok (u, w')) :
    w.Creates names w' := by
  unfold World.printHost at h
  split at h
  · cases h
  · split at h <;> cases h
    exact .of_same rfl rfl

theorem fopenWrite {name : CStr} {f : Option ℕ}
    (h : w.fopenWrite (w.conffileParam name) = .ok (f, w')) : w.Creates [name] w' := by
  cases hp : w.conffileParam name with
  | none =>
    rw [hp] at h
    cases h
    exact .refl w
  | some path =>
    rw [hp, World.fopenWrite, Fs.openWrite] at h
    split at h
    · cases h
      exact .refl w
    · next fs hfs =>
      split at hfs
      · cases hfs
        cases h
        refine ⟨rfl, fun x hx hd => ?_⟩
        have hne : x ≠ path := by
          rintro rfl
          exact hx name (List.mem_singleton_self _) hp
        exact (Function.update_of_ne hne _ _).trans hd
      · cases hfs

theorem publish {u : Unit} (h : w.publish = .ok (u, w')) : w.Creates [cstr "authfile"] w' := by
  unfold World.publish at h
  split at h
  · next old new _ hnew =>
    split at h
    · cases h
    · next fs hfs =>
      cases h
      refine ⟨rfl, fun x hx hd => ?_⟩
      have hne : x ≠ new := by
        rintro rfl
        exact hx _ (List.mem_singleton_self _) hnew
      unfold Fs.rename at hfs
      split at hfs
      · cases hfs
      · split at hfs <;> cases hfs
        · exact hd
        · by_cases ho : x = old
          · rw [ho]
            exact Function.update_self _ _ _
          · exact (Function.update_of_ne ho _ _).trans ((Function.update_of_ne hne _ _).trans hd)
  · cases h

end World.Creates

/-- The parameters under which `auth_write_text` creates files. -/
def relayNames : List CStr := [cstr "authtemp", cstr "authfile"]

/-- `auth_write_text` changes nothing but files, and creates few. -/
theorem keeps_authWriteText {J : World → Prop}
    (hF : ∀ s t : World, s.OnlyFiles t → s.Creates relayNames t → J s → J t) :
    Keeps J authWriteText := by
  have htemp : [cstr "authtemp"] ⊆ relayNames := List.cons_subset.mpr ⟨List.mem_cons_self, nofun⟩
  have hfile : [cstr "authfile"] ⊆ relayNames := List.subset_cons_self _ _
  refine Keeps.bind (keeps_attempt fun s a s' h hs =>
    hF _ _ (.fopenWrite hs) (.mono htemp (.fopenWrite hs)) h) fun f => ?_
  cases f with
  | none => exact keeps_halt _
  | some f =>
    refine (keeps_read _).bind fun n => (keeps_loop (fun i _ => ?_) _ _ _).bind fun _ => ?_
    · exact keeps_attempt fun s a s' h hs => hF _ _ (.printHost hs) (.printHost hs) h
    · refine (keeps_act fun s h => hF s _ (.of_fs s _) (.of_same rfl rfl) h).bind fun _ => ?_
      exact keeps_attempt fun s a s' h hs =>
        hF _ _ (.publish hs) (.mono hfile (.publish hs)) h

theorem onlyFiles_authWriteText {s t : World} (h : authWriteText.run s = .done () t) :
    s.OnlyFiles t :=
  (keeps_authWriteText fun _ _ hst _ hs => hs.trans hst).run_done (.refl s) h

theorem World.fopenWrite_ok {w : World} {path : CStr} (h : w.fs.writable path = true) :
    w.fopenWrite (some path) = .ok (some w.fs.nextFd, { w with fs := w.fs.truncated path }) := by
  simp [fopenWrite, Fs.openWrite, h]

/-- The state while `auth_write_text`, called in `w`, has printed `bs`. -/
structure Draft (w : World) (tmp : CStr) (bs : Bytes) (s : World) : Prop where
  frame : w.OnlyFiles s
  writable : s.fs.writable = w.fs.writable
  nextIno : s.fs.nextIno = (w.fs.truncated tmp).nextIno
  dir : s.fs.dir = Function.update w.fs.dir tmp (some (w.fs.target tmp))
  other : ∀ i, i ≠ w.fs.target tmp → s.fs.data i = w.fs.data i
  writing : s.fs.Writing w.fs.nextFd (w.fs.target tmp) bs

/-- The state after `auth_write_text`, called in `w`, has returned. -/
structure Published (w : World) (tmp file : CStr) (s : World) : Prop where
  frame : w.OnlyFiles s
  writable : s.fs.writable = w.fs.writable
  nextIno : s.fs.nextIno = (w.fs.truncated tmp).nextIno
  contents : s.fs.contents file = some (listing w.tables.table)
  dir : file ≠ tmp → w.fs.dir file ≠ some (w.fs.target tmp) → s.fs.dir =
    Function.update (Function.update w.fs.dir file (some (w.fs.target tmp))) tmp none

section

variable {w s : World} {tmp file : CStr} {bs : Bytes}

theorem draft_truncated (w : World) (tmp : CStr) :
    Draft w tmp [] { w with fs := w.fs.truncated tmp } where
  frame := .of_fs w _
  writable := rfl
  nextIno := rfl
  dir := rfl
  other _ hi := Function.update_of_ne hi _ _
  writing := Fs.writing_truncated tmp w.fs

theorem Draft.fprintf (h : Draft w tmp bs s) (x : Bytes) :
    Draft w tmp (bs ++ x) (s.fprintf w.fs.nextFd x) where
  frame := h.frame.trans (.fprintf s _ _)
  writable := h.writable
  nextIno := h.nextIno
  dir := h.dir
  other i hi := (Fs.data_put_of_ne _ _ _ _ (by rwa [h.writing.ino])).trans (h.other i hi)
  writing := h.writing.put x _

theorem Draft.fclose (h : Draft w tmp bs s) : Draft w tmp bs (s.fclose w.fs.nextFd) where
  frame := h.frame.trans (.of_fs s _)
  writable := h.writable
  nextIno := h.nextIno
  dir := h.dir
  other i hi := (Fs.data_close_of_ne _ _ (by rwa [h.writing.ino])).trans (h.other i hi)
  writing := h.writing.flush _

theorem Draft.data_fclose (h : Draft w tmp bs s) :
    (s.fclose w.fs.nextFd).fs.data (w.fs.target tmp) = bs :=
  h.writing.data_close

/-- The `rename` succeeds and gives the relay file what was drafted. -/
theorem Draft.publish (hp : w.Publishes tmp file) (h : Draft w tmp bs s)
    (hbs : s.fs.data (w.fs.target tmp) = bs) (hl : bs = listing w.tables.table) :
    ∃ s', s.publish = .ok ((), s') ∧ Published w tmp file s' := by
  have hd : s.fs.dir tmp = some (w.fs.target tmp) := by simp [h.dir]
  obtain ⟨fs', hfs⟩ : ∃ fs', s.fs.rename tmp file = some fs' :=
    Fs.rename_isSome (by simp [hd])
  have ht := (h.frame.conffileParam _).trans hp.authtemp
  have hf := (h.frame.conffileParam _).trans hp.authfile
  refine ⟨{ s with fs := fs' }, by simp [World.publish, ht, hf, hfs], ?_⟩
  constructor
  · exact h.frame.trans (.of_fs s fs')
  · exact (Fs.writable_rename hfs).trans h.writable
  · refine Eq.trans ?_ h.nextIno
    unfold Fs.rename at hfs
    rw [hd] at hfs
    dsimp only at hfs
    split at hfs <;> · obtain rfl := Option.some.inj hfs; rfl
  · rw [Fs.contents_rename hfs, Fs.contents, hd, Option.map_some, hbs, hl]
  · intro he hi
    have hne := Fs.rename_of_dir_ne hd (by rwa [h.dir, Function.update_of_ne he])
    obtain rfl := Option.some.inj (hfs.symm.trans hne)
    funext path
    by_cases hpath : path = tmp
    · simp [hpath]
    · by_cases hpf : path = file
      · simp [hpf, Function.update_of_ne he]
      · simp [h.dir, Function.update_of_ne hpath, Function.update_of_ne hpf]

/-- What an undisturbed `auth_write_text` does, in each of its states and at its end. -/
theorem always_authWriteText {I : World → Prop} (hp : w.Publishes tmp file)
    (hcur : w.tables.authCur ≤ (w.tables.mem w.tables.auth).length)
    (ht : ∀ e ∈ w.tables.table, e.Terminated) (hw : I w)
    (hd : ∀ bs s, Draft w tmp bs s → I s) (hP : ∀ s, Published w tmp file s → I s) :
    always I authWriteText (fun _ s => Published w tmp file s) w := by
  have hlen : w.tables.table.length = w.tables.authCur := by simp [Tables.table, hcur]
  unfold authWriteText
  refine always_bind (always_attempt (by rw [hp.authtemp]; exact World.fopenWrite_ok hp.writable)
    hw (hd [] _ (draft_truncated w tmp)) ?_)
  unfold authWriteLines
  have h₀ := draft_truncated w tmp
  let Inv (i : ℕ) (_ : Unit) (s : World) := Draft w tmp (listing (w.tables.table.take i)) s
  have h₀' : Inv 0 () { w with fs := w.fs.truncated tmp } := h₀
  refine always_bind (always_read (hd _ _ h₀) (always_bind (always_loop
    (N := w.tables.authCur) (fun i _ s (h : Inv i () s) => hd _ s h) ?_ ?_ ?_ (by simp)
    (Nat.zero_le _) h₀')))
  · intro i _ s h
    rw [h.frame.tables]
  · intro i _ s hi h
    have hi' : i < w.tables.table.length := by omega
    have hload : s.tables.load (s.tables.auth, i) = .ok w.tables.table[i] := by
      have hm : i < (w.tables.mem w.tables.auth).length := by omega
      simp [h.frame.tables, Tables.load, Tables.table, List.getElem?_eq_getElem hm]
    have h' := h.fprintf (w.tables.table[i].hostname ++ [10])
    rw [← listing_take_succ hi'] at h'
    have hterm := ht _ (List.getElem_mem hi')
    exact always_attempt (a := ()) (by simp [World.printHost, hload, hterm]) (hd _ s h)
      (hd _ _ h') h'
  · intro _ s (h : Draft w tmp (listing (w.tables.table.take w.tables.authCur)) s)
    rw [List.take_of_length_le hlen.le] at h
    refine always_bind (always_modify (hd _ _ h) (hd _ _ h.fclose) ?_)
    obtain ⟨s', hs', hpub⟩ := h.fclose.publish hp h.data_fclose rfl
    exact always_attempt hs' (hd _ _ h.fclose) (hP s' hpub) hpub

theorem run_authWriteText (hp : w.Publishes tmp file)
    (hcur : w.tables.authCur ≤ (w.tables.mem w.tables.auth).length)
    (ht : ∀ e ∈ w.tables.table, e.Terminated) :
    ∃ s, authWriteText.run w = .done () s ∧ Published w tmp file s := by
  obtain ⟨_, s, h, hs⟩ := (always_authWriteText (I := fun _ => True) hp hcur ht trivial
    (fun _ _ _ => trivial) fun _ _ => trivial).run_done
  exact ⟨s, h, hs⟩

end

end ExactDaemon
