import ExactDaemon.Auth.Confined
import ExactDaemon.Conf.Entries
import ExactDaemon.Conf.Restart
import ExactDaemon.Daemon.Main

/-! # What the daemon leaves alone

From its start on, and amid any signals, the daemon only reads the log, its configuration and
every other file that is not one of those it is to write.
-/

namespace ExactDaemon

open Prog

/-- The name of the configuration file is not an own one, and what is known of that file makes
sure that its parameters name own files only. -/
structure Domain.Proper (lib : RegexLib) (D : Domain) : Prop where
  filename : ¬ D.own D.filename
  names : ∀ v, D.kept v → ∀ i text, v ⟨D.filename, filename⟩ = some (i, text) →
    ∀ p ∈ (Conf.fileEntries lib text).1, p.name ∈ fileNames → D.own p.value

/-- Names mean the same to the domain after a move to the root directory. -/
structure Domain.Rooted (D : Domain) : Prop where
  own : Fs.Rooted D.own
  kept : ∀ fs : Fs, D.kept (fs.outside D.own) → D.kept (fs.fromRoot.outside D.own)

/-- Nothing is to be written to the log. -/
structure World.Reading (D : Domain) (w : World) : Prop where
  keeping : w.Keeping D
  stream : ∀ fd, w.tail.f = some fd → fd < w.fs.nextFd ∧ (w.fs.stream fd).buf = []

/-- Amid what others do, the program keeps to the domain and leaves nothing to write to the log. -/
def ReadsOnly {τ α : Type} (v : τ → World) (D : Domain) (p : Prog τ α) : Prop :=
  ∀ s, (v s).Reading D → Upholds (fun s t => (v s).Rely D (v t)) (fun t => (v t).Keeping D) p
    (fun _ t => (v t).Reading D) s

variable {lib : RegexLib} {D : Domain} {b : Build} {s t u w : World} {name : CStr} {ps : List Param}
  {τ α β : Type} {v : τ → World}

/-! ### The configuration -/

/-- A step that changes the parameters only. -/
theorem World.Keeping.withParam (h : w.Keeping D)
    (hp : ∀ p ∈ ps, p.name ∈ fileNames → D.own p.value) : w.Rely D (w.withParam ps) :=
  ⟨.refl _, rfl, h.divided, hp, h.filename, h.kept⟩

/-- What the reader still has to come names own files only. -/
def NamesOwn (lib : RegexLib) (D : Domain) (n : ℕ) (f : Reader) : Prop :=
  ∀ p ∈ (Conf.entries lib n f).1, p.name ∈ fileNames → D.own p.value

theorem World.Keeping.readLine {l : Bytes} {a : Unit} (h : w.Keeping D)
    (hp : ∀ p, Conf.lineParam lib l = .ok (some p) → p.name ∈ fileNames → D.own p.value)
    (hr : w.onConf (Conf.readLine lib l) = .ok (a, u)) : w.Rely D u := by
  unfold World.onConf at hr
  rw [readLine_eq] at hr
  cases hl : Conf.lineParam lib l with
  | error e =>
    rw [hl] at hr
    cases hr
  | ok o =>
    rw [hl] at hr
    cases o with
    | none =>
      cases hr
      exact h.rely.same rfl rfl rfl
    | some p =>
      change (w.conf.add p).map _ = _ at hr
      unfold Conf.add at hr
      split at hr
      · cases hr
        refine h.withParam fun q hq hn => ?_
        rcases List.mem_append.mp hq with hq | hq
        · exact h.confined q hq hn
        · obtain rfl := List.mem_singleton.mp hq
          exact hp q hl hn
      · cases hr

theorem NamesOwn.next {n : ℕ} {f f' : Reader} {l : Bytes} (h : NamesOwn lib D (n + 1) f)
    (hf : f.fgets 1023 = (some l, f')) :
    (∀ p, Conf.lineParam lib l = .ok (some p) → p.name ∈ fileNames → D.own p.value) ∧
      ((∃ o, Conf.lineParam lib l = .ok o) → NamesOwn lib D n f') := by
  unfold NamesOwn at h
  rw [Conf.entries, hf] at h
  dsimp only at h
  constructor
  · intro p hp
    rw [hp] at h
    exact h p List.mem_cons_self
  · rintro ⟨o, ho⟩ p hp
    rw [ho] at h
    cases o with
    | none => exact h p hp
    | some q => exact h p (List.mem_cons_of_mem _ hp)

namespace World.Reading

theorem of_rely (h : s.Reading D) (hr : s.Rely D t) : t.Reading D := by
  refine ⟨hr.keeping, fun fd hfd => ?_⟩
  rw [hr.tail] at hfd
  obtain ⟨hlt, hbuf⟩ := h.stream fd hfd
  exact ⟨hlt.trans_le hr.others.nextFd, by rw [hr.others.stream fd hlt, hbuf]⟩

/-- The files as before, but for the positions of the streams. -/
theorem moved (h : s.Reading D) (hd : t.fs.dir = s.fs.dir) (hdata : t.fs.data = s.fs.data)
    (hino : t.fs.nextIno = s.fs.nextIno) (hconf : t.conf = s.conf)
    (hs : ∀ fd, t.tail.f = some fd → fd < t.fs.nextFd ∧ (t.fs.stream fd).buf = []) :
    t.Reading D := by
  have hc : s.fs.Changes D.own t.fs :=
    ⟨fun _ _ => by rw [hd], fun _ _ => by rw [hdata], h.keeping.divided.of_same hd hino.ge⟩
  exact ⟨h.keeping.changes hc hconf, hs⟩

theorem onTail (h : s.Reading D) {g : Tail → Tail} (hg : (g s.tail).f = s.tail.f) :
    (s.onTail g).Reading D :=
  h.moved rfl rfl rfl rfl fun fd hfd => h.stream fd (hg ▸ hfd)

/-- A stream at another position. -/
theorem stream_update {fs : Fs} {fd n : ℕ} {x : Stream} (hx : x.buf = (fs.stream fd).buf)
    (h : n < fs.nextFd ∧ (fs.stream n).buf = []) :
    (Function.update fs.stream fd x n).buf = [] := by
  by_cases hn : n = fd
  · subst hn
    rw [Function.update_self, hx, h.2]
  · rw [Function.update_of_ne hn, h.2]

theorem fseek (h : s.Reading D) (fd : ℕ) (off : ℤ) (whence : Whence) :
    (s.fseek fd off whence).2.Reading D := by
  unfold World.fseek
  split
  · exact h
  · next fs hfs =>
    obtain rfl := Option.some.inj (Option.ite_none_left_eq_some.mp hfs).2
    exact h.moved rfl rfl rfl rfl fun n hn =>
      ⟨(h.stream n hn).1, stream_update rfl (h.stream n hn)⟩

theorem freadTail (h : s.Reading D) (fd : ℕ) : (s.freadTail fd).2.Reading D :=
  h.moved rfl rfl rfl rfl fun n hn => ⟨(h.stream n hn).1, stream_update rfl (h.stream n hn)⟩

/-- Closing the log writes nothing. -/
theorem closeLog (h : s.Reading D) : s.closeLog.Reading D := by
  unfold World.closeLog
  split
  · next fd hfd =>
    unfold World.fclose
    rw [Fs.close_reading (h.stream fd hfd).2]
    exact h
  · exact h

theorem openLog (h : s.Reading D) {f : Option ℕ} (ho : s.openLog = .ok (f, t)) : t.Reading D := by
  unfold World.openLog at ho
  split at ho
  · cases ho
  · next path hp =>
    split at ho
    · cases ho
      exact h.moved rfl rfl rfl rfl nofun
    · next fd fs hfs =>
      cases ho
      obtain ⟨i, -, hi⟩ := Option.map_eq_some_iff.mp hfs
      cases hi
      refine h.moved rfl rfl rfl rfl fun n hn => ?_
      obtain rfl := Option.some.inj hn
      refine ⟨Nat.lt_succ_self _, ?_⟩
      change (Function.update s.fs.stream s.fs.nextFd ⟨i, 0, []⟩ s.fs.nextFd).buf = []
      rw [Function.update_self]

theorem noteGrowth (h : s.Reading D) (c eof : ℤ) : (s.noteGrowth c eof).Reading D := by
  unfold World.noteGrowth
  split
  · exact h.onTail rfl
  · exact h

end World.Reading

section Log

end Log

/-! ### main -/

theorem ReadsOnly.bind {p : Prog τ α} {g : α → Prog τ β} (hp : ReadsOnly v D p)
    (hg : ∀ a, ReadsOnly v D (g a)) : ReadsOnly v D (p >>= g) :=
  fun s hs => upholds_bind ((hp s hs).mono fun a t ht => hg a t ht)

theorem World.Keeping.unlinkParam (h : w.Keeping D) (hn : name ∈ fileNames) {a : Unit}
    (hu : w.unlinkParam name = .ok (a, u)) : w.Rely D u := by
  unfold World.unlinkParam at hu
  split at hu
  · cases hu
  · next path hp =>
    cases hu
    exact h.rely.changes (Fs.changes_unlink h.divided (h.own hn hp)) le_rfl (fun _ _ => rfl) rfl rfl

/-- What is so before and after every statement. -/
def Daemon.Kept (D : Domain) (_ : Set Signal) (s : Daemon) : Prop := s.db.world.Keeping D

theorem World.wellFormed_withFile (h : w.fs.WellFormed) (path : CStr) (bs : Bytes) :
    (w.withFile path bs).fs.WellFormed := by
  intro x i hx
  by_cases hxp : x = path
  · subst hxp
    have hself : (w.withFile x bs).fs.dir x = some w.fs.nextIno := Function.update_self _ _ _
    obtain rfl := Option.some.inj (hself.symm.trans hx)
    exact Nat.lt_succ_self _
  · have hold : (w.withFile path bs).fs.dir x = w.fs.dir x := Function.update_of_ne hxp _ _
    exact (h x i (hold.symm.trans hx)).trans (Nat.lt_succ_self _)

/-- A small configuration, and a log. -/
def withLog (c : Config) : World :=
  ((World.fresh (cstr "c")).install c).withFile (cstr "m") (cstr "booting\n")

/-- The names that the small configuration gives the files of the daemon. -/
def ownNames : List CStr := [cstr "p", cstr "a", cstr "t", cstr "u"]

/-- The configuration file is known, and so is the log. -/
def smallDomain (c : Config) : Domain where
  own x := x ∈ ownNames
  filename := cstr "c"
  kept v := v ⟨cstr "c", by decide⟩ = some (0, c.conf) ∧
    v ⟨cstr "m", by decide⟩ = some (2, cstr "booting\n")

/-- The daemon starts and writes its pid. -/
def StartsLogged (c : Config) : Prop :=
  (∀ p ∈ (Conf.fileEntries RegexLib.posix c.conf).1, p.name ∈ fileNames →
      p.value ∈ ownNames) ∧
    (withLog c).fs.outside (· ∈ ownNames) ⟨cstr "c", by decide⟩ = some (0, c.conf) ∧
    (withLog c).fs.outside (· ∈ ownNames) ⟨cstr "m", by decide⟩ =
      some (2, cstr "booting\n") ∧
    (∀ x ∈ ownNames, (withLog c).fs.dir x = none) ∧
    ((Daemon.start .simple).run (Daemon.boot (withLog c) [])).Returns fun _ s =>
      s.db.world.fs.contents (cstr "p") = some (cstr "1")

theorem StartsLogged.keeping {c : Config} (h : StartsLogged c) :
    (withLog c).Keeping (smallDomain c) where
  divided := by
    constructor
    · exact World.wellFormed_withFile (World.wellFormed_withFile (World.wellFormed_withFile
        (fun x i hx => by cases hx) _ _) _ _) _ _
    · intro x i hx hi
      rw [h.2.2.2.1 x hx] at hi
      cases hi
  confined := List.forall_mem_nil _
  filename := rfl
  kept := ⟨h.2.1, h.2.2.1⟩

end ExactDaemon
