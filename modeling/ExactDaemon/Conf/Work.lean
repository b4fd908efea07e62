import ExactDaemon.Auth.Discipline
import ExactDaemon.Conf.Running

/-! # A daemon at work

What a daemon of either build does from its start on with lines, alarms and reloads, and what
it reports of that. The handle of the database stays what `auth_init` made it.
-/

namespace ExactDaemon

open Prog

/-! ### A daemon at work -/

/-- What `onepass` does with the result of `match_line`. -/
def authorise (withDb : Bool) (libc : Libc) : Option MatchLogin → Prog DbWorld Unit
  | some l => DbWorld.authAdd withDb libc l.username l.hostname
  | none => pure ()

/-- A line as `onepass` handles it, and what it finds there, which goes into the log. -/
def logLine (withDb : Bool) (lib : RegexLib) (libc : Libc) (buff : CStr) :
    Prog DbWorld (Option MatchLogin) := do
  let l ← zoom DbWorld.toWorld (matchLine lib buff)
  authorise withDb libc l
  pure l

/-- Without the database this is `handLine`. -/
theorem zoom_handLine (lib : RegexLib) (libc : Libc) (buff : CStr) :
    zoom DbWorld.toWorld (handLine lib libc buff) =
      logLine false lib libc buff >>= fun _ => pure () := by
  unfold handLine logLine
  rw [zoom_bind, LawfulMonad.bind_assoc]
  refine bind_congr fun l => ?_
  rw [LawfulMonad.bind_assoc]
  cases l with
  | none => rfl
  | some l => exact bind_pure_unit.symm

/-- Someone changes which files can be written. -/
def World.permit (writable : CStr → Bool) (w : World) : World :=
  { w with fs := { w.fs with writable := writable } }

/-- What befalls a running daemon: `faults` are the library's calls to come that fail. -/
inductive Work where
  | line (t : ℤ) (buff : CStr)
  | clean (t : ℤ) (data : DbRecord → ℤ)
  | permit (writable : CStr → Bool)
  | faults (l : List Bool)

/-- What it logs of that, and what it did with which database. -/
structure Report where
  login : Option MatchLogin
  calls : List (DbCall × Option CStr)

namespace Work

def call (withDb : Bool) (lib : RegexLib) (libc : Libc) : Work → Prog DbWorld (Option MatchLogin)
  | line t buff => do
    zoom DbWorld.toWorld (modify (·.atClock t))
    logLine withDb lib libc buff
  | clean t data => do
    zoom DbWorld.toWorld (modify (·.atClock t))
    DbWorld.authClean withDb data
    pure none
  | permit writable => do
    zoom DbWorld.toWorld (modify (·.permit writable))
    pure none
  | faults l => do
    modify fun d => { d with faults := l }
    pure none

/-- `file` is the name under which the database was opened. -/
def report (withDb : Bool) (lib : RegexLib) (libc : Libc) (file : Option CStr) (x : Work) :
    Prog DbWorld Report := do
  let n ← read fun d => d.calls.length
  let l ← x.call withDb lib libc
  let calls ← read fun d => d.calls.drop n
  pure ⟨l, calls.map fun c => (c.1, file)⟩

/-- A line is a string. -/
def Proper : Work → Prop
  | line _ buff => 0 ∉ buff
  | _ => True

end Work

/-- One piece of work after another; what is reported is returned. -/
def works (withDb : Bool) (lib : RegexLib) (libc : Libc) (file : Option CStr) :
    List Work → Prog DbWorld (List Report)
  | [] => pure []
  | x :: xs => do
    let r ← x.report withDb lib libc file
    let rs ← works withDb lib libc file xs
    pure (r :: rs)

namespace DbWorld

/-- A process that was just started, with this configuration in its files. -/
def fresh (fn : CStr) (c : Config) (faults : List Bool) : DbWorld :=
  ⟨(World.fresh fn).install c, .unset, [], faults⟩

def install (c : Config) (d : DbWorld) : DbWorld := toWorld.set d (d.world.install c)

end DbWorld

variable {withDb : Bool} {lib : RegexLib} {libc : Libc} {onLiteral : Except Halt Unit}
  {w u : World} {s t d : DbWorld} {m m₁ m₂ order buff fn : CStr} {flush flush₁ flush₂ : ℤ}
  {c : Config} {cf : Conf} {h : Handle} {f g : Option CStr} {inDb : Prop}
  {db : Prog DbWorld Unit} {text : Prog World Unit}

/-! ### What a daemon keeps -/

/-- A daemon runs, with this configuration and this handle. -/
def Holding (lib : RegexLib) (fn m : CStr) (flush : ℤ) (cf : Conf) (h : Handle) (d : DbWorld) :
    Prop := d.world.Running lib fn m flush ∧ d.world.conf = cf ∧ d.handle = h

namespace Holding

theorem set (hd : Holding lib fn m flush cf h d) (hw : w.Running lib fn m flush)
    (hc : w.conf = d.world.conf) : Holding lib fn m flush cf h (DbWorld.toWorld.set d w) :=
  ⟨hw, hc.trans hd.2.1, hd.2.2⟩

theorem records (hd : Holding lib fn m flush cf h d) (x : Db) :
    Holding lib fn m flush cf h { d with world := d.world.withDb x } :=
  ⟨hd.1.of_same rfl rfl rfl hd.1.wellFormed, hd.2⟩

theorem afterCall (hd : Holding lib fn m flush cf h d) {k : DbCall} {code : ℕ}
    {g : World → World} (hg : ∀ w, ∃ x, g w = w.withDb x) :
    Holding lib fn m flush cf h (DbWorld.afterCall k code g d) := by
  have hworld : (DbWorld.afterCall k code g d).world = d.world ∨
      (DbWorld.afterCall k code g d).world = g d.world := by
    unfold DbWorld.afterCall
    dsimp only
    split
    · exact .inr rfl
    · exact .inl rfl
  rcases hworld with he | he
  · exact ⟨he ▸ hd.1, he ▸ hd.2.1, hd.2.2⟩
  · obtain ⟨x, hx⟩ := hg d.world
    have hset := hd.records x
    exact ⟨he ▸ hx ▸ hset.1, he ▸ hx ▸ hset.2.1, hd.2.2⟩

end Holding

theorem keeps_holding_authDbAdd (username hostname : CStr) :
    Keeps (Holding lib fn m flush cf h) (DbWorld.authDbAdd username hostname) := by
  refine (keeps_zoom_read _).bind fun now => Keeps.bind ?_ fun _ => ?_
  · exact keeps_call fun d hd => hd.afterCall fun w => ⟨_, rfl⟩
  · exact keeps_call fun d hd => hd.afterCall fun w => ⟨w.db, rfl⟩

theorem keeps_holding_authDbSweep (data : DbRecord → ℤ) (now max : ℤ) (l : List DbRecord) :
    Keeps (Holding lib fn m flush cf h) (DbWorld.authDbSweep data now max l) := by
  induction l with
  | nil => exact keeps_pure _
  | cons r l ih =>
    unfold DbWorld.authDbSweep
    split
    · exact (keeps_tryCall fun d l hd => hd.records _).bind fun _ => ih
    · exact ih

theorem keeps_holding_authDbClean (data : DbRecord → ℤ) :
    Keeps (Holding lib fn m flush cf h) (DbWorld.authDbClean data) := by
  refine (keeps_zoom_read _).bind fun now => Keeps.bind ?_ fun max => Keeps.bind ?_ fun _ => ?_
  · refine keeps_zoom_same fun w a w' he => ?_
    cases hp : w.conffileParamInt (cstr "timeout") with
    | error e =>
      rw [hp] at he
      cases he
    | ok n =>
      rw [hp] at he
      cases he
      rfl
  · exact keeps_call fun d hd => hd.afterCall fun w => ⟨w.db, rfl⟩
  · exact (keeps_zoom_read _).bind fun records => keeps_holding_authDbSweep _ _ _ _

/-- The daemon still runs, with the same configuration and the same handle, which it uses in
database mode only. -/
structure Kept (withDb : Bool) (lib : RegexLib) (fn m : CStr) (flush : ℤ) (s t : DbWorld) :
    Prop where
  holding : Holding lib fn m flush s.world.conf s.handle t
  calls : ¬ DbMode withDb s.world.conffileParam → t.calls = s.calls

namespace Kept

theorem refl (hs : s.world.Running lib fn m flush) : Kept withDb lib fn m flush s s :=
  ⟨⟨hs, rfl, rfl⟩, fun _ => rfl⟩

theorem trans (h₁ : Kept withDb lib fn m flush s d) (h₂ : Kept withDb lib fn m flush d t) :
    Kept withDb lib fn m flush s t := by
  have hlook : d.world.conffileParam = s.world.conffileParam :=
    World.conffileParam_congr h₁.holding.2.1
  refine ⟨⟨h₂.holding.1, h₂.holding.2.1.trans h₁.holding.2.1,
    h₂.holding.2.2.trans h₁.holding.2.2⟩, fun hn => ?_⟩
  rw [h₂.calls (hlook ▸ hn), h₁.calls hn]

theorem set (hw : w.Running lib fn m flush) (hc : w.conf = s.world.conf) :
    Kept withDb lib fn m flush s (DbWorld.toWorld.set s w) :=
  ⟨⟨hw, hc, rfl⟩, fun _ => rfl⟩

theorem byBackend (hs : s.world.Running lib fn m flush)
    (hdb : ∀ cf h, Keeps (Holding lib fn m flush cf h) db) (hc : Creating relayNames text)
    (htext : ∀ w, text.run s.world = .done () w → w.Running lib fn m flush)
    (hr : (byBackend withDb db text).run s = .done () t) : Kept withDb lib fn m flush s t := by
  by_cases hmode : DbMode withDb s.world.conffileParam
  · rw [run_byBackend_of_dbMode hmode] at hr
    exact ⟨(hdb _ _).run_done ⟨hs, rfl, rfl⟩ hr, fun hn => absurd hmode hn⟩
  · obtain ⟨v, hv, -⟩ := hs.accepted.authtype
    rw [run_byBackend_of_not_dbMode ⟨v, hv⟩ hmode] at hr
    have hconf := (hc.conf s.world.conf).run_done rfl hr
    obtain ⟨w, hw, rfl⟩ := done_of_zoom hr
    exact .set (htext w hw) hconf

theorem logLine {l : Option MatchLogin} (hs : s.world.Running lib fn m flush)
    (hr : (logLine withDb lib libc buff).run s = .done l t) :
    Kept withDb lib fn m flush s t := by
  obtain ⟨order, ho, -⟩ := hs.accepted.order
  obtain ⟨l', s', hl, hr'⟩ := done_of_bind hr
  obtain ⟨w, hw, rfl⟩ := done_of_zoom hl
  rw [show DbWorld.toWorld.get s = s.world from rfl, run_matchLine_texts hs.patbuf ho] at hw
  cases hx : groupTexts lib m buff with
  | error e =>
    rw [hx] at hw
    cases hw
  | ok x =>
    rw [hx] at hw
    cases hw
    obtain ⟨_, s₁, hs₁, hr₁⟩ := done_of_bind hr'
    cases hr₁
    cases x with
    | none =>
      cases hs₁
      exact .refl hs
    | some x =>
      let y := MatchLogin.ofTexts order x
      refine .byBackend hs (fun _ _ => keeps_holding_authDbAdd y.username y.hostname)
        (creating_authTextAdd libc y.username y.hostname) (fun w hw => ?_) hs₁
      exact hs.of_add (groupTexts_length hx order) hw

theorem call {x : Work} {l : Option MatchLogin} (hs : s.world.Running lib fn m flush)
    (hr : (x.call withDb lib libc).run s = .done l t) : Kept withDb lib fn m flush s t := by
  have hclock : ∀ t, (s.world.atClock t).Running lib fn m flush := fun t =>
    hs.of_same rfl rfl rfl hs.wellFormed
  cases x with
  | line t buff =>
    have hr' := (run_atClock t).symm.trans hr
    have hset : Kept withDb lib fn m flush s (DbWorld.toWorld.set s (s.world.atClock t)) :=
      .set (hclock t) rfl
    exact hset.trans (.logLine (hclock t) hr')
  | clean t data =>
    have hr' := (run_atClock t).symm.trans hr
    have hset : Kept withDb lib fn m flush s (DbWorld.toWorld.set s (s.world.atClock t)) :=
      .set (hclock t) rfl
    obtain ⟨_, s₁, hs₁, hr₁⟩ := done_of_bind hr'
    cases hr₁
    obtain ⟨_, s₂, hs₂, hr₂⟩ := done_of_bind hs₁
    have hclean : Kept withDb lib fn m flush (DbWorld.toWorld.set s (s.world.atClock t)) s₂ :=
      .byBackend (hclock t) (fun _ _ => keeps_holding_authDbClean data) creating_authTextClean
        (fun w hw => (hclock t).of_clean hw) hs₂
    cases hr₂
    have hrun := hclean.holding.1
    exact (hset.trans hclean).trans (.set (hrun.of_same rfl rfl rfl hrun.wellFormed) rfl)
  | permit writable =>
    cases hr
    exact .set (hs.of_same rfl rfl rfl hs.wellFormed) rfl
  | faults l =>
    cases hr
    exact ⟨⟨hs, rfl, rfl⟩, fun _ => rfl⟩

end Kept

theorem World.Running.ensureFile (hw : w.Running lib fn m flush) (path : Option CStr) :
    (w.ensureFile path).Running lib fn m flush ∧ (w.ensureFile path).conf = w.conf := by
  unfold World.ensureFile
  cases path with
  | none => exact ⟨hw, rfl⟩
  | some path =>
    dsimp only
    split
    · exact ⟨hw.of_same rfl rfl rfl hw.wellFormed, rfl⟩
    · exact ⟨hw, rfl⟩

end ExactDaemon
