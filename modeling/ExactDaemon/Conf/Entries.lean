import ExactDaemon.Conf.Reading
import ExactDaemon.Conf.Stanzas

/-! # The parameters of a file

A line of the configuration file defines at most one parameter, and which one depends on
nothing but the line. So the loop of `conffile_read` appends the parameters of the file in
their order, until the table is full or a line stops the program.
-/

namespace ExactDaemon

open Prog

namespace Conf

/-- The parameter that is taken from what `fgets` put into `s`, if one is. -/
def lineParam (lib : RegexLib) (s : Bytes) : Except Halt (Option Param) :=
  let str := s.takeWhile (· ≠ 0)
  let text := zapComments str.dropLast
  if str = [] then .error .undefined
  else if text = [] then .ok none
  else
    match lib.regcomp conffileRx false with
    | none => .error .undefined
    | some rx =>
      match lib.regexec rx text with
      | .ok pm =>
        if (pm 1).so ≠ -1 ∧ (pm 1).eo ≠ -1 ∧ (pm 2).so ≠ -1 ∧ (pm 2).eo ≠ -1 then do
          let name ← copyGroup text (pm 1)
          let value ← copyGroup text (pm 2)
          pure (some ⟨name, value, false⟩)
        else .ok none
      | _ => .ok none

/-- Store the parameter of a line. -/
def store : Option Param → Conf → Except Halt Conf
  | none, cf => .ok cf
  | some p, cf => cf.add p

/-- The parameters of the lines to come, up to a line that stops the program, and how it is
stopped. -/
def entries (lib : RegexLib) : ℕ → Reader → List Param × Option Halt
  | 0, _ => ([], some .diverged)
  | n + 1, f =>
    match f.fgets 1023 with
    | (none, _) => ([], none)
    | (some s, f) =>
      match lineParam lib s with
      | .error e => ([], some e)
      | .ok none => entries lib n f
      | .ok (some p) => (p :: (entries lib n f).1, (entries lib n f).2)

/-- The table with the parameters `ps` has room for `qs`. -/
def Room (ps qs : List Param) : Prop := qs ≠ [] → ps.length + qs.length ≤ paramSize

/-- The parameters of a whole file. -/
def fileEntries (lib : RegexLib) (text : Bytes) : List Param × Option Halt :=
  entries lib (text.length + 1) ⟨text, false⟩

end Conf

variable {lib : RegexLib} {s : Bytes} {cf : Conf} {f f' : Reader} {n : ℕ} {w : World} {p : Param}
  {ps : List Param} {e : Halt} {text : Bytes}

/-! ### One line -/

theorem readLine_eq (lib : RegexLib) (s : Bytes) (cf : Conf) :
    Conf.readLine lib s cf = (Conf.lineParam lib s).bind (Conf.store · cf) := by
  simp only [Conf.readLine, Conf.lineParam]
  generalize s.takeWhile (· ≠ 0) = str
  generalize zapComments str.dropLast = text
  by_cases hstr : str = []
  · simp only [if_pos hstr]
    rfl
  by_cases htext : text = []
  · simp only [if_neg hstr, if_pos htext]
    rfl
  simp only [if_neg hstr, if_neg htext]
  cases lib.regcomp conffileRx false with
  | none => rfl
  | some rx =>
    dsimp only
    cases lib.regexec rx text with
    | ok pm =>
      dsimp only
      by_cases hpm : (pm 1).so ≠ -1 ∧ (pm 1).eo ≠ -1 ∧ (pm 2).so ≠ -1 ∧ (pm 2).eo ≠ -1
      · simp only [if_pos hpm]
        cases copyGroup text (pm 1) with
        | error e => rfl
        | ok name => cases copyGroup text (pm 2) <;> rfl
      · simp only [if_neg hpm]
        rfl
    | «nomatch» => rfl
    | espace => rfl
    | other => rfl

/-- The names that `conffile_read` stores are blocks of their own. -/
theorem lineParam_literal (h : Conf.lineParam lib s = .ok (some p)) : p.literal = false := by
  simp only [Conf.lineParam] at h
  split at h
  · cases h
  split at h
  · cases h
  split at h
  · cases h
  split at h
  · split at h
    · obtain ⟨name, -, hvalue⟩ := ok_of_bind h
      obtain ⟨value, -, hp⟩ := ok_of_bind hvalue
      cases hp
      rfl
    · cases h
  · cases h

theorem add_of_lt (h : cf.param.length < paramSize) :
    cf.add p = .ok { cf with param := cf.param ++ [p] } := if_pos h

theorem addLiteral_some {w : World} {name v : CStr} (h : w.conf.param.length < paramSize) :
    w.addLiteral name (some v) = .ok ((), w.withParam (w.conf.param ++ [⟨name, v, true⟩])) := by
  simp only [World.addLiteral, World.onConf, add_of_lt h]
  rfl

theorem add_of_full (h : paramSize ≤ cf.param.length) : cf.add p = .error .undefined :=
  if_neg (by omega)

/-! ### The loop -/

theorem entries_none (h : (f.fgets 1023).1 = none) : Conf.entries lib (n + 1) f = ([], none) := by
  rw [Conf.entries]
  split
  · rfl
  · next hs =>
    rw [hs] at h
    cases h

theorem entries_error (h : f.fgets 1023 = (some s, f')) (hl : Conf.lineParam lib s = .error e) :
    Conf.entries lib (n + 1) f = ([], some e) := by
  rw [Conf.entries, h]
  simp only [hl]

theorem entries_skip (h : f.fgets 1023 = (some s, f')) (hl : Conf.lineParam lib s = .ok none) :
    Conf.entries lib (n + 1) f = Conf.entries lib n f' := by
  rw [Conf.entries, h]
  simp only [hl]

theorem entries_cons (h : f.fgets 1023 = (some s, f'))
    (hl : Conf.lineParam lib s = .ok (some p)) :
    Conf.entries lib (n + 1) f =
      (p :: (Conf.entries lib n f').1, (Conf.entries lib n f').2) := by
  rw [Conf.entries, h]
  simp only [hl]

/-- The lines to come: there is none, or the first one stops the program, or it is left
out, or it is stored. -/
theorem entries_induction (lib : RegexLib) {motive : ℕ → Reader → Prop} (zero : ∀ f, motive 0 f)
    (done : ∀ n f, (f.fgets 1023).1 = none → motive (n + 1) f)
    (error : ∀ n f s f' e, f.fgets 1023 = (some s, f') → Conf.lineParam lib s = .error e →
      motive (n + 1) f)
    (skip : ∀ n f s f', f.fgets 1023 = (some s, f') → Conf.lineParam lib s = .ok none →
      motive n f' → motive (n + 1) f)
    (cons : ∀ n f s f' p, f.fgets 1023 = (some s, f') → Conf.lineParam lib s = .ok (some p) →
      motive n f' → motive (n + 1) f) (n : ℕ) (f : Reader) : motive n f := by
  induction n generalizing f with
  | zero => exact zero f
  | succ n ih =>
    rcases hf : f.fgets 1023 with ⟨_ | s, f'⟩
    · exact done n f (by rw [hf])
    · rcases hl : Conf.lineParam lib s with e | _ | p
      · exact error n f s f' e hf hl
      · exact skip n f s f' hf hl (ih f')
      · exact cons n f s f' p hf hl (ih f')

theorem entries_literal : ∀ p ∈ (Conf.entries lib n f).1, p.literal = false := by
  induction n, f using entries_induction lib with
  | zero f => exact List.forall_mem_nil _
  | done n f hf =>
    rw [entries_none hf]
    exact List.forall_mem_nil _
  | error n f s f' e hf hl =>
    rw [entries_error hf hl]
    exact List.forall_mem_nil _
  | skip n f s f' hf hl ih =>
    rw [entries_skip hf hl]
    exact ih
  | cons n f s f' p hf hl ih =>
    rw [entries_cons hf hl]
    exact List.forall_mem_cons.mpr ⟨lineParam_literal hl, ih⟩

/-! ### The program -/

theorem conffileLines_none (h : (f.fgets 1023).1 = none) :
    conffileLines lib (n + 1) f = pure () := by
  rw [conffileLines]
  split
  · rfl
  · next hs =>
    rw [hs] at h
    cases h

theorem conffileLines_some (h : f.fgets 1023 = (some s, f')) :
    conffileLines lib (n + 1) f = (do
      attempt (World.onConf (Conf.readLine lib s))
      conffileLines lib n f') := by
  rw [conffileLines, h]

theorem run_line_ok (h : Conf.readLine lib s w.conf = .ok cf) :
    (attempt (World.onConf (Conf.readLine lib s))).run w = .done () { w with conf := cf } :=
  run_attempt_ok (by rw [World.onConf, h]; rfl)

theorem readLine_skip (h : Conf.lineParam lib s = .ok none) : Conf.readLine lib s cf = .ok cf := by
  rw [readLine_eq, h]
  rfl

theorem readLine_add (h : Conf.lineParam lib s = .ok (some p)) :
    Conf.readLine lib s cf = cf.add p := by
  rw [readLine_eq, h]
  rfl

/-- The loop of `conffile_read` stores the parameters of the lines to come, if they fit. -/
theorem run_conffileLines (h : (Conf.entries lib n f).2 = none)
    (hroom : Conf.Room w.conf.param (Conf.entries lib n f).1) :
    (conffileLines lib n f).run w =
      .done () (w.withParam (w.conf.param ++ (Conf.entries lib n f).1)) := by
  induction n, f using entries_induction lib generalizing w with
  | zero f => cases h
  | done n f hf =>
    rw [entries_none hf, List.append_nil, conffileLines_none hf]
    rfl
  | error n f s f' e hf hl =>
    rw [entries_error hf hl] at h
    cases h
  | skip n f s f' hf hl ih =>
    rw [entries_skip hf hl] at h hroom ⊢
    rw [conffileLines_some hf, run_bind, run_line_ok (readLine_skip hl), Outcome.bind_done]
    exact ih h hroom
  | cons n f s f' p hf hl ih =>
    rw [entries_cons hf hl] at h hroom ⊢
    have hle := hroom (List.cons_ne_nil _ _)
    rw [List.length_cons] at hle
    have hadd : Conf.readLine lib s w.conf = .ok { w.conf with param := w.conf.param ++ [p] } :=
      (readLine_add hl).trans (add_of_lt (by omega))
    have hlen : (w.conf.param ++ [p]).length = w.conf.param.length + 1 := List.length_append
    rw [conffileLines_some hf, run_bind, run_line_ok hadd, Outcome.bind_done,
      ih h fun _ => by dsimp only; omega]
    dsimp only
    rw [List.append_assoc, List.singleton_append]
    rfl

theorem conffileLines_halted {u : World} (h : Conf.readLine lib s w.conf = .error e)
    (hf : f.fgets 1023 = (some s, f')) : (conffileLines lib (n + 1) f).run w ≠ .done () u := by
  intro hu
  rw [conffileLines_some hf] at hu
  obtain ⟨_, v, hv, -⟩ := done_of_bind hu
  have hok := attempt_done hv
  rw [World.onConf, h] at hok
  cases hok

/-- Only then it comes to the end. -/
theorem conffileLines_done {u : World} (h : (conffileLines lib n f).run w = .done () u) :
    (Conf.entries lib n f).2 = none ∧ Conf.Room w.conf.param (Conf.entries lib n f).1 := by
  induction n, f using entries_induction lib generalizing w with
  | zero f => cases h
  | done n f hf =>
    rw [entries_none hf]
    exact ⟨rfl, fun hne => absurd rfl hne⟩
  | error n f s f' e hf hl =>
    refine absurd h (conffileLines_halted (e := e) ?_ hf)
    rw [readLine_eq, hl]
    rfl
  | skip n f s f' hf hl ih =>
    rw [conffileLines_some hf, run_bind, run_line_ok (readLine_skip hl), Outcome.bind_done] at h
    rw [entries_skip hf hl]
    exact ih h
  | cons n f s f' p hf hl ih =>
    rcases Nat.lt_or_ge w.conf.param.length paramSize with hlt | hge
    · have hadd : Conf.readLine lib s w.conf = .ok { w.conf with param := w.conf.param ++ [p] } :=
        (readLine_add hl).trans (add_of_lt hlt)
      have hlen : (w.conf.param ++ [p]).length = w.conf.param.length + 1 := List.length_append
      rw [conffileLines_some hf, run_bind, run_line_ok hadd, Outcome.bind_done] at h
      obtain ⟨hnone, hroom⟩ := ih h
      rw [entries_cons hf hl]
      refine ⟨hnone, fun _ => ?_⟩
      rw [List.length_cons]
      by_cases hnil : (Conf.entries lib n f').1 = []
      · rw [hnil, List.length_nil]
        omega
      · have hle := hroom hnil
        dsimp only at hle
        omega
    · exact absurd h (conffileLines_halted ((readLine_add hl).trans (add_of_full hge)) hf)

theorem conffileRead_of_file (h : w.fs.contents w.conf.filename = some text) :
    (conffileRead lib).run w = (conffileLines lib (text.length + 1) ⟨text, false⟩).run w := by
  unfold conffileRead
  rw [run_bind, run_read, Outcome.bind_done, h]

end ExactDaemon
