import ExactDaemon.Conf.Apconf
import ExactDaemon.Lib.Decimal

/-! # What the parser reports

apconf.c with the global `line_no` and with what the parser logs. Without these its functions
are those of the model, and a parse that gives no table has logged why.
-/

namespace ExactDaemon

inductive ParseReport where
  | unreadable
  | regex
  | parseError (line : ℕ)
  | tooManySections
  deriving DecidableEq, Repr

/-- The open file, the number of its last line, and the log. -/
structure Parsing where
  file : Reader
  lineNo : ℕ
  log : List ParseReport

namespace Parsing

def report (r : ParseReport) (p : Parsing) : Parsing := { p with log := p.log ++ [r] }

def scan (lib : RegexLib) (p : Parsing) : Except Halt ((Token × CStr) × Parsing) :=
  match p.file.fgets 1024 with
  | (none, f) => .ok ((.eof, []), { p with file := f })
  | (some s, f) => (scanString lib (s.takeWhile (· ≠ 0)) tokenString).map
      (·, { p with file := f, lineNo := p.lineNo + 1 })

def parseRuleApcParam (lib : RegexLib) (p : Parsing) : Except Halt (Option ApcParam × Parsing) :=
  (scan lib p).map fun t =>
    match t.1.1 with
    | .pattern => (some (.pattern t.1.2), t.2)
    | .order => (some (.order t.1.2), t.2)
    | .close => (some .close, t.2)
    | _ => (none, t.2.report (.parseError t.2.lineNo))

def parseParams (lib : RegexLib) : ℕ → Parsing → Section → Except Halt (Section × Parsing)
  | 0, _, _ => .error .diverged
  | n + 1, p, s =>
    match parseRuleApcParam lib p with
    | .error h => .error h
    | .ok (none, _) => .error .undefined
    | .ok (some (.order v), p) => parseParams lib n p { s with order := some v }
    | .ok (some (.pattern v), p) => parseParams lib n p { s with pattern := some v }
    | .ok (some .close, p) => .ok (s, p)

def parseRuleSection (lib : RegexLib) (p : Parsing) (s : Section) :
    Except Halt (Option Section × Parsing) :=
  match scan lib p with
  | .error h => .error h
  | .ok ((t, text), p) =>
    match t with
    | .comment | .blank => .ok (some { s with t := .ignore }, p)
    | .eof => .ok (some { s with t := .eof }, p)
    | .server =>
      (parseParams lib (p.file.rest.length + 1) p { s with t := .stanza, name := some text }).map
        fun r => (some r.1, r.2)
    | _ => .ok (none, p.report (.parseError p.lineNo))

def parseSections (lib : RegexLib) : ℕ → Parsing → Section → List Section →
    Except Halt ((Option (List Section) × Section) × Parsing)
  | 0, _, _, _ => .error .diverged
  | n + 1, p, s, a =>
    if p.file.eof then .ok ((some a, s), p)
    else
      match parseRuleSection lib p s with
      | .error h => .error h
      | .ok (none, p) => .ok ((none, s), p)
      | .ok (some s', p) =>
        match s'.t with
        | .eof => .ok ((some a, s'), p)
        | .stanza =>
          if a.length = sectionMax then .ok ((none, s'), p.report .tooManySections)
          else parseSections lib n p s' (a ++ [s'])
        | _ => parseSections lib n p s' a

/-- `apconf_read`, and what it has logged. -/
def apconfRead (lib : RegexLib) (text : Option Bytes) (s : Section) :
    Except Halt ((Option (List Section) × Section) × List ParseReport) :=
  match text with
  | none => .ok ((none, s), [.unreadable])
  | some text =>
    if compileRe lib then
      (parseSections lib (text.length + 2) ⟨⟨text, false⟩, 0, []⟩ s []).map
        fun r => (r.1, r.2.log)
    else .ok ((none, s), [.regex])

variable {lib : RegexLib} {p q : Parsing} {s s' : Section} {a : List Section} {n : ℕ}

/-! ### Without the reports -/

theorem scan_erased (lib : RegexLib) (p : Parsing) :
    (scan lib p).map (fun r => (r.1, r.2.file)) = ExactDaemon.scan lib p.file := by
  unfold scan ExactDaemon.scan
  rcases p.file.fgets 1024 with ⟨_ | b, f⟩
  · rfl
  · dsimp only
    cases scanString lib (b.takeWhile (· ≠ 0)) tokenString <;> rfl

theorem parseRuleApcParam_erased (lib : RegexLib) (p : Parsing) :
    (parseRuleApcParam lib p).map (fun r => (r.1, r.2.file)) =
      ExactDaemon.parseRuleApcParam lib p.file := by
  unfold parseRuleApcParam ExactDaemon.parseRuleApcParam
  rw [← scan_erased]
  rcases scan lib p with e | ⟨⟨t, v⟩, q⟩
  · rfl
  · cases t <;> rfl

theorem parseParams_erased :
    (parseParams lib n p s).map (fun r => (r.1, r.2.file)) =
      ExactDaemon.parseParams lib n p.file s := by
  induction n generalizing p s with
  | zero => rfl
  | succ n ih =>
    rw [parseParams, ExactDaemon.parseParams, ← parseRuleApcParam_erased]
    rcases parseRuleApcParam lib p with e | ⟨_ | x, q⟩
    · rfl
    · rfl
    · cases x with
      | order v => exact ih
      | pattern v => exact ih
      | close => rfl

theorem parseRuleSection_erased (lib : RegexLib) (p : Parsing) (s : Section) :
    (parseRuleSection lib p s).map (fun r => (r.1, r.2.file)) =
      ExactDaemon.parseRuleSection lib p.file s := by
  unfold parseRuleSection ExactDaemon.parseRuleSection
  rw [← scan_erased]
  rcases scan lib p with e | ⟨⟨t, v⟩, q⟩
  · rfl
  · cases t with
    | server =>
      dsimp only [Except.map]
      rw [← parseParams_erased]
      cases parseParams lib (q.file.rest.length + 1) q { s with t := .stanza, name := some v } <;>
        rfl
    | comment => rfl
    | blank => rfl
    | eof => rfl
    | order => rfl
    | pattern => rfl
    | close => rfl
    | unknown => rfl

theorem parseSections_erased :
    (parseSections lib n p s a).map Prod.fst = ExactDaemon.parseSections lib n p.file s a := by
  induction n generalizing p s a with
  | zero => rfl
  | succ n ih =>
    rw [parseSections, ExactDaemon.parseSections]
    by_cases heof : p.file.eof = true
    · rw [if_pos heof, if_pos heof]
      rfl
    rw [if_neg heof, if_neg heof, ← parseRuleSection_erased]
    rcases parseRuleSection lib p s with e | ⟨_ | s', q⟩
    · rfl
    · rfl
    · dsimp only [Except.map]
      cases s'.t with
      | eof => rfl
      | stanza =>
        by_cases hmax : a.length = sectionMax
        · simp only [if_pos hmax]
        · simp only [if_neg hmax]
          exact ih
      | null => exact ih
      | ignore => exact ih

theorem apconfRead_erased (lib : RegexLib) (text : Option Bytes) (s : Section) :
    (apconfRead lib text s).map Prod.fst = ExactDaemon.apconfRead lib text s := by
  cases text with
  | none => rfl
  | some text =>
    unfold apconfRead ExactDaemon.apconfRead
    dsimp only
    split
    · rw [← parseSections_erased (p := ⟨⟨text, false⟩, 0, []⟩)]
      cases parseSections lib (text.length + 2) ⟨⟨text, false⟩, 0, []⟩ s [] <;> rfl
    · rfl

/-! ### Every failure is reported -/

theorem scan_log {t : Token × CStr} (h : scan lib p = .ok (t, q)) : q.log = p.log := by
  unfold scan at h
  rcases hb : p.file.fgets 1024 with ⟨_ | b, f⟩
  · rw [hb] at h
    cases h
    rfl
  · rw [hb] at h
    dsimp only at h
    cases hs : scanString lib (b.takeWhile (· ≠ 0)) tokenString with
    | error e =>
      rw [hs] at h
      cases h
    | ok x =>
      rw [hs] at h
      cases h
      rfl

theorem parseRuleApcParam_log {x : ApcParam} (h : parseRuleApcParam lib p = .ok (some x, q)) :
    q.log = p.log := by
  unfold parseRuleApcParam at h
  rcases hs : scan lib p with e | ⟨⟨t, v⟩, q'⟩
  · rw [hs] at h
    cases h
  · rw [hs] at h
    have hlog := scan_log hs
    cases t <;> cases h <;> exact hlog

theorem parseParams_log (h : parseParams lib n p s = .ok (s', q)) : q.log = p.log := by
  induction n generalizing p s with
  | zero => cases h
  | succ n ih =>
    rw [parseParams] at h
    rcases hp : parseRuleApcParam lib p with e | ⟨_ | x, p'⟩
    · rw [hp] at h
      cases h
    · rw [hp] at h
      cases h
    · rw [hp] at h
      have hlog := parseRuleApcParam_log hp
      cases x with
      | order v => exact (ih h).trans hlog
      | pattern v => exact (ih h).trans hlog
      | close =>
        cases h
        exact hlog

/-- A section that is not there is reported, with the number of the line. -/
theorem parseRuleSection_log {r : Option Section} (h : parseRuleSection lib p s = .ok (r, q)) :
    q.log = p.log ++ if r = none then [.parseError q.lineNo] else [] := by
  unfold parseRuleSection at h
  rcases hs : scan lib p with e | ⟨⟨t, v⟩, p'⟩
  · rw [hs] at h
    cases h
  · rw [hs] at h
    have hlog := scan_log hs
    cases t with
    | server =>
      dsimp only at h
      rcases hp : parseParams lib (p'.file.rest.length + 1) p'
        { s with t := .stanza, name := some v } with e | ⟨s₂, p₂⟩
      · rw [hp] at h
        cases h
      · rw [hp] at h
        cases h
        rw [if_neg nofun, List.append_nil]
        exact (parseParams_log hp).trans hlog
    | comment | blank | eof =>
      cases h
      rw [if_neg nofun, List.append_nil]
      exact hlog
    | order | pattern | close | unknown =>
      cases h
      rw [if_pos rfl, ← hlog]
      rfl

/-- There is a table and nothing is reported, or there is none and the log says why. -/
theorem parseSections_log {r : Option (List Section) × Section}
    (h : parseSections lib n p s a = .ok (r, q)) :
    (∃ b, r.1 = some b) ∧ q.log = p.log ∨
      r.1 = none ∧ (q.log = p.log ++ [.parseError q.lineNo] ∨
        q.log = p.log ++ [.tooManySections]) := by
  induction n generalizing p s a with
  | zero => cases h
  | succ n ih =>
    rw [parseSections] at h
    by_cases heof : p.file.eof = true
    · rw [if_pos heof] at h
      cases h
      exact .inl ⟨⟨a, rfl⟩, rfl⟩
    rw [if_neg heof] at h
    rcases hr : parseRuleSection lib p s with e | ⟨_ | s₁, p₁⟩
    · rw [hr] at h
      cases h
    · rw [hr] at h
      cases h
      exact .inr ⟨rfl, .inl (parseRuleSection_log hr)⟩
    · have hlog := parseRuleSection_log hr
      rw [if_neg nofun, List.append_nil] at hlog
      rw [hr] at h
      dsimp only at h
      rw [← hlog]
      cases ht : s₁.t with
      | eof =>
        rw [ht] at h
        cases h
        exact .inl ⟨⟨a, rfl⟩, rfl⟩
      | stanza =>
        rw [ht] at h
        dsimp only at h
        split at h
        · cases h
          exact .inr ⟨rfl, .inr rfl⟩
        · exact ih h
      | null =>
        rw [ht] at h
        exact ih h
      | ignore =>
        rw [ht] at h
        exact ih h

/-- `apconf_read` logs something exactly when it returns `NULL`. -/
theorem apconfRead_log {text : Option Bytes} {r : Option (List Section) × Section}
    {log : List ParseReport} (h : apconfRead lib text s = .ok (r, log)) :
    r.1 = none ↔ log ≠ [] := by
  cases text with
  | none =>
    cases h
    exact iff_of_true rfl (List.cons_ne_nil _ _)
  | some text =>
    unfold apconfRead at h
    dsimp only at h
    split at h
    · rcases hp : parseSections lib (text.length + 2) ⟨⟨text, false⟩, 0, []⟩ s [] with e | ⟨r', q⟩
      · rw [hp] at h
        cases h
      · rw [hp] at h
        cases h
        rcases parseSections_log hp with ⟨⟨b, hb⟩, hlog⟩ | ⟨hnone, hlog | hlog⟩
        · rw [hb, hlog]
          exact iff_of_false nofun fun hn => hn rfl
        · rw [hnone, hlog]
          exact iff_of_true rfl (List.cons_ne_nil _ _)
        · rw [hnone, hlog]
          exact iff_of_true rfl (List.cons_ne_nil _ _)
    · cases h
      exact iff_of_true rfl (List.cons_ne_nil _ _)

end Parsing

end ExactDaemon
