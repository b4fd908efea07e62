import ExactDaemon.Conf.Apconf
import ExactDaemon.Lib.RexpSyntax

/-! # The stanzas of a file

A file of server definitions, read as comments, blank lines and stanzas, and what the
parser makes of it. The sections are those stanzas, but for one thing: the static section
of `parse_rule_section` is never cleared, and a stanza that leaves out a line gets the
value that is still there.
-/

namespace ExactDaemon

/-! ### Files -/

inductive ParamLine where
  | order (value : CStr)
  | pattern (value : CStr)
  deriving DecidableEq, Repr

def ParamLine.token : ParamLine → Token × CStr
  | .order v => (.order, v)
  | .pattern v => (.pattern, v)

def ParamLine.orderValue : ParamLine → Option CStr
  | .order v => some v
  | .pattern _ => none

def ParamLine.patternValue : ParamLine → Option CStr
  | .order _ => none
  | .pattern v => some v

structure Stanza where
  name : CStr
  lines : List ParamLine
  deriving DecidableEq, Repr

namespace Stanza

def tokens (st : Stanza) : List (Token × CStr) :=
  (.server, st.name) :: (st.lines.map ParamLine.token ++ [(.close, [])])

/-- The value of the last order line. -/
def order (st : Stanza) : Option CStr := (st.lines.filterMap ParamLine.orderValue).getLast?

/-- The value of the last match line. -/
def pattern (st : Stanza) : Option CStr := (st.lines.filterMap ParamLine.patternValue).getLast?

/-- The section that the stanza describes. -/
def toSection (st : Stanza) : Section := ⟨.stanza, some st.name, st.order, st.pattern⟩

end Stanza

inductive Item where
  | comment
  | blank
  | stanza (st : Stanza)
  deriving DecidableEq, Repr

def Item.tokens : Item → List (Token × CStr)
  | .comment => [(.comment, [])]
  | .blank => [(.blank, [])]
  | .stanza st => st.tokens

def Item.stanza? : Item → Option Stanza
  | .stanza st => some st
  | _ => none

def stanzas (items : List Item) : List Stanza := items.filterMap Item.stanza?

/-- The scanner finds these tokens and stops there. -/
inductive Scans (lib : RegexLib) : Reader → List (Token × CStr) → Reader → Prop where
  | nil {f : Reader} : Scans lib f [] f
  | cons {f f₁ f₂ : Reader} {t : Token × CStr} {ts : List (Token × CStr)} :
      scan lib f = .ok (t, f₁) → Scans lib f₁ ts f₂ → Scans lib f (t :: ts) f₂

/-- The file consists of these items. -/
def Holds (lib : RegexLib) (text : Bytes) (items : List Item) : Prop :=
  ∃ f, Scans lib ⟨text, false⟩ (items.flatMap Item.tokens) f ∧ f.rest = []

/-- `parse_rule_top` on a file that was just opened. -/
def parseRuleTop (lib : RegexLib) (text : Bytes) (s : Section) :
    Except Halt (Option (List Section) × Section) :=
  parseSections lib (text.length + 2) ⟨text, false⟩ s []

variable {lib : RegexLib} {f f₁ f₂ : Reader} {t : Token × CStr} {ts us : List (Token × CStr)}
  {s s' : Section} {a : List Section} {n : ℕ} {st : Stanza} {items items' : List Item}
  {text text' : Bytes}

theorem apconfRead_eq (h : compileRe lib = true) :
    apconfRead lib (some text) s = parseRuleTop lib text s := by
  simp only [apconfRead, if_pos h]
  rfl

/-! ### Scanning -/

/-- Nothing is left once the end of the file was met. -/
def Reader.Sound (f : Reader) : Prop := f.eof = true → f.rest = []

theorem firstLine_eq_self {l : Bytes} (h : (firstLine l).getLast? ≠ some 10) : firstLine l = l := by
  induction l with
  | nil => rfl
  | cons c l ih =>
    unfold firstLine at h ⊢
    by_cases hc : c = 10
    · rw [if_pos hc, hc] at h
      exact absurd rfl h
    · rw [if_neg hc] at h ⊢
      refine congrArg _ (ih fun hl => h ?_)
      rw [List.getLast?_cons, hl]
      rfl

theorem fgets_some {n : ℕ} {b : Bytes} (hn : 1 < n) (h : f.fgets n = (some b, f₁)) :
    f₁.rest.length < f.rest.length ∧ (f.Sound → f.eof = false ∧ f₁.Sound) := by
  unfold Reader.fgets at h
  by_cases hr : f.rest = []
  · rw [if_pos hr] at h
    cases h
  · rw [if_neg hr] at h
    obtain ⟨-, rfl⟩ := Prod.mk.inj h
    have hpos : 0 < ((firstLine f.rest).take (n - 1)).length := by
      rw [List.length_take, lt_min_iff]
      exact ⟨by omega, List.length_pos_iff.mpr (firstLine_ne_nil hr)⟩
    have hlen : 0 < f.rest.length := List.length_pos_iff.mpr hr
    refine ⟨by rw [List.length_drop]; omega, fun hs => ?_⟩
    have heof : f.eof = false := by
      rw [← Bool.not_eq_true]
      exact fun he => hr (hs he)
    refine ⟨heof, fun he => ?_⟩
    rw [heof, Bool.false_or, Bool.and_eq_true, decide_eq_true_eq, decide_eq_true_eq] at he
    obtain ⟨hshort, hlast⟩ := he
    have hwhole : (firstLine f.rest).take (n - 1) = firstLine f.rest := by
      rw [List.length_take] at hshort
      exact List.take_of_length_le (by omega)
    rw [hwhole] at hlast ⊢
    rw [firstLine_eq_self hlast, List.drop_length]

/-- What a token takes from the file. -/
theorem scan_ne_eof (h : scan lib f = .ok (t, f₁)) (ht : t.1 ≠ .eof) :
    f₁.rest.length < f.rest.length ∧ (f.Sound → f.eof = false ∧ f₁.Sound) := by
  unfold scan at h
  split at h
  · cases h
    exact absurd rfl ht
  · rename_i b f' hb
    cases hs : scanString lib (b.takeWhile (· ≠ 0)) tokenString with
    | error e =>
      rw [hs] at h
      cases h
    | ok t' =>
      rw [hs] at h
      cases h
      exact fgets_some (by decide) hb

theorem scan_end (h : f.rest = []) : scan lib f = .ok ((.eof, []), { f with eof := true }) := by
  simp only [scan, Reader.fgets, if_pos h]

theorem Scans.length_le (h : Scans lib f ts f₁) (ht : ∀ t ∈ ts, t.1 ≠ Token.eof) :
    ts.length + f₁.rest.length ≤ f.rest.length := by
  induction h with
  | nil => exact (Nat.zero_add _).le
  | cons hs _ ih =>
    have hlt := (scan_ne_eof hs (ht _ List.mem_cons_self)).1
    have hle := ih fun t h => ht t (List.mem_cons_of_mem _ h)
    rw [List.length_cons]
    omega

theorem Scans.sound (h : Scans lib f ts f₁) (ht : ∀ t ∈ ts, t.1 ≠ Token.eof) (hf : f.Sound) :
    f₁.Sound := by
  induction h with
  | nil => exact hf
  | cons hs _ ih =>
    exact ih (fun t h => ht t (List.mem_cons_of_mem _ h))
      ((scan_ne_eof hs (ht _ List.mem_cons_self)).2 hf).2

theorem scans_cons : Scans lib f (t :: ts) f₂ ↔ ∃ f₁, scan lib f = .ok (t, f₁) ∧
    Scans lib f₁ ts f₂ := by
  constructor
  · intro h
    cases h with
    | cons hs h => exact ⟨_, hs, h⟩
  · rintro ⟨f₁, hs, h⟩
    exact .cons hs h

theorem scans_append : Scans lib f (ts ++ us) f₂ ↔ ∃ f₁, Scans lib f ts f₁ ∧
    Scans lib f₁ us f₂ := by
  constructor
  · intro h
    induction ts generalizing f with
    | nil => exact ⟨f, .nil, h⟩
    | cons t ts ih =>
      obtain ⟨f₁, hs, h⟩ := scans_cons.mp h
      obtain ⟨f₃, h₁, h₂⟩ := ih h
      exact ⟨f₃, .cons hs h₁, h₂⟩
  · rintro ⟨f₁, h₁, h₂⟩
    induction h₁ with
    | nil => exact h₂
    | cons hs _ ih => exact .cons hs (ih h₂)

/-- Where the scanner stops after these tokens. -/
def scansTo (lib : RegexLib) : Reader → List (Token × CStr) → Option Reader
  | f, [] => some f
  | f, t :: ts =>
    match scan lib f with
    | .ok (t', f₁) => if t' = t then scansTo lib f₁ ts else none
    | .error _ => none

theorem scans_iff : Scans lib f ts f₁ ↔ scansTo lib f ts = some f₁ := by
  induction ts generalizing f with
  | nil =>
    constructor
    · intro h
      cases h
      rfl
    · intro h
      cases h
      exact .nil
  | cons t ts ih =>
    rw [scans_cons, scansTo]
    simp only [ih]
    cases scan lib f with
    | error e => simp
    | ok x =>
      obtain ⟨t', f'⟩ := x
      by_cases ht : t' = t
      · simp [ht]
      · simp [ht]

theorem holds_iff : Holds lib text items ↔
    (scansTo lib ⟨text, false⟩ (items.flatMap Item.tokens)).map (·.rest) = some [] := by
  unfold Holds
  simp only [scans_iff, Option.map_eq_some_iff]

instance : Decidable (Holds lib text items) := decidable_of_iff _ holds_iff.symm

theorem ParamLine.token_ne_eof (l : ParamLine) : l.token.1 ≠ .eof := by
  cases l <;> exact nofun

theorem Stanza.tokens_ne_eof (st : Stanza) : ∀ t ∈ st.tokens, t.1 ≠ Token.eof := by
  intro t ht
  rcases List.mem_cons.mp ht with rfl | ht
  · exact nofun
  · rcases List.mem_append.mp ht with ht | ht
    · obtain ⟨l, -, rfl⟩ := List.mem_map.mp ht
      exact l.token_ne_eof
    · rw [List.mem_singleton.mp ht]
      exact nofun

theorem Item.tokens_ne_eof (i : Item) : ∀ t ∈ i.tokens, t.1 ≠ Token.eof := by
  cases i with
  | comment => simp [Item.tokens]
  | blank => simp [Item.tokens]
  | stanza st => exact st.tokens_ne_eof

/-! ### One stanza -/

/-- What one line does to the static section. -/
def ParamLine.apply : ParamLine → Section → Section
  | .order v, s => { s with order := some v }
  | .pattern v, s => { s with pattern := some v }

theorem parseParams_lines {lines : List ParamLine}
    (h : Scans lib f (lines.map ParamLine.token ++ [(.close, [])]) f₁) (hn : lines.length < n) :
    parseParams lib n f s = .ok (lines.foldl (fun s l => l.apply s) s, f₁) := by
  induction lines generalizing f s n with
  | nil =>
    obtain ⟨f₂, hs, hnil⟩ := scans_cons.mp h
    cases hnil
    obtain ⟨n, rfl⟩ := Nat.exists_eq_add_of_lt hn
    simp only [parseParams, parseRuleApcParam, hs]
    rfl
  | cons l lines ih =>
    obtain ⟨f₂, hs, hrest⟩ := scans_cons.mp h
    obtain ⟨n, rfl⟩ : ∃ k, n = k + 1 := ⟨n - 1, by rw [List.length_cons] at hn; omega⟩
    have hn' : lines.length < n := by
      rw [List.length_cons] at hn
      omega
    cases l with
    | order v =>
      simp only [parseParams, parseRuleApcParam, hs, ParamLine.token]
      exact ih hrest hn'
    | pattern v =>
      simp only [parseParams, parseRuleApcParam, hs, ParamLine.token]
      exact ih hrest hn'

/-- The section that is returned for a stanza: what it leaves out is taken from the one
before. -/
def Stanza.over (st : Stanza) (s : Section) : Section :=
  ⟨.stanza, some st.name, st.order.or s.order, st.pattern.or s.pattern⟩

theorem foldl_apply (lines : List ParamLine) (s : Section) :
    lines.foldl (fun s l => l.apply s) s =
      ⟨s.t, s.name, ((lines.filterMap ParamLine.orderValue).getLast?).or s.order,
        ((lines.filterMap ParamLine.patternValue).getLast?).or s.pattern⟩ := by
  induction lines generalizing s with
  | nil => rfl
  | cons l lines ih =>
    rw [List.foldl_cons, ih]
    cases l with
    | order v =>
      simp only [ParamLine.apply, ParamLine.orderValue, ParamLine.patternValue,
        List.filterMap_cons, List.getLast?_cons]
      cases (lines.filterMap ParamLine.orderValue).getLast? <;> rfl
    | pattern v =>
      simp only [ParamLine.apply, ParamLine.orderValue, ParamLine.patternValue,
        List.filterMap_cons, List.getLast?_cons]
      cases (lines.filterMap ParamLine.patternValue).getLast? <;> rfl

theorem parseRuleSection_stanza (h : Scans lib f st.tokens f₁) :
    parseRuleSection lib f s = .ok (some (st.over s), f₁) := by
  obtain ⟨f₂, hs, h⟩ := scans_cons.mp h
  have hlen := h.length_le fun t ht => st.tokens_ne_eof t (List.mem_cons_of_mem _ ht)
  rw [List.length_append, List.length_map, List.length_singleton] at hlen
  simp only [parseRuleSection, hs]
  rw [parseParams_lines h (by omega), foldl_apply]
  rfl

/-! ### The whole file -/

/-- The sections that the parser returns when the static section holds `s`. -/
def sectionsFrom : Section → List Stanza → List Section
  | _, [] => []
  | s, st :: sts => st.over s :: sectionsFrom (st.over s) sts

theorem length_sectionsFrom (s : Section) (sts : List Stanza) :
    (sectionsFrom s sts).length = sts.length := by
  induction sts generalizing s with
  | nil => rfl
  | cons st sts ih => rw [sectionsFrom, List.length_cons, List.length_cons, ih]

theorem sectionsFrom_ignore (s : Section) (sts : List Stanza) :
    sectionsFrom { s with t := .ignore } sts = sectionsFrom s sts := by
  cases sts <;> rfl

/-- One round of the loop for a stanza. -/
theorem parseSections_stanza (hf : f.eof = false) (h : Scans lib f st.tokens f₁) :
    parseSections lib (n + 1) f s a =
      if a.length = sectionMax then .ok (none, st.over s)
      else parseSections lib n f₁ (st.over s) (a ++ [st.over s]) := by
  rw [parseSections, hf, if_neg Bool.false_ne_true, parseRuleSection_stanza h]
  rfl

/-- One round for a comment or a blank line. -/
theorem parseSections_ignore (hf : f.eof = false)
    (hs : scan lib f = .ok ((.comment, []), f₁) ∨ scan lib f = .ok ((.blank, []), f₁)) :
    parseSections lib (n + 1) f s a = parseSections lib n f₁ { s with t := .ignore } a := by
  rw [parseSections, hf, if_neg Bool.false_ne_true, parseRuleSection]
  rcases hs with hs | hs <;> rw [hs]

theorem parseSections_end (h : f.rest = []) (s : Section) (a : List Section) :
    ∃ s', parseSections lib (n + 1) f s a = .ok (some a, s') := by
  rw [parseSections]
  cases hf : f.eof with
  | true => exact ⟨s, rfl⟩
  | false =>
    rw [if_neg Bool.false_ne_true, parseRuleSection, scan_end h]
    exact ⟨_, rfl⟩

theorem Item.sound (i : Item) (h : Scans lib f i.tokens f₁) (hf : f.Sound) :
    f.eof = false ∧ f₁.Sound := by
  have hsound := h.sound i.tokens_ne_eof hf
  cases i with
  | comment =>
    obtain ⟨f₂, hs, -⟩ := scans_cons.mp h
    exact ⟨((scan_ne_eof hs nofun).2 hf).1, hsound⟩
  | blank =>
    obtain ⟨f₂, hs, -⟩ := scans_cons.mp h
    exact ⟨((scan_ne_eof hs nofun).2 hf).1, hsound⟩
  | stanza st =>
    obtain ⟨f₂, hs, -⟩ := scans_cons.mp h
    exact ⟨((scan_ne_eof hs nofun).2 hf).1, hsound⟩

/-- The loop of `parse_rule_top` over the rest of a file. -/
theorem parseSections_items (h : Scans lib f (items.flatMap Item.tokens) f₁) (hf : f.Sound)
    (hend : f₁.rest = []) (hn : items.length < n) (ha : a.length ≤ sectionMax) :
    ∃ s', parseSections lib n f s a = .ok
      (if a.length + (stanzas items).length ≤ sectionMax then
        some (a ++ sectionsFrom s (stanzas items)) else none, s') := by
  induction items generalizing f s a n with
  | nil =>
    cases h
    obtain ⟨n, rfl⟩ := Nat.exists_eq_add_of_lt hn
    have hnil : ∃ s', parseSections lib (0 + n + 1) f₁ s a = .ok (some a, s') :=
      parseSections_end hend s a
    obtain ⟨s', hs'⟩ := hnil
    refine ⟨s', ?_⟩
    rw [show stanzas [] = [] from rfl, if_pos (by simpa using ha)]
    simpa [sectionsFrom] using hs'
  | cons i items ih =>
    rw [List.flatMap_cons] at h
    obtain ⟨f₂, hi, hrest⟩ := scans_append.mp h
    obtain ⟨heof, hf₂⟩ := i.sound hi hf
    obtain ⟨n, rfl⟩ : ∃ k, n = k + 1 := ⟨n - 1, by rw [List.length_cons] at hn; omega⟩
    have hn' : items.length < n := by
      rw [List.length_cons] at hn
      omega
    cases i with
    | comment =>
      obtain ⟨f₃, hs, hnil⟩ := scans_cons.mp hi
      cases hnil
      obtain ⟨s', hs'⟩ := ih (s := { s with t := .ignore }) hrest hf₂ hn' ha
      refine ⟨s', ?_⟩
      rw [parseSections_ignore heof (Or.inl hs), hs', sectionsFrom_ignore]
      rfl
    | blank =>
      obtain ⟨f₃, hs, hnil⟩ := scans_cons.mp hi
      cases hnil
      obtain ⟨s', hs'⟩ := ih (s := { s with t := .ignore }) hrest hf₂ hn' ha
      refine ⟨s', ?_⟩
      rw [parseSections_ignore heof (Or.inr hs), hs', sectionsFrom_ignore]
      rfl
    | stanza st =>
      have hst : stanzas (.stanza st :: items) = st :: stanzas items := rfl
      rw [parseSections_stanza heof hi, hst, List.length_cons]
      by_cases hmax : a.length = sectionMax
      · rw [if_pos hmax, if_neg (by omega)]
        exact ⟨_, rfl⟩
      · have ha' : (a ++ [st.over s]).length ≤ sectionMax := by
          rw [List.length_append, List.length_singleton]
          omega
        obtain ⟨s', hs'⟩ := ih (s := st.over s) (a := a ++ [st.over s]) hrest hf₂ hn' ha'
        refine ⟨s', ?_⟩
        rw [if_neg hmax, hs', List.length_append, List.length_singleton, sectionsFrom,
          List.append_assoc, List.singleton_append, Nat.add_assoc, Nat.add_comm 1]

theorem length_flatMap_tokens (items : List Item) :
    items.length ≤ (items.flatMap Item.tokens).length := by
  induction items with
  | nil => exact le_rfl
  | cons i items ih =>
    have hpos : 0 < i.tokens.length := by cases i <;> exact Nat.succ_pos _
    rw [List.flatMap_cons, List.length_append, List.length_cons]
    omega

/-- What `parse_rule_top` returns for every file of comments, blank lines and stanzas. -/
theorem parseRuleTop_holds (h : Holds lib text items) (s : Section) :
    ∃ s', parseRuleTop lib text s = .ok
      (if (stanzas items).length ≤ sectionMax then some (sectionsFrom s (stanzas items))
        else none, s') := by
  obtain ⟨f, hscan, hend⟩ := h
  have hne : ∀ t ∈ items.flatMap Item.tokens, t.1 ≠ Token.eof := by
    intro t ht
    obtain ⟨i, -, hi⟩ := List.mem_flatMap.mp ht
    exact i.tokens_ne_eof t hi
  have hlen := hscan.length_le hne
  have hitems := length_flatMap_tokens items
  have hn : items.length < text.length + 2 := by
    change _ ≤ text.length at hlen
    omega
  obtain ⟨s', hs'⟩ := parseSections_items (s := s) (a := []) hscan nofun hend hn (Nat.zero_le _)
  rw [List.length_nil, Nat.zero_add, List.nil_append] at hs'
  exact ⟨s', hs'⟩

/-! ### Which files are parsed faithfully -/

/-- Once there was a value, every later place has one of its own. -/
def Separate (v : Option CStr) (vs : List (Option CStr)) : Prop :=
  (v :: vs).Pairwise fun a b => a.isSome → b.isSome

theorem separate_cons {v u : Option CStr} {vs : List (Option CStr)} :
    Separate v (u :: vs) ↔ u.or v = u ∧ Separate (u.or v) vs := by
  unfold Separate
  cases u with
  | none =>
    cases v with
    | none => simp
    | some v => simp
  | some u =>
    rw [show (some u).or v = some u from rfl, List.pairwise_cons]
    constructor
    · rintro ⟨-, h⟩
      exact ⟨rfl, h⟩
    · rintro ⟨-, h⟩
      refine ⟨fun b hb _ => ?_, h⟩
      rcases List.mem_cons.mp hb with rfl | hb
      · rfl
      · exact List.rel_of_pairwise_cons h hb rfl

theorem sectionsFrom_eq_iff (s : Section) (sts : List Stanza) :
    sectionsFrom s sts = sts.map Stanza.toSection ↔
      Separate s.order (sts.map Stanza.order) ∧ Separate s.pattern (sts.map Stanza.pattern) := by
  induction sts generalizing s with
  | nil => simp [sectionsFrom, Separate]
  | cons st sts ih =>
    simp only [sectionsFrom, List.map_cons, List.cons.injEq, separate_cons, ih]
    have hover : st.over s = st.toSection ↔
        st.order.or s.order = st.order ∧ st.pattern.or s.pattern = st.pattern := by
      simp [Stanza.over, Stanza.toSection]
    rw [hover]
    simp only [Stanza.over]
    constructor
    · rintro ⟨⟨ho, hp⟩, hos, hps⟩
      exact ⟨⟨ho, hos⟩, hp, hps⟩
    · rintro ⟨⟨ho, hos⟩, hp, hps⟩
      exact ⟨⟨ho, hp⟩, hos, hps⟩

/-- What `parse_rule_top` is to make of a file with these stanzas. -/
structure Faithful (lib : RegexLib) (text : Bytes) (s : Section) (sts : List Stanza) : Prop where
  sections : sts.length ≤ sectionMax →
    ∃ s', parseRuleTop lib text s = .ok (some (sts.map Stanza.toSection), s')
  tooMany : sectionMax < sts.length → ∃ s', parseRuleTop lib text s = .ok (none, s')

/-- The order and the expression of a server. -/
def serverLines (a : List Section) (name : CStr) : Option (Option CStr × Option CStr) :=
  (apconfGetsec a name).map fun s => (s.order, s.pattern)

/-- A server with the same stanzas in two files has the same lines in both. -/
def Independent (lib : RegexLib) (text text' : Bytes) (s s' : Section) (sts sts' : List Stanza) :
    Prop :=
  ∀ a u a' u' name, parseRuleTop lib text s = .ok (some a, u) →
    parseRuleTop lib text' s' = .ok (some a', u') →
    sts.filter (·.name = name) = sts'.filter (·.name = name) →
      serverLines a name = serverLines a' name

/-- What is required of the lines of a file: of at most 16 stanzas, one without an order line
has no value before it, and one without a match line neither. -/
def GapFree (s : Section) (sts : List Stanza) : Prop :=
  sts.length ≤ sectionMax →
    Separate s.order (sts.map Stanza.order) ∧ Separate s.pattern (sts.map Stanza.pattern)

theorem faithful_iff (h : Holds lib text items) (s : Section) :
    Faithful lib text s (stanzas items) ↔ GapFree s (stanzas items) := by
  obtain ⟨s', hs'⟩ := parseRuleTop_holds h s
  constructor
  · intro hf hle
    obtain ⟨u, hu⟩ := hf.sections hle
    rw [hs', if_pos hle] at hu
    obtain ⟨hsections, -⟩ := Prod.mk.inj (Except.ok.inj hu)
    exact (sectionsFrom_eq_iff _ _).mp (Option.some.inj hsections)
  · intro hc
    constructor
    · intro hle
      rw [hs', if_pos hle, (sectionsFrom_eq_iff _ _).mpr (hc hle)]
      exact ⟨s', rfl⟩
    · intro hlt
      rw [hs', if_neg (Nat.not_le_of_lt hlt)]
      exact ⟨s', rfl⟩

theorem Faithful.eq_map {sts : List Stanza} {u : Section} (h : Faithful lib text s sts)
    (ha : parseRuleTop lib text s = .ok (some a, u)) : a = sts.map Stanza.toSection := by
  rcases Nat.lt_or_ge sectionMax sts.length with hlt | hle
  · obtain ⟨s', hs'⟩ := h.tooMany hlt
    rw [ha] at hs'
    cases hs'
  · obtain ⟨s', hs'⟩ := h.sections hle
    rw [ha] at hs'
    obtain ⟨hsections, -⟩ := Prod.mk.inj (Except.ok.inj hs')
    exact Option.some.inj hsections

theorem serverLines_map (sts : List Stanza) (name : CStr) :
    serverLines (sts.map Stanza.toSection) name =
      ((sts.filter (·.name = name)).head?).map fun st => (st.order, st.pattern) := by
  induction sts with
  | nil => rfl
  | cons st sts ih =>
    unfold serverLines apconfGetsec at ih ⊢
    by_cases hn : st.name = name
    · simp [Stanza.toSection, hn]
    · have hne : strcmp name st.name ≠ 0 := fun h0 => hn (strcmp_eq_zero.mp h0).symm
      rw [List.map_cons, List.find?_cons_of_neg, ih, List.filter_cons_of_neg]
      · simpa using hn
      · exact fun h => hne (of_decide_eq_true h)

/-- The sections of files of comments, blank lines and stanzas are those stanzas, and a
server has its own lines only, exactly when no stanza leaves out a line for which there was
a value before. -/
theorem stanzas_iff (h : Holds lib text items) (h' : Holds lib text' items') (s s' : Section) :
    (Faithful lib text s (stanzas items) ∧ Faithful lib text' s' (stanzas items') ∧
      Independent lib text text' s s' (stanzas items) (stanzas items')) ↔
      GapFree s (stanzas items) ∧ GapFree s' (stanzas items') := by
  constructor
  · rintro ⟨hf, hf', -⟩
    exact ⟨(faithful_iff h s).mp hf, (faithful_iff h' s').mp hf'⟩
  · rintro ⟨hc, hc'⟩
    have hf := (faithful_iff h s).mpr hc
    have hf' := (faithful_iff h' s').mpr hc'
    refine ⟨hf, hf', fun a u a' u' name ha ha' hname => ?_⟩
    rw [hf.eq_map ha, hf'.eq_map ha', serverLines_map, serverLines_map, hname]

/-- A file in which every stanza has both lines. -/
def completeText : Bytes :=
  cstr "# servers\n<server a>\norder username,address\nmatch x\n</server>\n\n" ++
    cstr "<server b>\nmatch y\norder address,username\nmatch z\n</server>\n"

def completeItems : List Item :=
  [.comment, .stanza ⟨cstr "a", [.order (cstr "username,address"), .pattern (cstr "x")]⟩, .blank,
    .stanza ⟨cstr "b", [.pattern (cstr "y"), .order (cstr "address,username"),
      .pattern (cstr "z")]⟩]

/-- The first stanza has other lines, and there is a third between the two. -/
def editedText : Bytes :=
  cstr "<server a>\nmatch w\norder address\n</server>\n" ++
    cstr "<server c>\norder username\nmatch v\n</server>\n" ++
    cstr "<server b>\nmatch y\norder address,username\nmatch z\n</server>\n"

def editedItems : List Item :=
  [.stanza ⟨cstr "a", [.pattern (cstr "w"), .order (cstr "address")]⟩,
    .stanza ⟨cstr "c", [.order (cstr "username"), .pattern (cstr "v")]⟩,
    .stanza ⟨cstr "b", [.pattern (cstr "y"), .order (cstr "address,username"),
      .pattern (cstr "z")]⟩]

/-- The second stanza has no order line. -/
def gapText : Bytes :=
  cstr "<server a>\norder username,address\nmatch x\n</server>\n" ++
    cstr "<server b>\nmatch y\n</server>\n"

def gapItems : List Item :=
  [.stanza ⟨cstr "a", [.order (cstr "username,address"), .pattern (cstr "x")]⟩,
    .stanza ⟨cstr "b", [.pattern (cstr "y")]⟩]

/-- The static section at the start of the program. -/
def Section.zero : Section := ⟨.null, none, none, none⟩

theorem stanzas_iff_complete :
    Faithful RegexLib.posix completeText .zero (stanzas completeItems) ∧
      Faithful RegexLib.posix editedText .zero (stanzas editedItems) ∧
      Independent RegexLib.posix completeText editedText .zero .zero (stanzas completeItems)
        (stanzas editedItems) :=
  have h : Holds RegexLib.posix completeText completeItems := by decide +kernel
  have h' : Holds RegexLib.posix editedText editedItems := by decide +kernel
  have hc : GapFree .zero (stanzas completeItems) := fun _ =>
    ⟨by unfold Separate; decide, by unfold Separate; decide⟩
  have hc' : GapFree .zero (stanzas editedItems) := fun _ =>
    ⟨by unfold Separate; decide, by unfold Separate; decide⟩
  (stanzas_iff h h' .zero .zero).mpr ⟨hc, hc'⟩

/-- The second server gets the order of the first. -/
theorem stanzas_inherit :
    Holds RegexLib.posix gapText gapItems ∧
      ¬ Faithful RegexLib.posix gapText .zero (stanzas gapItems) := by
  have h : Holds RegexLib.posix gapText gapItems := by decide +kernel
  refine ⟨h, fun hf => ?_⟩
  have hc := (faithful_iff h .zero).mp hf (by decide)
  exact absurd hc.1 (by unfold Separate; decide)

end ExactDaemon
