import ExactDaemon.Conf.Reports
import ExactDaemon.Conf.Stanzas

/-! # Tokens in any order

The parser of the server definitions on files of any contents. What becomes of a file is
decided by the tokens of its lines: a stanza that holds anything but order and match lines
before its end makes `parse_rule_section` read through a `NULL`, and nothing else does.
-/

namespace ExactDaemon

/-- The tokens of the lines to come, cut off after `n`. -/
def lexed (lib : RegexLib) : ℕ → Reader → List Token
  | 0, _ => []
  | n + 1, f =>
    match scan lib f with
    | .error _ => []
    | .ok ((t, _), f) => if t = .eof then [] else t :: lexed lib n f

def tokensFrom (lib : RegexLib) (f : Reader) : List Token := lexed lib (f.rest.length + 1) f

/-- The tokens of a file, line by line. -/
def fileTokens (lib : RegexLib) (text : Bytes) : List Token := tokensFrom lib ⟨text, false⟩

/-- Every stanza that the parser comes to is closed after order and match lines only. The
parser is inside a stanza or not, and has met `k` stanzas before; it stops at the first line
outside that is out of place, and when there are too many stanzas. -/
def stanzasClosed : Bool → ℕ → List Token → Bool
  | false, _, [] => true
  | true, _, [] => false
  | false, k, .comment :: ts => stanzasClosed false k ts
  | false, k, .blank :: ts => stanzasClosed false k ts
  | false, k, .server :: ts => stanzasClosed true k ts
  | false, _, _ :: _ => true
  | true, k, .order :: ts => stanzasClosed true k ts
  | true, k, .pattern :: ts => stanzasClosed true k ts
  | true, k, .close :: ts => if k = sectionMax then true else stanzasClosed false (k + 1) ts
  | true, _, _ :: _ => false

/-- `apconf_read` returns a table, or `NULL` after a report. Every round of the two loops takes
something from the file, or is the last. -/
structure EndsCleanly (lib : RegexLib) (text : Bytes) (s : Section) : Prop where
  returns : ∃ r log, Parsing.apconfRead lib (some text) s = .ok (r, log) ∧ (r.1 = none → log ≠ [])
  params : ∀ f p f', parseRuleApcParam lib f = .ok (some p, f') → f'.rest.length < f.rest.length
  sections : ∀ f s s' f', parseRuleSection lib f s = .ok (some s', f') →
    s'.t = .eof ∨ f'.rest.length < f.rest.length

variable {lib : RegexLib} {f f' : Reader} {s s' : Section} {a : List Section} {n m k : ℕ}
  {text : Bytes} {t : Token × CStr} {p : ApcParam}

/-! ### The scanner -/

/-- What `fgets` puts into its array leaves room for a NUL. -/
theorem fgets_length {b : Bytes} (h : f.fgets n = (some b, f')) : b.length ≤ n - 1 := by
  unfold Reader.fgets at h
  split at h
  · cases h
  · obtain ⟨hb, -⟩ := Prod.mk.inj h
    obtain rfl := Option.some.inj hb
    exact List.length_take_le _ _

/-- A group of a short string fits into `scanner_text`. -/
theorem scannerText_ok {g : Regmatch} {c : CStr} (hc : c.length < 1024)
    (hg : g.Inside c.length) :
    ∃ v, scannerText c g = .ok v := by
  unfold scannerText
  refine ⟨_, if_pos ?_⟩
  rcases hg with rfl | ⟨h₀, h₁, h₂⟩
  · decide
  · omega

theorem scanString_ok (hlib : lib.GroupsInside) {c : CStr} (hc : c.length < 1024) :
    ∀ ts : List (Token × CStr), (ts.all fun t => (lib.regcomp t.2 true).isSome) = true →
      ∃ r, scanString lib c ts = .ok r
  | [], _ => ⟨_, rfl⟩
  | (t, text) :: ts, h => by
    rw [List.all_cons, Bool.and_eq_true] at h
    obtain ⟨rx, hrx⟩ := Option.isSome_iff_exists.mp h.1
    rw [scanString, hrx]
    dsimp only
    split
    · next g hg =>
      obtain ⟨v, hv⟩ := scannerText_ok hc (hlib rx c g 1 hg)
      rw [hv]
      exact ⟨_, rfl⟩
    · exact scanString_ok hlib hc ts h.2

/-- Every line is given a token. -/
theorem scan_ok (hlib : lib.GroupsInside) (hre : compileRe lib = true) (f : Reader) :
    ∃ t f', scan lib f = .ok (t, f') := by
  unfold scan
  rcases hb : f.fgets 1024 with ⟨_ | b, f'⟩
  · exact ⟨_, _, rfl⟩
  · have hlen : (b.takeWhile (· ≠ 0)).length < 1024 :=
      Nat.lt_of_le_of_lt (List.takeWhile_prefix _).length_le
        (Nat.lt_of_le_of_lt (fgets_length hb) (by decide))
    obtain ⟨r, hr⟩ := scanString_ok hlib hlen tokenString hre
    dsimp only
    rw [hr]
    exact ⟨_, _, rfl⟩

/-! ### The list of tokens -/

theorem lexed_eq (hn : f.rest.length < n) (hm : f.rest.length < m) :
    lexed lib n f = lexed lib m f := by
  induction n generalizing f m with
  | zero => omega
  | succ n ih =>
    obtain ⟨m, rfl⟩ : ∃ j, m = j + 1 := ⟨m - 1, by omega⟩
    rw [lexed, lexed]
    rcases hs : scan lib f with e | ⟨t, f'⟩
    · rfl
    · dsimp only
      split
      · rfl
      · next ht =>
        have hlt := (scan_ne_eof hs ht).1
        rw [ih (f := f') (m := m) (by omega) (by omega)]

theorem tokensFrom_cons (hs : scan lib f = .ok (t, f')) (ht : t.1 ≠ .eof) :
    tokensFrom lib f = t.1 :: tokensFrom lib f' := by
  have hlt := (scan_ne_eof hs ht).1
  rw [tokensFrom, lexed, hs]
  dsimp only
  rw [if_neg ht, tokensFrom, lexed_eq (n := f.rest.length) (m := f'.rest.length + 1) hlt
    (Nat.lt_succ_self _)]

theorem tokensFrom_eof (hs : scan lib f = .ok (t, f')) (ht : t.1 = .eof) :
    tokensFrom lib f = [] := by
  rw [tokensFrom, lexed, hs]
  dsimp only
  rw [if_pos ht]

/-! ### Progress -/

theorem parseRuleApcParam_progress (h : parseRuleApcParam lib f = .ok (some p, f')) :
    f'.rest.length < f.rest.length ∧ (f.Sound → f'.Sound) := by
  unfold parseRuleApcParam at h
  rcases hs : scan lib f with e | ⟨⟨t, v⟩, f₁⟩
  · rw [hs] at h
    cases h
  · rw [hs] at h
    by_cases ht : t = .eof
    · subst ht
      cases h
    · obtain ⟨hlt, hsound⟩ := scan_ne_eof hs ht
      cases t <;> cases h <;> exact ⟨hlt, fun hf => (hsound hf).2⟩

theorem parseParams_progress (h : parseParams lib n f s = .ok (s', f')) :
    f'.rest.length < f.rest.length ∧ (f.Sound → f'.Sound) ∧ s'.t = s.t := by
  induction n generalizing f s with
  | zero => cases h
  | succ n ih =>
    rw [parseParams] at h
    rcases hp : parseRuleApcParam lib f with e | ⟨_ | p, f₁⟩
    · rw [hp] at h
      cases h
    · rw [hp] at h
      cases h
    · obtain ⟨hlt, hsound⟩ := parseRuleApcParam_progress hp
      rw [hp] at h
      cases p with
      | order v =>
        obtain ⟨hlt', hsound', ht⟩ := ih h
        exact ⟨hlt'.trans hlt, hsound' ∘ hsound, ht⟩
      | pattern v =>
        obtain ⟨hlt', hsound', ht⟩ := ih h
        exact ⟨hlt'.trans hlt, hsound' ∘ hsound, ht⟩
      | close =>
        cases h
        exact ⟨hlt, hsound, rfl⟩

theorem parseRuleSection_progress (h : parseRuleSection lib f s = .ok (some s', f')) :
    s'.t = .eof ∨ f'.rest.length < f.rest.length := by
  unfold parseRuleSection at h
  rcases hs : scan lib f with e | ⟨⟨t, v⟩, f₁⟩
  · rw [hs] at h
    cases h
  · rw [hs] at h
    by_cases ht : t = .eof
    · subst ht
      cases h
      exact .inl rfl
    · have hlt := (scan_ne_eof hs ht).1
      refine .inr ?_
      cases t with
      | server =>
        dsimp only at h
        rcases hp : parseParams lib (f₁.rest.length + 1) f₁
          { s with t := .stanza, name := some v } with e | ⟨s₂, f₂⟩
        · rw [hp] at h
          cases h
        · rw [hp] at h
          cases h
          exact (parseParams_progress hp).1.trans hlt
      | comment =>
        cases h
        exact hlt
      | blank =>
        cases h
        exact hlt
      | eof => exact absurd rfl ht
      | order => cases h
      | pattern => cases h
      | close => cases h
      | unknown => cases h

/-! ### Inside a stanza -/

/-- A line that does not belong into a stanza. -/
def Token.Stray (t : Token) : Prop := t ≠ .order ∧ t ≠ .pattern ∧ t ≠ .close

theorem Token.stray_or (t : Token) : (t = .order ∨ t = .pattern) ∨ t = .close ∨ t.Stray := by
  unfold Token.Stray
  tauto

theorem stanzasClosed_value {t : Token} {ts : List Token} (ht : t = .order ∨ t = .pattern) :
    stanzasClosed true k (t :: ts) = stanzasClosed true k ts := by
  rcases ht with rfl | rfl <;> rfl

theorem stanzasClosed_stray {t : Token} {ts : List Token} (ht : t.Stray) :
    stanzasClosed true k (t :: ts) = false := by
  obtain ⟨ho, hp, hc⟩ := ht
  cases t with
  | order => exact absurd rfl ho
  | pattern => exact absurd rfl hp
  | close => exact absurd rfl hc
  | server => rfl
  | comment => rfl
  | blank => rfl
  | eof => rfl
  | unknown => rfl

theorem parseParams_value {v : CStr} {t : Token} (hs : scan lib f = .ok ((t, v), f'))
    (ht : t = .order ∨ t = .pattern) :
    ∃ s', parseParams lib (n + 1) f s = parseParams lib n f' s' := by
  rcases ht with rfl | rfl
  · refine ⟨{ s with order := some v }, ?_⟩
    rw [parseParams, parseRuleApcParam, hs]
    rfl
  · refine ⟨{ s with pattern := some v }, ?_⟩
    rw [parseParams, parseRuleApcParam, hs]
    rfl

theorem parseParams_close {v : CStr} (hs : scan lib f = .ok ((.close, v), f')) :
    parseParams lib (n + 1) f s = .ok (s, f') := by
  rw [parseParams, parseRuleApcParam, hs]
  rfl

/-- Any other line is read through a `NULL`. -/
theorem parseParams_stray {v : CStr} {t : Token} (hs : scan lib f = .ok ((t, v), f'))
    (ht : t.Stray) : parseParams lib (n + 1) f s = .error .undefined := by
  obtain ⟨ho, hp, hc⟩ := ht
  rw [parseParams, parseRuleApcParam, hs]
  cases t with
  | order => exact absurd rfl ho
  | pattern => exact absurd rfl hp
  | close => exact absurd rfl hc
  | server => rfl
  | comment => rfl
  | blank => rfl
  | eof => rfl
  | unknown => rfl

/-- The loop of `parse_rule_section` comes to the end of the stanza, or reads through a
`NULL`. -/
theorem parseParams_tokens (hlib : lib.GroupsInside) (hre : compileRe lib = true)
    (hn : f.rest.length < n) :
    (∃ s' f', parseParams lib n f s = .ok (s', f') ∧ ∀ k,
      stanzasClosed true k (tokensFrom lib f) =
        if k = sectionMax then true else stanzasClosed false (k + 1) (tokensFrom lib f')) ∨
    (parseParams lib n f s = .error .undefined ∧
      ∀ k, stanzasClosed true k (tokensFrom lib f) = false) := by
  induction n generalizing f s with
  | zero => omega
  | succ n ih =>
    obtain ⟨⟨t, v⟩, f₁, hs⟩ := scan_ok hlib hre f
    by_cases ht : t = .eof
    · subst ht
      refine .inr ⟨parseParams_stray hs ⟨nofun, nofun, nofun⟩, fun k => ?_⟩
      rw [tokensFrom_eof hs rfl]
      rfl
    have hlt := (scan_ne_eof hs ht).1
    rw [tokensFrom_cons hs ht]
    rcases t.stray_or with hval | rfl | hstray
    · obtain ⟨s₁, hp⟩ := parseParams_value (n := n) (s := s) hs hval
      rw [hp]
      simp only [stanzasClosed_value hval]
      exact ih (by omega)
    · exact .inl ⟨s, f₁, parseParams_close hs, fun k => rfl⟩
    · exact .inr ⟨parseParams_stray hs hstray, fun k => stanzasClosed_stray hstray⟩

/-! ### The whole file -/

/-- The parser returns if and only if the tokens to come close every stanza. -/
theorem parseSections_tokens (hlib : lib.GroupsInside) (hre : compileRe lib = true)
    (hf : f.Sound) (hn : f.rest.length < n) :
    (∃ r, parseSections lib n f s a = .ok r) ↔
      stanzasClosed false a.length (tokensFrom lib f) = true := by
  induction n generalizing f s a with
  | zero => omega
  | succ n ih =>
    rw [parseSections]
    by_cases heof : f.eof = true
    · rw [if_pos heof, tokensFrom_eof (scan_end (hf heof)) rfl]
      exact iff_of_true ⟨_, rfl⟩ rfl
    rw [if_neg heof, parseRuleSection]
    obtain ⟨⟨t, v⟩, f₁, hs⟩ := scan_ok hlib hre f
    rw [hs]
    by_cases ht : t = .eof
    · subst ht
      rw [tokensFrom_eof hs rfl]
      exact iff_of_true ⟨_, rfl⟩ rfl
    obtain ⟨hlt, hsound⟩ := scan_ne_eof hs ht
    have hf₁ := (hsound hf).2
    rw [tokensFrom_cons hs ht]
    cases t with
    | comment => exact ih hf₁ (by omega)
    | blank => exact ih hf₁ (by omega)
    | server =>
      dsimp only
      rcases parseParams_tokens hlib hre (s := { s with t := .stanza, name := some v })
        (Nat.lt_succ_self f₁.rest.length) with ⟨s', f₂, hp, hk⟩ | ⟨hp, hk⟩
      · obtain ⟨hlt₂, hsound₂, hstanza⟩ := parseParams_progress hp
        rw [hp, stanzasClosed, hk]
        dsimp only [Except.map]
        rw [hstanza]
        dsimp only
        split
        · exact iff_of_true ⟨_, rfl⟩ rfl
        · have hih := ih (s := s') (a := a ++ [s']) (hsound₂ hf₁) (by omega)
          rwa [List.length_append] at hih
      · rw [hp]
        refine iff_of_false ?_ ?_
        · rintro ⟨r, hr⟩
          cases hr
        · rw [stanzasClosed, hk]
          exact Bool.false_ne_true
    | eof => exact absurd rfl ht
    | order => exact iff_of_true ⟨_, rfl⟩ rfl
    | pattern => exact iff_of_true ⟨_, rfl⟩ rfl
    | close => exact iff_of_true ⟨_, rfl⟩ rfl
    | unknown => exact iff_of_true ⟨_, rfl⟩ rfl

/-- `apconf_read` returns if and only if the tokens close every stanza that it comes to. -/
theorem apconfRead_returns_iff (hlib : lib.GroupsInside) (text : Bytes) (s : Section) :
    (∃ r, apconfRead lib (some text) s = .ok r) ↔
      (compileRe lib = true → stanzasClosed false 0 (fileTokens lib text) = true) := by
  rw [apconfRead]
  by_cases hre : compileRe lib = true
  · rw [if_pos hre]
    have hf : Reader.Sound ⟨text, false⟩ := fun h => absurd h Bool.false_ne_true
    have hn : (Reader.mk text false).rest.length < text.length + 2 := by
      change text.length < _
      omega
    rw [parseSections_tokens (a := []) hlib hre hf hn]
    exact ⟨fun h _ => h, fun h => h hre⟩
  · rw [if_neg hre]
    exact iff_of_true ⟨_, rfl⟩ fun h => absurd h hre

/-- A parser that returns has reported what is wrong. -/
theorem reported_returns_iff : (∃ r log, Parsing.apconfRead lib (some text) s = .ok (r, log) ∧
      (r.1 = none → log ≠ [])) ↔ ∃ r, apconfRead lib (some text) s = .ok r := by
  rw [← Parsing.apconfRead_erased]
  constructor
  · rintro ⟨r, log, h, -⟩
    rw [h]
    exact ⟨r, rfl⟩
  · rintro ⟨r, hr⟩
    cases hp : Parsing.apconfRead lib (some text) s with
    | error e =>
      rw [hp] at hr
      cases hr
    | ok x => exact ⟨x.1, x.2, rfl, (Parsing.apconfRead_log hp).mp⟩

/-- `apconf_read` ends cleanly if and only if every stanza that it comes to holds nothing but
order and match lines up to its end. -/
theorem endsCleanly_iff (hlib : lib.GroupsInside) (text : Bytes) (s : Section) :
    EndsCleanly lib text s ↔
      (compileRe lib = true → stanzasClosed false 0 (fileTokens lib text) = true) := by
  constructor
  · intro h
    exact (apconfRead_returns_iff hlib text s).mp (reported_returns_iff.mp h.returns)
  · intro h
    exact ⟨reported_returns_iff.mpr ((apconfRead_returns_iff hlib text s).mpr h),
      fun _ _ _ hp => (parseRuleApcParam_progress hp).1, fun _ _ _ _ => parseRuleSection_progress⟩

/-- A comment, a blank line, and a line that is out of place. -/
def strayText : Bytes := cstr "# servers\n\norder username,address\n"

theorem endsCleanly_iff_stray : EndsCleanly RegexLib.posix strayText .zero ∧
    Parsing.apconfRead RegexLib.posix (some strayText) .zero =
      .ok ((none, ⟨.ignore, none, none, none⟩), [.parseError 3]) :=
  ⟨(endsCleanly_iff RegexLib.groupsInside_posix strayText .zero).mpr (by decide +kernel), by
    decide +kernel⟩

/-- A stanza with a comment in it. -/
def commentedText : Bytes := cstr "<server a>\n# cyrus\norder username,address\n</server>\n"

/-- The comment is read through a `NULL`. -/
theorem reads_null :
    apconfRead RegexLib.posix (some commentedText) .zero = .error .undefined ∧
      ¬ EndsCleanly RegexLib.posix commentedText .zero := by
  have hnull : apconfRead RegexLib.posix (some commentedText) .zero = .error .undefined := by
    decide +kernel
  refine ⟨hnull, fun h => ?_⟩
  obtain ⟨r, hr⟩ := reported_returns_iff.mp h.returns
  rw [hnull] at hr
  cases hr

end ExactDaemon
