import ExactDaemon.Lib.CharArray
import ExactDaemon.Match.Match

/-! # The static match_login

`match_line` once more, byte by byte: the texts of two groups go into the arrays of a
struct that earlier lines have filled. The strings in them are what `matchLine` returns,
and there is room for a text and its NUL exactly if it is shorter than its array.
-/

namespace ExactDaemon

open Prog

/-- The group is unmatched or spans a part of the string. -/
def Regmatch.Within (m : Regmatch) (s : CStr) : Prop :=
  m = .unmatched ∨ (0 ≤ m.so ∧ m.so ≤ m.eo ∧ m.eo ≤ s.length)

/-- The `match_login` of `match_line`. -/
structure LoginArrays where
  username : CharArray matchLoginUsernameMax
  hostname : CharArray matchLoginHostnameMax
  deriving DecidableEq

/-- The strings in the two arrays. -/
def LoginArrays.login (l : LoginArrays) : Option MatchLogin := do
  let username ← l.username.str
  let hostname ← l.hostname.str
  return ⟨username, hostname⟩

/-- The copy of a group's text into one of the arrays. A negative length would reach
`strncpy` as a huge one. -/
def captureInto {n : ℕ} (buff : CStr) (m : Regmatch) (a : CharArray n) :
    Except Halt (CharArray n) :=
  let k := if m.eo - m.so > n then (n : ℤ) else m.eo - m.so
  if k < 0 then .error .undefined
  else do (← a.strncpy (buff.drop m.so.toNat) k.toNat).store k.toNat 0

/-- `match_line`, with what its static struct holds before and after. -/
def matchLineInto (lib : RegexLib) (buff : CStr) (l : LoginArrays) :
    Prog World (Option LoginArrays) := do
  let pos ← attempt World.matchPositions
  let m ← attempt (World.regexec lib buff)
  match m with
  | .ok r => do
    let username ← attempt fun w => (captureInto buff (r pos.1) l.username).map (·, w)
    let hostname ← attempt fun w => (captureInto buff (r pos.2) l.hostname).map (·, w)
    pure (some ⟨username, hostname⟩)
  | .nomatch => pure none
  | .espace => halt (.exit 50)
  | .other => halt .abort

variable {lib : RegexLib} {w s : World} {buff order : CStr} {rx : Regex} {r : ℕ → Regmatch}
  {m : Regmatch} {n : ℕ} {l : LoginArrays}

/-! ### One group -/

theorem Regmatch.Spans.within {text : CStr} (h : m.Spans buff text) : m.Within buff := by
  obtain ⟨a, c, rfl, hso, heo⟩ := h.split
  right
  rw [hso, heo, List.length_append, List.length_append]
  omega

theorem Regmatch.Within.le (h : m.Within buff) : m.so ≤ m.eo := by
  rcases h with rfl | ⟨-, h, -⟩
  · exact le_rfl
  · exact h

theorem Regmatch.Within.length_le (h : m.Within buff) :
    m.length ≤ (buff.drop m.so.toNat).length := by
  rcases h with rfl | ⟨h0, hle, hlen⟩
  · exact Nat.zero_le _
  · rw [List.length_drop, Regmatch.length]
    omega

theorem captureInto_ok (h : m.Within buff) (hb : 0 ∉ buff) (hn : m.length < n)
    (a : CharArray n) :
    ∃ a', captureInto buff m a = .ok a' ∧ a'.str = some (CStr.span buff m) := by
  have hle := h.le
  have hlt : (m.eo - m.so).toNat < n := hn
  have hsrc : (0 : UInt8) ∉ buff.drop m.so.toNat := fun h0 => hb (List.mem_of_mem_drop h0)
  have hk : (if m.eo - m.so > n then (n : ℤ) else m.eo - m.so) = m.eo - m.so :=
    if_neg (by omega)
  have hpos : ¬ m.eo - m.so < 0 := by omega
  simp only [captureInto, hk, if_neg hpos]
  exact CharArray.strncpy_store hsrc h.length_le hn

theorem captureInto_full (h : m.Within buff) (hn : n ≤ m.length) (a : CharArray n) :
    captureInto buff m a = .error .undefined := by
  have hle : n ≤ (m.eo - m.so).toNat := hn
  have hk : (if m.eo - m.so > n then (n : ℤ) else m.eo - m.so) = n := by
    split
    · rfl
    · have := h.le
      omega
  simp only [captureInto, hk, if_neg (not_lt.mpr (Int.natCast_nonneg n)), Int.toNat_natCast]
  exact CharArray.strncpy_store_full a _

theorem length_span (h : m.Within buff) : (CStr.span buff m).length = m.length := by
  have hl := h.length_le
  rw [CStr.span, List.length_take]
  exact Nat.min_eq_left hl

/-- The bound of `capture` is the array. -/
theorem capture_eq (h : m.Within buff) (n : ℕ) :
    capture buff m n =
      if m.length < n then .ok (CStr.span buff m) else .error .undefined := by
  have hle := h.le
  unfold capture Regmatch.length
  by_cases hn : (m.eo - m.so).toNat < n
  · have hk : (if m.eo - m.so > n then (n : ℤ) else m.eo - m.so) = m.eo - m.so :=
      if_neg (by omega)
    simp only [hk, if_pos hn]
    rw [if_pos (by omega), show m.so + (m.eo - m.so) = m.eo by omega]
  · have hk : (if m.eo - m.so > n then (n : ℤ) else m.eo - m.so) = n := by
      split <;> omega
    simp only [hk, if_neg hn]
    rw [if_neg (by omega)]

/-- The two copies fail together, or the array holds the text that `capture` returns. -/
theorem capture_cases (h : m.Within buff) (hb : 0 ∉ buff) (a : CharArray n) :
    (capture buff m n = .error .undefined ∧ captureInto buff m a = .error .undefined) ∨
      ∃ text a', capture buff m n = .ok text ∧ captureInto buff m a = .ok a' ∧
        a'.str = some text := by
  rw [capture_eq h]
  by_cases hn : m.length < n
  · obtain ⟨a', ha', hs⟩ := captureInto_ok h hb hn a
    exact Or.inr ⟨_, a', if_pos hn, ha', hs⟩
  · exact Or.inl ⟨if_neg hn, captureInto_full h (Nat.le_of_not_lt hn) a⟩

/-! ### The whole line -/

theorem positions_eq (order : CStr) : positions order = (2, 3) ∨ positions order = (3, 2) := by
  unfold positions
  split
  · exact Or.inl rfl
  · exact Or.inr rfl

theorem within_positions (h₂ : (r 2).Within buff) (h₃ : (r 3).Within buff) (order : CStr) :
    (r (positions order).1).Within buff ∧ (r (positions order).2).Within buff := by
  rcases positions_eq order with h | h <;> rw [h]
  · exact ⟨h₂, h₃⟩
  · exact ⟨h₃, h₂⟩

/-- The two lengths below a bound, whichever group is the user. -/
theorem lengths_positions (order : CStr) (k : ℕ) :
    ((r (positions order).1).length < k ∧ (r (positions order).2).length < k) ↔
      (r 2).length < k ∧ (r 3).length < k := by
  rcases positions_eq order with h | h <;> rw [h]
  exact and_comm

/-- The line was matched: what `match_line` looks at. -/
structure Matched (lib : RegexLib) (w : World) (buff order : CStr) (r : ℕ → Regmatch) : Prop where
  order : w.conffileParam (cstr "order") = some order
  regexec : ∃ rx, w.patbuf = some rx ∧ lib.regexec rx buff = .ok r
  username : (r 2).Within buff
  hostname : (r 3).Within buff
  noNul : 0 ∉ buff

theorem Matched.run_matchLineInto (h : Matched lib w buff order r) (l : LoginArrays) :
    (matchLineInto lib buff l).run w =
      match captureInto buff (r (positions order).1) l.username,
        captureInto buff (r (positions order).2) l.hostname with
      | .ok username, .ok hostname => .done (some ⟨username, hostname⟩) w
      | .ok _, .error e => .halted e w
      | .error e, _ => .halted e w := by
  obtain ⟨rx, hrx, hr⟩ := h.regexec
  have hpos : w.matchPositions = .ok (positions order, w) := by
    rw [World.matchPositions, h.order]
  have hexec : w.regexec lib buff = .ok (.ok r, w) := by
    rw [World.regexec, hrx]
    exact congrArg (fun x => Except.ok (x, w)) hr
  rw [matchLineInto, run_bind, run_attempt_ok hpos, Outcome.bind_done, run_bind,
    run_attempt_ok hexec, Outcome.bind_done, run_bind, run_attempt]
  cases captureInto buff (r (positions order).1) l.username with
  | error e => rfl
  | ok username =>
    simp only [Except.map, Outcome.bind_done]
    rw [run_bind, run_attempt]
    cases captureInto buff (r (positions order).2) l.hostname <;> rfl

/-- What `match_line` returns, or that a text is too long for it. -/
theorem Matched.run_matchLine (h : Matched lib w buff order r) :
    (matchLine lib buff).run w =
      if (r (positions order).1).length < matchLoginUsernameMax ∧
        (r (positions order).2).length < matchLoginHostnameMax then
        .done (some ⟨CStr.span buff (r (positions order).1),
          CStr.span buff (r (positions order).2)⟩) w
      else .halted .undefined w := by
  obtain ⟨rx, hrx, hr⟩ := h.regexec
  obtain ⟨hu, hh⟩ := within_positions h.username h.hostname order
  have hpos : w.matchPositions = .ok (positions order, w) := by
    rw [World.matchPositions, h.order]
  have hexec : w.regexec lib buff = .ok (.ok r, w) := by
    rw [World.regexec, hrx]
    exact congrArg (fun x => Except.ok (x, w)) hr
  rw [matchLine, run_bind, run_attempt_ok hpos, Outcome.bind_done, run_bind,
    run_attempt_ok hexec, Outcome.bind_done, run_bind, run_attempt, capture_eq hu]
  by_cases hun : (r (positions order).1).length < matchLoginUsernameMax
  · rw [if_pos hun]
    simp only [Except.map, Outcome.bind_done]
    rw [run_bind, run_attempt, capture_eq hh]
    by_cases hhn : (r (positions order).2).length < matchLoginHostnameMax
    · rw [if_pos hhn, if_pos ⟨hun, hhn⟩]
      rfl
    · rw [if_neg hhn, if_neg fun h => hhn h.2]
      rfl
  · rw [if_neg hun, if_neg fun h => hun h.1]
    rfl

/-- `matchLine` returns the strings in the arrays, whatever they held before. -/
theorem run_matchLine_eq (hw : ∀ rx r, w.patbuf = some rx → lib.regexec rx buff = .ok r →
      (r 2).Within buff ∧ (r 3).Within buff) (hb : 0 ∉ buff) (l : LoginArrays) :
    (matchLine lib buff).run w =
      ((matchLineInto lib buff l).run w).bind fun x s => .done (x.bind LoginArrays.login) s := by
  unfold matchLine matchLineInto
  rw [run_bind, run_bind, run_attempt]
  cases ho : w.conffileParam (cstr "order") with
  | none => simp only [World.matchPositions, ho]; rfl
  | some order =>
    simp only [World.matchPositions, ho, Outcome.bind_done]
    rw [run_bind, run_bind, run_attempt]
    cases hp : w.patbuf with
    | none => simp only [World.regexec, hp]; rfl
    | some rx =>
      simp only [World.regexec, hp, Outcome.bind_done]
      rcases hr : lib.regexec rx buff with r | _ | _ | _
      · obtain ⟨h₂, h₃⟩ := hw rx r hp hr
        obtain ⟨hu, hh⟩ := within_positions h₂ h₃ order
        rw [run_bind, run_bind, run_attempt, run_attempt]
        rcases capture_cases hu hb l.username with ⟨hc, hi⟩ | ⟨user, u, hc, hi, hus⟩
        · rw [hc, hi]
          rfl
        · rw [hc, hi]
          simp only [Except.map, Outcome.bind_done]
          rw [run_bind, run_bind, run_attempt, run_attempt]
          rcases capture_cases hh hb l.hostname with ⟨hc, hi⟩ | ⟨host, v, hc, hi, hvs⟩
          · rw [hc, hi]
            rfl
          · rw [hc, hi]
            simp only [Outcome.bind_done, run_pure, Option.bind_some, LoginArrays.login, hus, hvs]
            rfl
      · rfl
      · rfl
      · rfl

/-! ### In bounds -/

/-- What `match_line` is to leave for a match: both texts, cut to what an array holds with
a NUL, and a hostname that keeps its NUL when `auth_text_add` copies it into an entry. -/
structure Extracted (buff : CStr) (user host : Regmatch) (x : LoginArrays) : Prop where
  username : x.username.str = some ((CStr.span buff user).take (matchLoginUsernameMax - 1))
  hostname : x.hostname.str = some ((CStr.span buff host).take (matchLoginHostnameMax - 1))
  copied : ∀ e : CharArray matchLoginHostnameMax, ∃ e',
    e.strncpy x.hostname.bytes matchLoginHostnameMax = .ok e' ∧ e'.str = x.hostname.str
  terminated : ∀ h, x.hostname.str = some h → ∀ t,
    (⟨strncpy h matchLoginHostnameMax, t⟩ : AuthEntry).Terminated

/-- `match_line` has copied the two texts in bounds. -/
def Extracts (lib : RegexLib) (w : World) (buff order : CStr) (r : ℕ → Regmatch)
    (l : LoginArrays) : Prop :=
  ((matchLineInto lib buff l).run w).Returns fun x _ => ∃ y, x = some y ∧
    Extracted buff (r (positions order).1) (r (positions order).2) y

theorem take_span (h : m.Within buff) (hn : m.length < n) :
    (CStr.span buff m).take (n - 1) = CStr.span buff m := by
  refine List.take_of_length_le ?_
  rw [length_span h]
  omega

theorem Extracted.of_str {user host : Regmatch} {x : LoginArrays}
    (hu : user.Within buff) (hun : user.length < matchLoginUsernameMax)
    (hh : host.Within buff) (hhn : host.length < matchLoginHostnameMax)
    (hus : x.username.str = some (CStr.span buff user))
    (hhs : x.hostname.str = some (CStr.span buff host)) : Extracted buff user host x where
  username := by rw [hus, take_span hu hun]
  hostname := by rw [hhs, take_span hh hhn]
  copied e := by
    rw [hhs]
    exact CharArray.str_strncpy_array e hhs (CharArray.length_lt_of_str hhs)
  terminated h hs t := by
    have hlt := CharArray.length_lt_of_str hs
    rwa [AuthEntry.Terminated, strncpy_of_length_le hlt.le]

theorem Matched.not_extracts (h : Matched lib w buff order r) (l : LoginArrays)
    (hlong : matchLoginUsernameMax ≤ (r (positions order).1).length ∨
      matchLoginHostnameMax ≤ (r (positions order).2).length) :
    ¬ Extracts lib w buff order r l := by
  obtain ⟨hu, hh⟩ := within_positions h.username h.hostname order
  rw [Extracts, h.run_matchLineInto]
  rcases hlong with hlong | hlong
  · rw [captureInto_full hu hlong]
    exact not_false
  · rw [captureInto_full hh hlong]
    cases captureInto buff (r (positions order).1) l.username <;> exact not_false

/-- Both texts are extracted in bounds exactly when each is shorter than its array. -/
theorem extracts_iff (h : Matched lib w buff order r) (l : LoginArrays) :
    Extracts lib w buff order r l ↔
      (r 2).length < matchLoginUsernameMax ∧ (r 3).length < matchLoginHostnameMax := by
  refine Iff.trans ?_ (lengths_positions order matchLoginHostnameMax)
  obtain ⟨hu, hh⟩ := within_positions h.username h.hostname order
  constructor
  · intro hx
    by_contra hn
    refine h.not_extracts l ?_ hx
    by_contra hn'
    push Not at hn'
    exact hn ⟨hn'.1, hn'.2⟩
  · rintro ⟨hun, hhn⟩
    obtain ⟨u, hiu, hus⟩ := captureInto_ok (n := matchLoginUsernameMax) hu h.noNul hun l.username
    obtain ⟨v, hiv, hvs⟩ := captureInto_ok hh h.noNul hhn l.hostname
    rw [Extracts, h.run_matchLineInto, hiu, hiv]
    exact ⟨_, rfl, Extracted.of_str hu hun hh hhn hus hvs⟩

/-! ### A line of two words -/

/-- The groups of `(:)([^ ]*) ([^ ]*)` for words of these lengths. -/
def wordGroups (u h : ℕ) : ℕ → Regmatch
  | 0 => ⟨0, u + h + 2⟩
  | 1 => ⟨0, 1⟩
  | 2 => ⟨1, u + 1⟩
  | 3 => ⟨u + 2, u + 2 + h⟩
  | _ => .unmatched

/-- What `(:)([^ ]*) ([^ ]*)` matches in a line whose only colon is its first byte. -/
def RegexLib.twoWords : RegexLib where
  regcomp text extended := some ⟨text, extended⟩
  regexec _ s :=
    match s with
    | 58 :: t =>
      let u := t.takeWhile (· ≠ 32)
      if u.length < t.length then
        .ok (wordGroups u.length ((t.drop (u.length + 1)).takeWhile (· ≠ 32)).length)
      else .nomatch
    | _ => .nomatch

/-- A daemon that has compiled this expression. -/
def World.twoWords : World :=
  { World.boot [⟨cstr "order", cstr "username,address", true⟩] with
    patbuf := some ⟨cstr "(:)([^ ]*) ([^ ]*)", true⟩ }

theorem matched_twoWords (user host : CStr) (hu : ∀ c ∈ user, c ≠ 32 ∧ c ≠ 0)
    (hh : ∀ c ∈ host, c ≠ 32 ∧ c ≠ 0) :
    Matched RegexLib.twoWords World.twoWords (58 :: (user ++ 32 :: host))
      (cstr "username,address") (wordGroups user.length host.length) where
  order := by decide
  regexec := by
    have hword : (user ++ 32 :: host).takeWhile (· ≠ 32) = user := by
      rw [List.takeWhile_append_of_pos fun c hc => by simpa using (hu c hc).1]
      simp
    have hrest : host.takeWhile (· ≠ 32) = host :=
      List.takeWhile_eq_self_iff.mpr fun c hc => by simpa using (hh c hc).1
    have hdrop : (user ++ 32 :: host).drop (user.length + 1) = host := by
      rw [← List.drop_drop, List.drop_left]
      rfl
    refine ⟨_, rfl, ?_⟩
    simp only [RegexLib.twoWords, hword, hdrop, hrest]
    exact if_pos (by simp)
  username := Or.inr (by simp [wordGroups]; omega)
  hostname := Or.inr (by simp [wordGroups]; omega)
  noNul h := by
    rcases List.mem_cons.mp h with h | h
    · cases h
    rcases List.mem_append.mp h with h | h
    · exact (hu 0 h).2 rfl
    rcases List.mem_cons.mp h with h | h
    · cases h
    · exact (hh 0 h).2 rfl

theorem extracts_iff_joe :
    Extracts RegexLib.twoWords World.twoWords (cstr ":joe 10.0.0.1") (cstr "username,address")
      (wordGroups 3 8) ⟨.zeros _, .zeros _⟩ :=
  (extracts_iff (matched_twoWords (cstr "joe") (cstr "10.0.0.1") (forall_mem_of_all (by decide))
    (forall_mem_of_all (by decide))) ⟨.zeros _, .zeros _⟩).mpr ⟨by decide, by decide⟩

/-- The NUL of a user of 255 bytes is stored behind its array. -/
theorem extracts_broken :
    ¬ Extracts RegexLib.twoWords World.twoWords (58 :: (List.replicate 255 97 ++ 32 :: [98]))
      (cstr "username,address") (wordGroups 255 1) ⟨.zeros _, .zeros _⟩ := by
  have h := matched_twoWords (List.replicate 255 97) [98]
    (fun c hc => by rw [List.eq_of_mem_replicate hc]; decide) (forall_mem_of_all (by decide))
  rw [List.length_replicate] at h
  exact h.not_extracts _ (Or.inl (by decide))

end ExactDaemon
