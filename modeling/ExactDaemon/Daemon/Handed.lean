import ExactDaemon.Daemon.Service

/-! # Whole lines

The passes of the main loop hand the lines of the log on to `match_line`, each whole and once,
if and only if no poll comes between the beginning and the end of a line.
-/

namespace ExactDaemon

open Prog

variable {I : World → Prop} {P : CStr → Prop} {line : CStr → Prog World Unit} {log : CStr}
  {suspicious : ℤ} {w : World} {mss : List (List LogMove)} {j : ℕ}

/-- The passes hand on exactly the lines of what is appended, each whole and once, if and
only if no buffer is longer than an `int` can count and each one that ends a line begins
where a line begins. With a negative timeout they hand on nothing. -/
theorem handed_iff_whole (h : Processing log suspicious j P I line) (hI : I w)
    (hg : ∀ ms ∈ mss, ∀ m ∈ ms, m.Grows)
    (hfew : ∀ ms ∈ mss, (appended ms).length + 1 < uintRange)
    (hP : ∀ ms ∈ mss, ∀ l ∈ lines isStop (delivery suspicious ms), P l) :
    (∃ t, (passes log line mss).run w = .done (lines isStop (mss.map appended).flatten) t) ↔
      (0 ≤ suspicious ∧ (∀ ms ∈ mss, ((appended ms).length : ℤ) ≤ intMax) ∧
        ∀ pre bs post, mss.map appended = pre ++ bs :: post → ¬ Unbroken isStop bs →
          rest isStop pre.flatten = []) ∨
      (suspicious < 0 ∧ Unbroken isStop (mss.map appended).flatten) := by
  by_cases h0 : 0 ≤ suspicious
  · have hd : delivery suspicious = appended := funext fun ms => if_pos h0
    rw [or_iff_left (fun hs => not_lt.mpr h0 hs.1), and_iff_right h0]
    by_cases hshort : ∀ ms ∈ mss, ((appended ms).length : ℤ) ≤ intMax
    · rw [handed_eq_iff h hI hg hfew hP (by rwa [hd]), hd, flatMap_lines_flatten_iff,
        and_iff_right hshort]
    · refine iff_of_false ?_ fun hr => hshort hr.1
      rintro ⟨t, ht⟩
      have hlong : ∃ ms ∈ mss, intMax < ((delivery suspicious ms).length : ℤ) := by
        rw [hd]
        simpa only [not_forall, not_le, exists_prop] using hshort
      exact passes_not_done h hI hg hfew hP hlong _ t ht
  · have hs : suspicious < 0 := not_le.mp h0
    have hshort : ∀ ms ∈ mss, ((delivery suspicious ms).length : ℤ) ≤ intMax := by
      intro ms _
      rw [delivery, if_neg h0]
      decide
    rw [handed_eq_iff h hI hg hfew hP hshort, flatMap_delivery_of_neg hs, eq_comm,
      lines_eq_nil_iff, or_iff_right (fun hr => h0 hr.1), and_iff_right hs]

/-! ### The daemon with a stanza -/

/-- `match_line` and `auth_text_add` deal with the lines that are legible, and the daemon is ready
for the next poll. -/
theorem processing_handLine (lib : RegexLib) (libc : Libc) (S : Setting) (fn : CStr) (j : ℕ)
    (h0 : 0 ≤ S.suspicious) :
    Processing S.maillog S.suspicious j (Legible lib S) (fun s => ∃ es, s.Serving lib S fn j es)
      (handLine lib libc) where
  consumes := by
    refine ⟨fun ls l s => ?_, fun ls s i => ?_⟩
    · rintro hl ⟨es, hs⟩
      obtain ⟨t, ht, htail, -, hserving⟩ := hs.run_handLine libc hl
      exact ⟨t, ht, ⟨_, hserving⟩, htail⟩
    · rintro ⟨es, hs⟩
      exact ⟨es, hs.endLine i⟩
  polled s := by
    rintro ⟨es, hs⟩
    obtain ⟨bs, hbs⟩ := hs.following
    exact ⟨_, bs, hbs, fun _ => rfl⟩
  poll s t u ms := by
    rintro ⟨es, hs⟩ hg hfew ht hu
    obtain ⟨t', u', ht', hu', -, -, hserving⟩ := hs.run_poll h0 hg hfew
    obtain rfl : t' = t := (Outcome.done.inj (ht'.symm.trans ht)).2
    obtain rfl : u' = u := (Outcome.done.inj (hu'.symm.trans hu)).2
    exact ⟨es, hserving⟩

/-- A daemon that has started with the stanza of uw-imap and opened its log. -/
theorem exists_serving_uwImap : ∃ w u fn j, World.Starts RegexLib.posix smallSetting w u ∧
    u.Serving RegexLib.posix smallSetting fn j [] := by
  obtain ⟨u, hu⟩ := startsServing_uwImap.exists_starts
  obtain ⟨j, hserved⟩ := Service.served_atStart Libc.simple hu
    ⟨by decide, by decide, by decide⟩ le_rfl
  exact ⟨_, u, _, j, hu, hserved.serving⟩

/-- A login and another line, and later the beginning of a third. -/
def loginWhole : List (List LogMove) :=
  [[.append (cstr "Login user=joe [1.2.3.4]\nLogout\n")], [.tick 5, .append (cstr "Log")]]

/-- A login that arrives in two polls. -/
def loginBroken : List (List LogMove) :=
  [[.append (cstr "Login user=joe")], [.append (cstr " [1.2.3.4]\n")]]

theorem legible_of_isOk {S : Setting} {l : CStr}
    (h : (groupTexts RegexLib.posix S.pattern l).isOk = true) : Legible RegexLib.posix S l := by
  unfold Legible
  cases hx : groupTexts RegexLib.posix S.pattern l with
  | ok x => exact ⟨x, rfl⟩
  | error e =>
    rw [hx] at h
    cases h

theorem legible_loginWhole : ∀ ms ∈ loginWhole,
    ∀ l ∈ lines isStop (delivery smallSetting.suspicious ms),
      Legible RegexLib.posix smallSetting l := by
  have hok : ∀ ms ∈ loginWhole, ∀ l ∈ lines isStop (delivery smallSetting.suspicious ms),
      (groupTexts RegexLib.posix smallSetting.pattern l).isOk = true := by decide +kernel
  exact fun ms hms l hl => legible_of_isOk (hok ms hms l hl)

theorem legible_loginBroken : ∀ ms ∈ loginBroken,
    ∀ l ∈ lines isStop (delivery smallSetting.suspicious ms),
      Legible RegexLib.posix smallSetting l := by
  have hok : ∀ ms ∈ loginBroken, ∀ l ∈ lines isStop (delivery smallSetting.suspicious ms),
      (groupTexts RegexLib.posix smallSetting.pattern l).isOk = true := by decide +kernel
  exact fun ms hms l hl => legible_of_isOk (hok ms hms l hl)

/-- Both lines are handed on, the login and the other one. -/
theorem handed_iff_whole_login : ∃ w u t, World.Starts RegexLib.posix smallSetting w u ∧
    (passes (cstr "m") (handLine RegexLib.posix Libc.simple) loginWhole).run u =
      .done [cstr "Login user=joe [1.2.3.4]", cstr "Logout"] t := by
  obtain ⟨w, u, fn, j, hu, hserving⟩ := exists_serving_uwImap
  have haligned := (flatMap_lines_flatten_iff (p := isStop) (loginWhole.map appended)).mp
    (by decide)
  have hprocess := processing_handLine RegexLib.posix Libc.simple smallSetting fn j (by decide)
  have hg : ∀ ms ∈ loginWhole, ∀ m ∈ ms, m.Grows := by decide
  obtain ⟨t, ht⟩ := (handed_iff_whole hprocess ⟨_, hserving⟩ hg (by decide)
    legible_loginWhole).mpr (Or.inl ⟨by decide, by decide, haligned⟩)
  exact ⟨w, u, t, hu, ht⟩

/-- The broken login is handed on without its beginning. -/
theorem handed_broken : ∃ w u, World.Starts RegexLib.posix smallSetting w u ∧
    ¬ ∀ mss, (∀ ms ∈ mss, ∀ m ∈ ms, m.Grows) →
      (∀ ms ∈ mss, (appended ms).length + 1 < uintRange) →
      ∃ t, (passes (cstr "m") (handLine RegexLib.posix Libc.simple) mss).run u =
        .done (lines isStop (mss.map appended).flatten) t := by
  obtain ⟨w, u, fn, j, hu, hserving⟩ := exists_serving_uwImap
  refine ⟨w, u, hu, fun h => ?_⟩
  have hg : ∀ ms ∈ loginBroken, ∀ m ∈ ms, m.Grows := by decide
  have hfew : ∀ ms ∈ loginBroken, (appended ms).length + 1 < uintRange := by decide
  have hprocess := processing_handLine RegexLib.posix Libc.simple smallSetting fn j (by decide)
  have hwhole := (handed_eq_iff hprocess ⟨_, hserving⟩ hg hfew legible_loginBroken
    (by decide) _).mp (h _ hg hfew)
  exact absurd hwhole (by decide)

end ExactDaemon
