import ExactDaemon.Auth.Server
import ExactDaemon.Conf.Accepted
import ExactDaemon.Match.Shipped

/-! # What a running daemon keeps

The expression that `match_init` compiled and the period that `auth_init` read stay with a
daemon from its start on. Nothing but `match_line` and the setting of the alarm looks at them.
-/

namespace ExactDaemon

open Prog

/-- What an expression takes out of a line: the texts of its second and third group. -/
def groupTexts (lib : RegexLib) (m : CStr) (buff : CStr) : Except Halt (Option (CStr × CStr)) :=
  match lib.regcomp m true with
  | none => .error .undefined
  | some rx =>
    match lib.regexec rx buff with
    | .ok r => do
      let a ← capture buff (r 2) matchLoginUsernameMax
      let b ← capture buff (r 3) matchLoginHostnameMax
      pure (some (a, b))
    | .nomatch => .ok none
    | .espace => .error (.exit 50)
    | .other => .error .abort

/-- The two texts by the order of the configuration. -/
def MatchLogin.ofTexts (order : CStr) (x : CStr × CStr) : MatchLogin :=
  if strcmp order (cstr "username,address") = 0 then ⟨x.1, x.2⟩ else ⟨x.2, x.1⟩

variable {lib : RegexLib} {libc : Libc} {onLiteral : Except Halt Unit} {w s t u v : World}
  {m order buff fn : CStr} {flush : ℤ} {c : Config} {x : Option (CStr × CStr)} {e : Halt}

/-! ### A line -/

theorem capture_length {r : Regmatch} {size : ℕ} {a : CStr} (h : capture buff r size = .ok a) :
    a.length < size := by
  simp only [capture] at h
  split_ifs at h with hbig hn hn
  · omega
  · obtain rfl := Except.ok.inj h
    refine lt_of_le_of_lt (List.length_take_le _ _) ?_
    dsimp only
    omega

theorem capture_error {r : Regmatch} {size : ℕ} (h : capture buff r size = .error e) :
    e = .undefined := by
  simp only [capture] at h
  split_ifs at h <;> exact (Except.error.inj h).symm

theorem matchPositions_eq (ho : w.conffileParam (cstr "order") = some order) :
    w.matchPositions = .ok (positions order, w) := by
  rw [World.matchPositions, ho]

/-- `match_line` assigns by the order what its expression takes out of the line. -/
theorem run_matchLine_texts (hp : w.patbuf = lib.regcomp m true)
    (ho : w.conffileParam (cstr "order") = some order) :
    (matchLine lib buff).run w =
      .ofExcept ((groupTexts lib m buff).map (Option.map (MatchLogin.ofTexts order))) w := by
  unfold matchLine groupTexts
  rw [run_bind, run_attempt_ok (matchPositions_eq ho), Outcome.bind_done, run_bind, run_attempt]
  cases hm : lib.regcomp m true with
  | none => simp only [World.regexec, hp, hm]; rfl
  | some rx =>
    simp only [World.regexec, hp, hm, Outcome.bind_done]
    rcases lib.regexec rx buff with r | _ | _ | _
    · unfold positions MatchLogin.ofTexts
      by_cases hlt : strcmp order (cstr "username,address") = 0
      · simp only [if_pos hlt]
        rw [run_bind, run_attempt]
        cases h₂ : capture buff (r 2) matchLoginUsernameMax with
        | error e => rfl
        | ok a =>
          simp only [Except.map, Outcome.bind_done]
          rw [run_bind, run_attempt]
          cases capture buff (r 3) matchLoginHostnameMax <;> rfl
      · simp only [if_neg hlt]
        rw [run_bind, run_attempt]
        cases h₃ : capture buff (r 3) matchLoginUsernameMax with
        | error e =>
          obtain rfl := capture_error h₃
          rw [show matchLoginHostnameMax = matchLoginUsernameMax from rfl, h₃]
          cases h₂ : capture buff (r 2) matchLoginUsernameMax with
          | error e =>
            obtain rfl := capture_error h₂
            rfl
          | ok a => rfl
        | ok b =>
          simp only [Except.map, Outcome.bind_done]
          rw [run_bind, run_attempt, show matchLoginHostnameMax = matchLoginUsernameMax from rfl,
            h₃]
          cases capture buff (r 2) matchLoginUsernameMax <;> rfl
    · rfl
    · rfl
    · rfl

theorem groupTexts_length {x : CStr × CStr} (h : groupTexts lib m buff = .ok (some x))
    (order : CStr) : (MatchLogin.ofTexts order x).hostname.length < matchLoginHostnameMax := by
  unfold groupTexts at h
  split at h
  · cases h
  · split at h
    · obtain ⟨a, ha, hrest⟩ := ok_of_bind h
      obtain ⟨b, hb, hx⟩ := ok_of_bind hrest
      cases hx
      unfold MatchLogin.ofTexts
      split
      · exact capture_length hb
      · exact capture_length ha
    · cases h
    · cases h
    · cases h

/-! ### What does not look at the expression or at the period -/

/-- The daemon with the compiled expression, the period and the static section of `u`. -/
def World.cached (w u : World) : World :=
  { w with patbuf := u.patbuf, staticSection := u.staticSection,
           tables := { w.tables with authAlarm := u.tables.authAlarm } }

section Cached

theorem tracks_cached_modify {f : World → World}
    (h : ∀ s, f (s.cached u) = (f s).cached u) :
    Tracks (fun s t => t = s.cached u) (modify f) := by
  refine tracks_modify ?_
  rintro s _ rfl
  exact h s

theorem tracks_cached_attempt {α : Type} {f : World → Except Halt (α × World)}
    (h : ∀ s, f (s.cached u) = (f s).map fun r => (r.1, r.2.cached u)) :
    Tracks (fun s t => t = s.cached u) (attempt f) := by
  refine tracks_attempt ?_
  rintro s _ rfl
  rw [h s]
  cases f s with
  | error e => exact Or.inl ⟨e, rfl, rfl⟩
  | ok r => exact Or.inr ⟨r.1, r.2, _, rfl, rfl, rfl⟩

theorem tracks_cached_read {α : Type} {f : World → α} (h : ∀ s, f (s.cached u) = f s) :
    Tracks (fun s t => t = s.cached u) (read f) := by
  refine tracks_read ?_
  rintro s _ rfl
  exact (h s).symm

theorem conffileParam_cached (s : World) (name : CStr) :
    (s.cached u).conffileParam name = s.conffileParam name := rfl

theorem conffileParamInt_cached (s : World) (name : CStr) :
    (s.cached u).conffileParamInt name = s.conffileParamInt name := rfl

theorem fopenWrite_cached (s : World) (path : Option CStr) :
    (s.cached u).fopenWrite path =
      (s.fopenWrite path).map fun r => (r.1, r.2.cached u) := by
  cases path with
  | none => rfl
  | some path =>
    simp only [World.fopenWrite, show (s.cached u).fs = s.fs from rfl]
    cases s.fs.openWrite path <;> rfl

theorem load_cached (s : World) (p : ℕ × ℕ) :
    (s.cached u).tables.load p = s.tables.load p := rfl

theorem store_cached (s : World) (p : ℕ × ℕ) (g : AuthEntry → AuthEntry) :
    (s.cached u).store p g =
      (s.store p g).map fun r => (r.1, r.2.cached u) := by
  simp only [World.store, Tables.store,
    show (s.cached u).tables.mem = s.tables.mem from rfl]
  cases (s.tables.mem p.1)[p.2]? <;> rfl

theorem printHost_cached (s : World) (fd i : ℕ) :
    (s.cached u).printHost fd i =
      (s.printHost fd i).map fun r => (r.1, r.2.cached u) := by
  simp only [World.printHost, load_cached,
    show (s.cached u).tables.auth = s.tables.auth from rfl]
  cases s.tables.load (s.tables.auth, i) with
  | error e => rfl
  | ok x =>
    dsimp only
    split <;> rfl

theorem publish_cached (s : World) :
    (s.cached u).publish = s.publish.map fun r => (r.1, r.2.cached u) := by
  simp only [World.publish, conffileParam_cached,
    show (s.cached u).fs = s.fs from rfl]
  split
  · cases s.fs.rename _ _ <;> rfl
  · rfl

theorem tracks_cached_authWriteText :
    Tracks (fun s t => t = s.cached u) authWriteText := by
  refine (tracks_cached_attempt fun s => fopenWrite_cached s _).bind fun f => ?_
  cases f with
  | none => exact tracks_halt _
  | some f =>
    refine (tracks_cached_read fun s => rfl).bind fun n => Tracks.bind ?_ fun _ => ?_
    · refine tracks_loop (fun i s t h => ?_) (fun i _ => ?_) _ _ _
      · rw [h]
        rfl
      · exact tracks_cached_attempt fun s => printHost_cached s f i
    · refine Tracks.bind (tracks_cached_modify fun s => rfl) fun _ => ?_
      exact tracks_cached_attempt publish_cached

theorem tracks_cached_authTextAdd (username hostname : CStr) :
    Tracks (fun s t => t = s.cached u) (authTextAdd libc username hostname) := by
  refine (tracks_cached_read fun s => rfl).bind fun e => ?_
  cases e with
  | some e => exact tracks_cached_attempt fun s => store_cached s e _
  | none =>
    refine (tracks_cached_modify fun s => ?_).bind fun _ => ?_
    · by_cases hc : s.tables.authCur = s.tables.authMax
      · have hc' : (s.cached u).tables.authCur = (s.cached u).tables.authMax := hc
        simp only [World.onTables, Tables.grow, if_pos hc, if_pos hc']
        rfl
      · have hc' : ¬ (s.cached u).tables.authCur = (s.cached u).tables.authMax := hc
        simp only [World.onTables, Tables.grow, if_neg hc, if_neg hc']
        rfl
    refine (tracks_cached_attempt fun s => store_cached s _ _).bind fun _ => ?_
    refine (tracks_cached_attempt fun s => store_cached s _ _).bind fun _ => ?_
    refine Tracks.bind (tracks_cached_modify fun s => rfl) fun _ => ?_
    exact Tracks.bind (tracks_cached_modify fun s => rfl) fun _ => tracks_cached_authWriteText

theorem tracks_cached_authTextClean :
    Tracks (fun s t => t = s.cached u) authTextClean := by
  refine (tracks_cached_read fun s => rfl).bind fun now => ?_
  refine (tracks_cached_attempt fun s => ?_).bind fun max => ?_
  · rw [conffileParamInt_cached]
    cases s.conffileParamInt (cstr "timeout") <;> rfl
  refine (tracks_cached_read fun s => rfl).bind fun m => Tracks.bind ?_ fun n => ?_
  · refine tracks_loop (fun i s t h => ?_) (fun i n => ?_) _ _ _
    · rw [h]
      rfl
    · refine (tracks_cached_attempt fun s => ?_).bind fun e => ?_
      · rw [load_cached]
        change Except.map _ (s.tables.load (s.tables.auth, i)) = _
        cases s.tables.load (s.tables.auth, i) <;> rfl
      refine tracks_ite ?_ (tracks_pure n)
      refine (tracks_cached_attempt fun s => store_cached s _ _).bind fun _ => ?_
      exact (tracks_cached_attempt fun s => store_cached s _ _).bind fun _ => tracks_pure _
  refine (tracks_cached_read fun s => rfl).bind fun tmp => ?_
  refine Tracks.bind (tracks_cached_modify fun s => rfl) fun _ => ?_
  refine Tracks.bind (tracks_cached_modify fun s => rfl) fun _ => ?_
  exact Tracks.bind (tracks_cached_modify fun s => rfl) fun _ => tracks_cached_authWriteText

end Cached

/-! ### The running daemon -/

/-- What stays with a running daemon: the expression and the period of its start, and
well-formed tables. Its configuration was accepted. -/
structure World.Running (lib : RegexLib) (fn m : CStr) (flush : ℤ) (w : World) : Prop where
  patbuf : w.patbuf = lib.regcomp m true
  authAlarm : w.tables.authAlarm = flush
  wellFormed : w.tables.WellFormed
  accepted : w.Accepted
  filename : w.conf.filename = fn

namespace World.Running

theorem of_same (h : s.Running lib fn m flush) (hp : t.patbuf = s.patbuf)
    (hc : t.conf = s.conf) (ha : t.tables.authAlarm = s.tables.authAlarm)
    (hw : t.tables.WellFormed) : t.Running lib fn m flush where
  patbuf := hp.trans h.patbuf
  authAlarm := ha.trans h.authAlarm
  wellFormed := hw
  accepted := h.accepted.of_conf hc
  filename := hc ▸ h.filename

theorem onlyFiles (h : s.Running lib fn m flush) (hf : s.OnlyFiles t) :
    t.Running lib fn m flush := by
  rw [show t = _ from hf]
  exact h.of_same rfl rfl rfl h.wellFormed

theorem withTables (h : s.Running lib fn m flush) {tb : Tables}
    (ha : tb.authAlarm = s.tables.authAlarm) (hw : tb.WellFormed) :
    (s.withTables tb).Running lib fn m flush :=
  h.of_same rfl rfl ha hw

theorem of_add {username host : CStr} (h : s.Running lib fn m flush)
    (hh : host.length < matchLoginHostnameMax)
    (hr : (authTextAdd libc username host).run s = .done () t) : t.Running lib fn m flush := by
  have hcut := strncpy_of_length_le hh.le
  cases hp : s.tables.authPresent libc host with
  | some p =>
    obtain ⟨h₁, hlt, e, he, -⟩ := Tables.authPresent_some h.wellFormed hp
    have hi : s.tables.table[p.2]? = some e := by rw [Tables.getElem?_table hlt, ← h₁, he]
    rw [run_authTextAdd_present hp he] at hr
    obtain rfl := (Outcome.done.inj hr).2
    exact h.withTables rfl (h.wellFormed.refresh h₁ hi rfl)
  | none =>
    have hn := Tables.authPresent_none h.wellFormed hp
    rw [hcut] at hn
    rw [run_authTextAdd_absent h.wellFormed.fitted hp, World.inserted, hcut] at hr
    have hw := h.wellFormed.inserted libc (e := ⟨host, s.clock⟩) hh hn
    refine (h.withTables ?_ hw).onlyFiles (onlyFiles_authWriteText hr)
    change s.tables.grow.authAlarm = _
    unfold Tables.grow
    split <;> rfl

theorem of_clean (h : s.Running lib fn m flush)
    (hr : authTextClean.run s = .done () t) : t.Running lib fn m flush := by
  have htimeout : cstr "timeout" ∈ requiredI := by decide
  obtain ⟨max, hmax, -⟩ := h.accepted.conffileParamInt htimeout
  rw [run_authTextClean_eq h.wellFormed.fitted hmax] at hr
  have hw : (s.withTables (s.tables.cleaned s.clock max)).Running lib fn m flush :=
    h.withTables rfl (h.wellFormed.cleaned _ _)
  exact hw.onlyFiles (onlyFiles_authWriteText hr)

theorem install (h : s.Running lib fn m flush) (c : Config) :
    (s.install c).Running lib fn m flush :=
  h.of_same rfl rfl rfl h.wellFormed

end World.Running

/-! ### Starting -/

theorem start_eq (lib : RegexLib) :
    start lib = readCheck lib >>= fun _ => matchInit lib >>= fun _ => authInit := by
  unfold start readCheck
  rw [LawfulMonad.bind_assoc]

end ExactDaemon
