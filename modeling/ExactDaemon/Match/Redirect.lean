import ExactDaemon.Match.Shipped

/-! # Which host a line authorises

A line of uw-imap authorises the address that the server has put at its end. In a line of
cyrus the user name stands behind the address, and a name that ends in a bracketed address
of its own is taken for it as soon as the server's text has a space.
-/

namespace ExactDaemon

open Prog Rexp

/-- The daemon has this stanza, and its expression is compiled. -/
structure World.Serves (lib : RegexLib) (order pattern : CStr) (w : World) : Prop where
  order : w.conffileParam (cstr "order") = some order
  patbuf : w.patbuf = lib.regcomp pattern true

/-- `match_line` returns this hostname for the line. -/
def Authorises (lib : RegexLib) (w : World) (line address : CStr) : Prop :=
  ((matchLine lib line).run w).Returns fun l _ => ∃ x, l = some x ∧ x.hostname = address

/-- An address is made of digits and dots. -/
def isAddressByte (c : UInt8) : Bool := (48 ≤ c ∧ c ≤ 57) ∨ c = 46

variable {lib : RegexLib} {w : World} {P U H A R D N Z X buff order pattern user host : CStr}
  {r : ℕ → Regmatch}

theorem World.Serves.matched (hw : w.Serves lib order pattern) (hlib : lib.Conforms) {e : Rexp}
    (he : parse true pattern = some e) (hr : e.exec buff = .ok r) (h₂ : (r 2).Within buff)
    (h₃ : (r 3).Within buff) (hb : 0 ∉ buff) : Matched lib w buff order r where
  order := hw.order
  regexec := by
    refine ⟨_, hw.patbuf.trans (hlib.regcomp _ _ _ he), ?_⟩
    rw [hlib.regexec _ _ _ he _ hb, hr]
  username := h₂
  hostname := h₃
  noNul := hb

/-- What a matched line authorises, from the two texts that were matched. -/
theorem Matched.authorises_iff (h : Matched lib w buff order r)
    (hu : (r (positions order).1).Spans buff user) (hh : (r (positions order).2).Spans buff host) :
    Authorises lib w buff A ↔
      host = A ∧ user.length < matchLoginUsernameMax ∧ host.length < matchLoginHostnameMax := by
  unfold Authorises
  rw [h.run_matchLine, hu.length, hh.length, hu.span, hh.span]
  by_cases hlen : user.length < matchLoginUsernameMax ∧ host.length < matchLoginHostnameMax
  · rw [if_pos hlen]
    constructor
    · rintro ⟨x, hx, hA⟩
      cases hx
      exact ⟨hA, hlen⟩
    · rintro ⟨hA, -⟩
      exact ⟨_, rfl, hA⟩
  · rw [if_neg hlen]
    constructor
    · intro h
      exact h.elim
    · rintro ⟨-, h⟩
      exact absurd h hlen

/-! ### Digits and dots -/

theorem addressBytes_of_isAddressByte {c : UInt8} (h : isAddressByte c = true) :
    addressBytes.mem c := by
  simp only [isAddressByte, decide_eq_true_eq] at h
  simp only [addressBytes, ByteSet.mem, List.any_cons, List.any_nil]
  rcases h with ⟨h₁, h₂⟩ | rfl
  · simp [h₁, h₂]
  · decide

theorem not_mem_of_isAddressByte {c : UInt8} (hA : ∀ c ∈ A, isAddressByte c = true)
    (hc : isAddressByte c = false) : c ∉ A := fun h =>
  absurd ((hA c h).symm.trans hc) (by decide)

theorem not_mem_of_addressBytes {c : UInt8} (hD : ∀ c ∈ D, addressBytes.mem c)
    (hc : addressBytes.mem c = false) : c ∉ D := fun h =>
  absurd ((hD c h).symm.trans hc) (by decide)

/-! ### Splitting at a byte -/

theorem append_cons_right {α : Type*} {x t a b : List α} {c : α} (h : x ++ c :: t = a ++ b)
    (hc : c ∉ a) : ∃ z, x = a ++ z ∧ z ++ c :: t = b := by
  rcases List.append_eq_append_iff.mp h with ⟨z, rfl, hz⟩ | ⟨z, rfl, hz⟩
  · rcases z with _ | ⟨d, z⟩
    · exact ⟨[], by simp, by simpa using hz⟩
    · obtain ⟨rfl, -⟩ := List.cons.inj hz
      exact absurd (List.mem_append_right x List.mem_cons_self) hc
  · exact ⟨z, rfl, hz.symm⟩

theorem append_cons_left {α : Type*} {x t a b : List α} {c : α} (h : x ++ c :: t = a ++ b)
    (hc : c ∉ b) : ∃ z, a = x ++ c :: z ∧ t = z ++ b := by
  rcases List.append_eq_append_iff.mp h with ⟨z, rfl, hz⟩ | ⟨z, rfl, rfl⟩
  · rcases z with _ | ⟨d, z⟩
    · rw [List.nil_append] at hz
      exact absurd (hz ▸ List.mem_cons_self) hc
    · obtain ⟨rfl, rfl⟩ := List.cons.inj hz
      exact ⟨z, rfl, rfl⟩
  · exact absurd (List.mem_append_right z List.mem_cons_self) hc

/-! ### Names that pose as an address -/

/-- The user name ends in a bracketed address. -/
def Posing (U D : CStr) : Prop :=
  (∀ c ∈ D, addressBytes.mem c) ∧ ∃ U₀, U = U₀ ++ 91 :: (D ++ [93])

/-- A bracketed address behind the one of the server ends the user name. -/
theorem posing_of_bracket {x y : CStr} (hA : 91 ∉ A) (hU : 32 ∉ U) (hR : 91 ∉ R)
    (hxy : x ++ y = A ++ 93 :: 32 :: (U ++ 32 :: R)) (hy : y ∈ lang cyrusBracket) :
    32 ∈ R ∧ ∃ D, Posing U D := by
  obtain ⟨D, N, Z, rfl, hD, -⟩ := mem_lang_cyrusBracket.mp hy
  have hmarks : (91 : UInt8) ∉ A ++ [93, 32] := by simpa using hA
  obtain ⟨U₀, -, hU₀⟩ := append_cons_right (a := A ++ [93, 32]) (by simpa using hxy) hmarks
  have hrest : (91 : UInt8) ∉ 32 :: R := by simpa using hR
  obtain ⟨T, rfl, hT⟩ := append_cons_left hU₀ hrest
  have hspace : (32 : UInt8) ∉ T := fun h => hU (by simp [h])
  obtain ⟨z, hz, hzR⟩ := append_cons_right (x := D ++ [93]) (a := T) (by simpa using hT) hspace
  rcases z with _ | ⟨d, z⟩
  · -- the space behind the bracket is the one behind the name
    obtain ⟨-, rfl⟩ := List.cons.inj hzR
    rw [List.append_nil] at hz
    subst hz
    exact ⟨by simp, D, hD, U₀, rfl⟩
  · obtain ⟨rfl, -⟩ := List.cons.inj hzR
    have hmem : (32 : UInt8) ∈ D ++ [93] := by
      rw [hz]
      simp
    rcases List.mem_append.mp hmem with h | h
    · exact absurd h (not_mem_of_addressBytes hD (by decide))
    · cases List.mem_singleton.mp h

/-- No bracketed address begins behind this place. -/
theorem eq_nil_of_bracket {x y T : CStr} (hT : 91 ∉ T) (hxy : x ++ y = 91 :: T)
    (hy : y ∈ lang cyrusBracket) : x = [] := by
  obtain ⟨D, N, Z, rfl, -⟩ := mem_lang_cyrusBracket.mp hy
  cases x with
  | nil => rfl
  | cons d x =>
    obtain ⟨-, h⟩ := List.cons.inj hxy
    exact absurd (h ▸ List.mem_append_right x List.mem_cons_self) hT

/-! ### The lines -/

def uwImapLine (P U H A : CStr) : CStr :=
  P ++ cstr "Login user=" ++ U ++ cstr " host=" ++ H ++ cstr " [" ++ A ++ cstr "]"

def cyrusLine (P H A U R : CStr) : CStr :=
  P ++ cstr "login: " ++ H ++ cstr "[" ++ A ++ cstr "] " ++ U ++ cstr " " ++ R

theorem uwImapLine_eq (P U H A : CStr) : uwImapLine P U H A = P ++ uwImapText U H A := by
  simp [uwImapLine, uwImapText, cstr]

theorem cyrusLine_eq (P H A U R : CStr) :
    cyrusLine P H A U R = P ++ cyrusText (32 :: H) A U R := by
  simp [cyrusLine, cyrusText, cstr]

/-- The same line, read as one in which the name has posed as an address. -/
theorem cyrusLine_posing (P H A V D N Z : CStr) :
    cyrusLine P H A (V ++ 91 :: (D ++ [93])) (N ++ 32 :: Z) =
      P ++ cyrusText (32 :: (H ++ 91 :: (A ++ 93 :: 32 :: V))) D N Z := by
  simp [cyrusLine, cyrusText, cstr]

/-- What the expression of uw-imap authorises: the address of the server, if the name fits. -/
theorem authorises_uwImap (hw : w.Serves lib uwImapOrder uwImapMatch) (hlib : lib.Conforms)
    (hP : ∀ k ∈ uwImapKeys, ¬ k <:+: P) (hA : ∀ c ∈ A, isAddressByte c = true)
    (hlen : A.length < matchLoginHostnameMax) (hU : 32 ∉ U) (hb : 0 ∉ uwImapLine P U H A) :
    Authorises lib w (uwImapLine P U H A) A ↔ U.length < matchLoginUsernameMax := by
  obtain ⟨r, hr, hr₂, hr₃⟩ := exec_uwImapRexp hP hU (not_mem_of_isAddressByte hA (by decide))
    (not_mem_of_isAddressByte hA (by decide)) H
  rw [← uwImapLine_eq] at hr hr₂ hr₃
  have hm := hw.matched hlib parse_uwImapMatch hr hr₂.within hr₃.within hb
  refine (hm.authorises_iff hr₂ hr₃).trans ?_
  constructor
  · rintro ⟨-, hlt, -⟩
    exact hlt
  · intro hlt
    exact ⟨rfl, hlt, hlen⟩

/-- What the expression of cyrus authorises when the name does not pose as an address. -/
theorem authorises_cyrus (hw : w.Serves lib cyrusOrder cyrusMatch) (hlib : lib.Conforms)
    (hP : ¬ cstr "login" <:+: P) (hA : ∀ c ∈ A, isAddressByte c = true)
    (hlen : A.length < matchLoginHostnameMax) (hU : 32 ∉ U) (hR : 91 ∉ R)
    (hb : 0 ∉ cyrusLine P H A U R) (hposing : 32 ∈ R → ∀ D, ¬ Posing U D) :
    Authorises lib w (cyrusLine P H A U R) A ↔ U.length < matchLoginUsernameMax := by
  have hlast : ∀ x y, x ++ y = 91 :: (A ++ 93 :: 32 :: (U ++ 32 :: R)) →
      y ∈ lang cyrusBracket → x = [] := by
    intro x y hxy hy
    cases x with
    | nil => rfl
    | cons d x =>
      obtain ⟨-, hxy⟩ := List.cons.inj hxy
      obtain ⟨h32, D, hD⟩ :=
        posing_of_bracket (not_mem_of_isAddressByte hA (by decide)) hU hR hxy hy
      exact absurd hD (hposing h32 D)
  obtain ⟨r, hr, hr₂, hr₃⟩ := exec_cyrusRexp hP
    (fun c hc => addressBytes_of_isAddressByte (hA c hc)) hU hlast (32 :: H)
  rw [← cyrusLine_eq] at hr hr₂ hr₃
  have hm := hw.matched hlib parse_cyrusMatch hr hr₂.within hr₃.within hb
  refine (hm.authorises_iff hr₃ hr₂).trans ?_
  constructor
  · rintro ⟨-, hlt, -⟩
    exact hlt
  · intro hlt
    exact ⟨rfl, hlt, hlen⟩

/-- What it authorises when the name poses as an address: that address, for the next word
of the line. -/
theorem authorises_cyrus_posing (hw : w.Serves lib cyrusOrder cyrusMatch) (hlib : lib.Conforms)
    (hP : ¬ cstr "login" <:+: P) (hR : 91 ∉ R) (hb : 0 ∉ cyrusLine P H A U R) (h32 : 32 ∈ R)
    (hD : Posing U D) (B : CStr) :
    Authorises lib w (cyrusLine P H A U R) B ↔
      D = B ∧ (R.takeWhile (· ≠ 32)).length < matchLoginUsernameMax ∧
        D.length < matchLoginHostnameMax := by
  obtain ⟨hD, V, rfl⟩ := hD
  obtain ⟨N, Z, rfl, hN⟩ := List.eq_append_cons_of_mem h32
  have hword : (N ++ 32 :: Z).takeWhile (· ≠ 32) = N := by
    rw [List.takeWhile_append_of_pos fun c hc => by
      simpa using fun h0 : c = 32 => hN (h0 ▸ hc)]
    simp
  have hmark : (91 : UInt8) ∉ D ++ 93 :: 32 :: (N ++ 32 :: Z) := by
    have h91 := not_mem_of_addressBytes (c := 91) hD (by decide)
    rw [List.mem_append, not_or]
    exact ⟨h91, by simpa using hR⟩
  have hlast : ∀ x y, x ++ y = 91 :: (D ++ 93 :: 32 :: (N ++ 32 :: Z)) →
      y ∈ lang cyrusBracket → x = [] := fun x y => eq_nil_of_bracket hmark
  obtain ⟨r, hr, hr₂, hr₃⟩ :=
    exec_cyrusRexp hP hD hN hlast (32 :: (H ++ 91 :: (A ++ 93 :: 32 :: V)))
  rw [← cyrusLine_posing] at hr hr₂ hr₃
  have hm := hw.matched hlib parse_cyrusMatch hr hr₂.within hr₃.within hb
  rw [hword]
  exact hm.authorises_iff hr₃ hr₂

/-- The name does not redirect the line: where it poses as an address it is the address of
the server, and what is taken for the name fits its array. -/
structure CyrusSafe (A U R : CStr) : Prop where
  address : 32 ∈ R → ∀ D, Posing U D → D = A
  username : (32 ∈ R → ∀ D, ¬ Posing U D) → U.length < matchLoginUsernameMax
  word : 32 ∈ R → ∀ D, Posing U D → (R.takeWhile (· ≠ 32)).length < matchLoginUsernameMax

theorem authorises_cyrus_iff (hw : w.Serves lib cyrusOrder cyrusMatch) (hlib : lib.Conforms)
    (hP : ¬ cstr "login" <:+: P) (hA : ∀ c ∈ A, isAddressByte c = true)
    (hlen : A.length < matchLoginHostnameMax) (hU : 32 ∉ U) (hR : 91 ∉ R)
    (hb : 0 ∉ cyrusLine P H A U R) :
    Authorises lib w (cyrusLine P H A U R) A ↔ CyrusSafe A U R := by
  by_cases hposing : 32 ∈ R → ∀ D, ¬ Posing U D
  · rw [authorises_cyrus hw hlib hP hA hlen hU hR hb hposing]
    constructor
    · intro hlt
      exact ⟨fun h D hD => absurd hD (hposing h D), fun _ => hlt,
        fun h D hD => absurd hD (hposing h D)⟩
    · intro h
      exact h.username hposing
  · push Not at hposing
    obtain ⟨h32, D, hD⟩ := hposing
    constructor
    · intro h
      refine ⟨fun _ E hE => ?_, fun hno => absurd hD (hno h32 D), fun _ E hE => ?_⟩
      · exact ((authorises_cyrus_posing hw hlib hP hR hb h32 hE A).mp h).1
      · exact ((authorises_cyrus_posing hw hlib hP hR hb h32 hE A).mp h).2.1
    · intro h
      obtain rfl := h.address h32 D hD
      exact (authorises_cyrus_posing hw hlib hP hR hb h32 hD D).mpr ⟨rfl, h.word h32 D hD, hlen⟩

/-- Under the rule of POSIX a line of uw-imap authorises the address of the server exactly
when the name fits its array, and a line of cyrus when, besides, no name poses as another
address. -/
theorem hostname_iff (hlib : lib.Conforms) (hA : ∀ c ∈ A, isAddressByte c = true)
    (hlen : A.length < matchLoginHostnameMax) (hU : 32 ∉ U) :
    (∀ w P H, w.Serves lib uwImapOrder uwImapMatch → (∀ k ∈ uwImapKeys, ¬ k <:+: P) →
      0 ∉ uwImapLine P U H A →
      (Authorises lib w (uwImapLine P U H A) A ↔ U.length < matchLoginUsernameMax)) ∧
    ∀ w P H R, w.Serves lib cyrusOrder cyrusMatch → ¬ cstr "login" <:+: P → 91 ∉ R →
      0 ∉ cyrusLine P H A U R →
      (Authorises lib w (cyrusLine P H A U R) A ↔ CyrusSafe A U R) := by
  constructor
  · intro w P H hw hP hb
    exact authorises_uwImap hw hlib hP hA hlen hU hb
  · intro w P H R hw hP hR hb
    exact authorises_cyrus_iff hw hlib hP hA hlen hU hR hb

/-- A daemon with this stanza. -/
def World.serving (order pattern : CStr) : World :=
  { World.boot [⟨cstr "order", order, true⟩] with patbuf := RegexLib.posix.regcomp pattern true }

theorem serves_serving (order pattern : CStr) :
    (World.serving order pattern).Serves RegexLib.posix order pattern :=
  ⟨by simp [World.conffileParam, World.serving, World.boot, strcmp_self], rfl⟩

theorem hostname_iff_joe :
    Authorises RegexLib.posix (World.serving uwImapOrder uwImapMatch)
      (uwImapLine (cstr "imapd: ") (cstr "joe") (cstr "a.b [6.6.6.6]") (cstr "1.2.3.4"))
      (cstr "1.2.3.4") ∧
    Authorises RegexLib.posix (World.serving cyrusOrder cyrusMatch)
      (cyrusLine (cstr "imapd: ") (cstr "a.b [6.6.6.6] ") (cstr "1.2.3.4") (cstr "joe")
        (cstr "plaintext User logged in"))
      (cstr "1.2.3.4") := by
  have h := hostname_iff (A := cstr "1.2.3.4") (U := cstr "joe") RegexLib.conforms_posix
    (forall_mem_of_all (by decide)) (by decide) (by decide)
  refine ⟨(h.1 _ _ _ (serves_serving _ _) (by decide) (by decide)).mpr (by decide),
    (h.2 _ _ _ _ (serves_serving _ _) (by decide) (by decide) (by decide)).mpr ?_⟩
  have hno : ∀ D, ¬ Posing (cstr "joe") D := by
    rintro D ⟨-, U₀, hU⟩
    have hmem : (91 : UInt8) ∈ cstr "joe" := by
      rw [hU]
      simp
    exact absurd hmem (by decide)
  exact ⟨fun _ D hD => absurd hD (hno D), fun _ => by decide, fun _ D hD => absurd hD (hno D)⟩

/-- A name in brackets is the address that is authorised. -/
theorem hostname_redirected :
    Authorises RegexLib.posix (World.serving cyrusOrder cyrusMatch)
      (cyrusLine (cstr "imapd: ") (cstr "a.b ") (cstr "1.2.3.4") (cstr "[6.6.6.6]")
        (cstr "plaintext User logged in")) (cstr "6.6.6.6") ∧
    ¬ Authorises RegexLib.posix (World.serving cyrusOrder cyrusMatch)
      (cyrusLine (cstr "imapd: ") (cstr "a.b ") (cstr "1.2.3.4") (cstr "[6.6.6.6]")
        (cstr "plaintext User logged in")) (cstr "1.2.3.4") := by
  have hposing : Posing (cstr "[6.6.6.6]") (cstr "6.6.6.6") :=
    ⟨forall_mem_of_all (by decide), [], by decide⟩
  have h := authorises_cyrus_posing (P := cstr "imapd: ") (H := cstr "a.b ") (A := cstr "1.2.3.4")
    (R := cstr "plaintext User logged in") (serves_serving cyrusOrder cyrusMatch)
    RegexLib.conforms_posix (by decide) (by decide) (by decide) (by decide) hposing
  constructor
  · exact (h _).mpr ⟨rfl, by decide, by decide⟩
  · intro ha
    exact absurd ((h _).mp ha).1 (by decide)

end ExactDaemon
