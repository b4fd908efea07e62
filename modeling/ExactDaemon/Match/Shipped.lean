import ExactDaemon.Lib.RexpSyntax
import ExactDaemon.Match.Login

/-! # The expressions of exact-servers.conf

What the shipped stanzas of uw-imap and cyrus take for the address, in a line whose user
name and host name a client has chosen.
-/

namespace ExactDaemon

open Prog Rexp

def uwImapOrder : CStr := cstr "username,address"
def uwImapMatch : CStr := cstr "(Login|Auth|Authenticated) user=([^ ]*).*\\[([^ ]*)\\]"

def cyrusOrder : CStr := cstr "address,username"
def cyrusMatch : CStr := cstr "(login):.*\\[([0-9\\.]*)\\] ([^ ]*) .*"

def nonSpace : ByteSet := ⟨[(32, 32)], true⟩

/-- In brackets the backslash is a byte like any other. -/
def addressBytes : ByteSet := ⟨[(48, 57), (92, 92), (46, 46)], false⟩

/-! ### uw-imap -/

def uwImapKeys : List CStr := [cstr "Login", cstr "Auth", cstr "Authenticated"]

def uwImapKey : Rexp :=
  group 1 (alt (alt (lit (cstr "Login")) (lit (cstr "Auth"))) (lit (cstr "Authenticated")))

/-- The end of the expression: the address and its bracket. -/
def uwImapAddress : Rexp := cat (group 3 (many nonSpace)) (set (.single 93))

def uwImapHost : Rexp := cat (many .any) (cat (set (.single 91)) uwImapAddress)

def uwImapUser : Rexp := cat (group 2 (many nonSpace)) uwImapHost

def uwImapRexp : Rexp := cat uwImapKey (lits (cstr " user=") uwImapUser)

theorem parse_uwImapMatch : parse true uwImapMatch = some uwImapRexp := by decide

variable {P U H A R D N Z M X : CStr} {i : ℕ} {g : ℕ → Regmatch} {c : UInt8}

theorem mem_nonSpace : nonSpace.mem c ↔ c ≠ 32 :=
  ByteSet.mem_negated.trans (not_congr ByteSet.mem_single)

theorem nonSpace_of_not_mem (h : 32 ∉ U) : ∀ c ∈ U, nonSpace.mem c := fun _ hc =>
  mem_nonSpace.mpr fun h0 => h (h0 ▸ hc)

theorem mem_lang_uwImapKey {w : Bytes} : w ∈ lang uwImapKey ↔ w ∈ uwImapKeys := by
  rw [show lang uwImapKey = lang (alt (alt (lit (cstr "Login")) (lit (cstr "Auth")))
    (lit (cstr "Authenticated"))) from rfl]
  simp only [mem_lang_alt, mem_lang_lit, uwImapKeys, List.mem_cons, List.not_mem_nil, or_false,
    or_assoc]

/-- The last bracket of the line begins the address. -/
theorem captures_uwImapAddress (hA : 32 ∉ A) :
    uwImapAddress.Captures i (A ++ [93]) g (record 3 i A g) := by
  refine Captures.cat (Captures.group (captures_many (nonSpace_of_not_mem hA)))
    (captures_single 93) fun x y hxy _ hy => ?_
  rw [mem_lang_single.mp hy] at hxy
  exact List.append_cancel_right (hxy.trans (List.nil_append [93]).symm)

theorem captures_uwImapHost (hA : 32 ∉ A) (hA' : 91 ∉ A) (M : CStr) :
    uwImapHost.Captures i (M ++ 91 :: (A ++ [93])) g (record 3 (i + M.length + 1) A g) := by
  refine Captures.cat (captures_many fun c _ => ByteSet.mem_any c)
    (Captures.single (captures_uwImapAddress hA)) fun x y hxy _ hy => ?_
  cases x with
  | nil => rfl
  | cons d x =>
    -- a later bracket would be in the address
    obtain ⟨v, rfl, -⟩ := mem_lang_single_cat.mp hy
    obtain ⟨-, hxy⟩ := List.cons.inj hxy
    have hmem : (91 : UInt8) ∈ A ++ [93] := hxy ▸ List.mem_append_right x List.mem_cons_self
    rcases List.mem_append.mp hmem with h | h
    · exact absurd h hA'
    · cases List.mem_singleton.mp h

/-- What follows the prefix of a line of uw-imap. -/
def uwImapText (U H A : CStr) : CStr :=
  cstr "Login" ++ (cstr " user=" ++ (U ++ (32 :: (cstr "host=" ++ H ++ [32]) ++ 91 :: (A ++ [93]))))

theorem captures_uwImapRexp (hU : 32 ∉ U) (hA : 32 ∉ A) (hA' : 91 ∉ A) (H : CStr) :
    ∃ g', uwImapRexp.Captures i (uwImapText U H A) g g' ∧
      g' 2 = ⟨(i + 11 : ℕ), (i + 11 : ℕ) + U.length⟩ ∧
      g' 3 = ⟨(i + 11 + U.length + (H.length + 7) + 1 : ℕ),
        (i + 11 + U.length + (H.length + 7) + 1 : ℕ) + A.length⟩ := by
  have hhost := captures_uwImapHost (i := i + 11 + U.length)
    (g := record 2 (i + 11) U (record 1 i (cstr "Login") g)) hA hA'
    (32 :: (cstr "host=" ++ H ++ [32]))
  have huser := Captures.many_cat (p := nonSpace) (r := group 2 (many nonSpace)) rfl
    (Captures.group (captures_many (nonSpace_of_not_mem hU))) (by decide) hhost
  have hkey : uwImapKey.Captures i (cstr "Login") g (record 1 i (cstr "Login") g) :=
    ⟨mem_lang_uwImapKey.mpr List.mem_cons_self, rfl⟩
  have hlen : (32 :: (cstr "host=" ++ H ++ [32])).length = H.length + 7 := by
    simp only [List.length_cons, List.length_append, List.length_nil,
      show (cstr "host=").length = 5 from rfl]
    omega
  rw [hlen] at huser
  refine ⟨_, Captures.cat hkey (Captures.lits huser) fun x y hxy hx _ => ?_, rfl, rfl⟩
  have hkeys := mem_lang_uwImapKey.mp hx
  simpa [uwImapKeys, cstr] using hkeys

theorem length_login : (cstr "Login").length = 5 := rfl
theorem length_user : (cstr " user=").length = 6 := rfl
theorem length_host : (cstr "host=").length = 5 := rfl

theorem exec_uwImapRexp (hP : ∀ k ∈ uwImapKeys, ¬ k <:+: P) (hU : 32 ∉ U) (hA : 32 ∉ A)
    (hA' : 91 ∉ A) (H : CStr) :
    ∃ r, uwImapRexp.exec (P ++ uwImapText U H A) = .ok r ∧
      (r 2).Spans (P ++ uwImapText U H A) U ∧ (r 3).Spans (P ++ uwImapText U H A) A := by
  obtain ⟨r, hr, hr₂, hr₃⟩ := captures_uwImapRexp (i := P.length)
    (g := record 0 P.length (uwImapText U H A) fun _ => .unmatched) hU hA hA' H
  have hbefore : NoneBefore uwImapRexp (P ++ uwImapText U H A ++ []) P.length := by
    rw [List.append_nil]
    refine noneBefore_keywords uwImapKeys (c := 76) (fun x hx => ?_) hP (by decide)
    obtain ⟨u, v, rfl, hu, -⟩ := mem_lang_cat.mp hx
    exact ⟨u, mem_lang_uwImapKey.mp hu, List.prefix_append u v⟩
  have hexec := exec_eq (v := []) (Captures.group hr) hbefore fun x y hxy _ =>
    (List.append_eq_nil_iff.mp hxy).1
  rw [List.append_nil] at hexec
  refine ⟨r, hexec, ⟨P ++ (cstr "Login" ++ cstr " user="),
      32 :: (cstr "host=" ++ H ++ [32]) ++ 91 :: (A ++ [93]), ?_, ?_, ?_⟩,
    ⟨P ++ (cstr "Login" ++ (cstr " user=" ++ (U ++ (32 :: (cstr "host=" ++ H ++ [32]) ++ [91])))),
      [93], ?_, ?_, ?_⟩⟩
  · rw [uwImapText]
    simp only [List.append_assoc]
  · rw [hr₂]
    simp [length_login, length_user]
  · rw [hr₂]
    simp [length_login, length_user]
  · rw [uwImapText]
    simp
  · rw [hr₃]
    simp [length_login, length_user, length_host]
    omega
  · rw [hr₃]
    simp [length_login, length_user, length_host]
    omega

/-! ### cyrus -/

def cyrusKey : Rexp := group 1 (lit (cstr "login"))

/-- The end of the expression, behind the user. -/
def cyrusRest : Rexp := cat (set (.single 32)) (many .any)

def cyrusUser : Rexp := cat (group 3 (many nonSpace)) cyrusRest

def cyrusAddress : Rexp := cat (group 2 (many addressBytes)) (lits [93, 32] cyrusUser)

def cyrusBracket : Rexp := cat (set (.single 91)) cyrusAddress

def cyrusHost : Rexp := cat (many .any) cyrusBracket

def cyrusRexp : Rexp := cat cyrusKey (lits [58] cyrusHost)

theorem parse_cyrusMatch : parse true cyrusMatch = some cyrusRexp := by decide

theorem mem_lang_cyrusBracket {w : Bytes} : w ∈ lang cyrusBracket ↔
    ∃ D N Z, w = 91 :: (D ++ 93 :: 32 :: (N ++ 32 :: Z)) ∧ (∀ c ∈ D, addressBytes.mem c) ∧
      ∀ c ∈ N, nonSpace.mem c := by
  constructor
  · intro h
    obtain ⟨u, rfl, hu⟩ := mem_lang_single_cat.mp h
    obtain ⟨D, v, rfl, hD, hv⟩ := mem_lang_cat.mp hu
    obtain ⟨y, rfl, hy⟩ := mem_lang_lits.mp hv
    obtain ⟨N, z, rfl, hN, hz⟩ := mem_lang_cat.mp hy
    obtain ⟨Z, rfl, -⟩ := mem_lang_single_cat.mp hz
    exact ⟨D, N, Z, rfl, hD, hN⟩
  · rintro ⟨D, N, Z, rfl, hD, hN⟩
    refine mem_lang_single_cat.mpr ⟨_, rfl, mem_lang_cat.mpr ⟨D, _, rfl, hD, ?_⟩⟩
    refine mem_lang_lits.mpr ⟨_, rfl, mem_lang_cat.mpr ⟨N, _, rfl, hN, ?_⟩⟩
    exact mem_lang_single_cat.mpr ⟨Z, rfl, fun c _ => ByteSet.mem_any c⟩

theorem captures_cyrusBracket (hD : ∀ c ∈ D, addressBytes.mem c) (hN : 32 ∉ N) (Z : CStr) :
    cyrusBracket.Captures i (91 :: (D ++ 93 :: 32 :: (N ++ 32 :: Z))) g
      (record 3 (i + 1 + D.length + 2) N (record 2 (i + 1) D g)) := by
  have hrest : ∀ j g, cyrusRest.Captures j (32 :: Z) g g := fun j g =>
    Captures.single (captures_many fun c _ => ByteSet.mem_any c)
  have huser : cyrusUser.Captures (i + 1 + D.length + 2) (N ++ 32 :: Z) (record 2 (i + 1) D g)
      (record 3 (i + 1 + D.length + 2) N (record 2 (i + 1) D g)) :=
    Captures.many_cat (p := nonSpace) rfl
      (Captures.group (captures_many (nonSpace_of_not_mem hN))) (by decide) (hrest _ _)
  refine Captures.single (Captures.many_cat (p := addressBytes) rfl
    (Captures.group (captures_many hD)) (by decide) ?_)
  exact Captures.lits (t := [93, 32]) huser

/-- What follows the prefix of a line of cyrus: some text, a bracketed word, a word, and
the rest. -/
def cyrusText (X D N Z : CStr) : CStr :=
  cstr "login" ++ (58 :: (X ++ 91 :: (D ++ 93 :: 32 :: (N ++ 32 :: Z))))

/-- The last bracket that can be the address is taken for it. -/
theorem captures_cyrusRexp (hD : ∀ c ∈ D, addressBytes.mem c) (hN : 32 ∉ N)
    (hlast : ∀ x y, x ++ y = 91 :: (D ++ 93 :: 32 :: (N ++ 32 :: Z)) → y ∈ lang cyrusBracket →
      x = []) (X : CStr) :
    ∃ g', cyrusRexp.Captures i (cyrusText X D N Z) g g' ∧
      g' 2 = ⟨(i + 6 + X.length + 1 : ℕ), (i + 6 + X.length + 1 : ℕ) + D.length⟩ ∧
      g' 3 = ⟨(i + 6 + X.length + 1 + D.length + 2 : ℕ),
        (i + 6 + X.length + 1 + D.length + 2 : ℕ) + N.length⟩ := by
  have hbracket := captures_cyrusBracket (i := i + 6 + X.length)
    (g := record 1 i (cstr "login") g) hD hN Z
  have hhost : cyrusHost.Captures (i + 6) (X ++ 91 :: (D ++ 93 :: 32 :: (N ++ 32 :: Z)))
      (record 1 i (cstr "login") g) _ :=
    Captures.cat (captures_many fun c _ => ByteSet.mem_any c) hbracket
      fun x y hxy _ hy => hlast x y hxy hy
  have hkey : cyrusKey.Captures i (cstr "login") g (record 1 i (cstr "login") g) :=
    Captures.group (captures_lit _ i _)
  refine ⟨_, Captures.cat hkey (Captures.lits (t := [58]) hhost) fun x y _ hx _ => ?_, rfl, rfl⟩
  exact List.append_right_eq_self.mp (mem_lang_lit.mp hx)

theorem exec_cyrusRexp (hP : ¬ cstr "login" <:+: P) (hD : ∀ c ∈ D, addressBytes.mem c)
    (hN : 32 ∉ N)
    (hlast : ∀ x y, x ++ y = 91 :: (D ++ 93 :: 32 :: (N ++ 32 :: Z)) → y ∈ lang cyrusBracket →
      x = []) (X : CStr) :
    ∃ r, cyrusRexp.exec (P ++ cyrusText X D N Z) = .ok r ∧
      (r 2).Spans (P ++ cyrusText X D N Z) D ∧ (r 3).Spans (P ++ cyrusText X D N Z) N := by
  obtain ⟨r, hr, hr₂, hr₃⟩ := captures_cyrusRexp (i := P.length)
    (g := record 0 P.length (cyrusText X D N Z) fun _ => .unmatched) hD hN hlast X
  have hbefore : NoneBefore cyrusRexp (P ++ cyrusText X D N Z ++ []) P.length := by
    rw [List.append_nil]
    refine noneBefore_keywords [cstr "login"] (c := 108) (fun x hx => ?_)
      (by simpa using hP) (by decide)
    obtain ⟨u, v, rfl, hu, -⟩ := mem_lang_cat.mp hx
    exact ⟨u, List.mem_singleton.mpr (mem_lang_lit.mp hu), List.prefix_append u v⟩
  have hexec := exec_eq (v := []) (Captures.group hr) hbefore fun x y hxy _ =>
    (List.append_eq_nil_iff.mp hxy).1
  rw [List.append_nil] at hexec
  have hlogin : (cstr "login").length = 5 := rfl
  refine ⟨r, hexec, ⟨P ++ (cstr "login" ++ 58 :: (X ++ [91])),
      93 :: 32 :: (N ++ 32 :: Z), ?_, ?_, ?_⟩,
    ⟨P ++ (cstr "login" ++ 58 :: (X ++ 91 :: (D ++ [93, 32]))), 32 :: Z, ?_, ?_, ?_⟩⟩
  · rw [cyrusText]
    simp
  · rw [hr₂]
    simp [hlogin]
    omega
  · rw [hr₂]
    simp [hlogin]
    omega
  · rw [cyrusText]
    simp
  · rw [hr₃]
    simp [hlogin]
    omega
  · rw [hr₃]
    simp [hlogin]
    omega

end ExactDaemon
