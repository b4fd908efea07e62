import ExactDaemon.Conf.Grammar
import ExactDaemon.Conf.Tokens

/-! # How a line is spelled

The lines of the server definitions as their expressions spell them, and what `scan_string`
makes of them. Its expressions are not anchored and are tried in a fixed order, so that a line
is taken for whatever the first of them finds anywhere in it, and the last finds the newline of
every line. A value keeps the blanks that follow it.
-/

namespace ExactDaemon

open Rexp

/-! ### The grammar -/

/-- A text of spaces and tabs. -/
def Blank (b : CStr) : Prop := ∀ c ∈ b, isblank c = true

/-- A text that does not begin with a blank. -/
def StartsPlain (x : CStr) : Prop := x ≠ [] ∧ ∀ c ∈ x.head?, isblank c = false

/-- A text that does not end with a blank. -/
def EndsPlain (x : CStr) : Prop := ∀ c ∈ x.getLast?, isblank c = false

/-- `<server name>` -/
def Header (name a : CStr) : Prop :=
  ∃ b₀ b₁ b₂, Blank b₀ ∧ Blank b₁ ∧ Blank b₂ ∧ b₂ ≠ [] ∧ name ≠ [] ∧ 62 ∉ name ∧
    a = b₀ ++ 60 :: (b₁ ++ (cstr "server" ++ (b₂ ++ (name ++ [62]))))

/-- A keyword and a value -/
def Keyed (key value a : CStr) : Prop :=
  ∃ b₀ b₁, Blank b₀ ∧ Blank b₁ ∧ b₁ ≠ [] ∧ value ≠ [] ∧ a = b₀ ++ (key ++ (b₁ ++ value))

/-- `</server>` -/
def CloseTag (a : CStr) : Prop :=
  ∃ b₀ b₁ b₂ b₃ b₄, Blank b₀ ∧ Blank b₁ ∧ Blank b₂ ∧ Blank b₃ ∧ Blank b₄ ∧
    a = b₀ ++ 60 :: (b₁ ++ 47 :: (b₂ ++ (cstr "server" ++ (b₃ ++ 62 :: b₄))))

def Comment (a : CStr) : Prop := ∃ b t, Blank b ∧ a = b ++ 35 :: t

/-- The tokens of a line, with the value that belongs to some of them. -/
inductive Spells (v : CStr) : Token → CStr → Prop where
  | blank : Blank v → Spells v .blank []
  | comment : Comment v → Spells v .comment []
  | close : CloseTag v → Spells v .close []
  | order {x b : CStr} : StartsPlain x → EndsPlain x → Blank b → Keyed (cstr "order") (x ++ b) v →
      Spells v .order x
  | pattern {x b : CStr} : StartsPlain x → EndsPlain x → Blank b → Keyed (cstr "match") (x ++ b) v →
      Spells v .pattern x
  | server {x b : CStr} : StartsPlain x → EndsPlain x → Blank b → Header (x ++ b) v →
      Spells v .server x

/-- The tokens that come with a value. -/
def Token.Valued (t : Token) : Prop := t = .order ∨ t = .pattern ∨ t = .server

/-- `scan_string` returns the token of the line and its value, and -1 if the line has none. -/
def ScansAsSpelled (lib : RegexLib) (v : CStr) : Prop :=
  ∃ r, scanString lib (v ++ [10]) tokenString = .ok r ∧
    (∀ t x, Spells v t x → r.1 = t ∧ (t.Valued → r.2 = x)) ∧
    ((¬ ∃ t x, Spells v t x) → r.1 = .unknown)

/-! ### What is found in a line -/

/-- The line ends so, whatever comes before. -/
def EndsAs (P : CStr → Prop) (v : CStr) : Prop := ∃ u a, v = u ++ a ∧ P a

def HasHeader (v : CStr) : Prop := EndsAs (fun a => ∃ name, Header name a) v

def HasKeyed (key v : CStr) : Prop := EndsAs (fun a => ∃ value, Keyed key value a) v

def HasClose (v : CStr) : Prop := EndsAs CloseTag v

/-- What a line has to look like to be scanned as it is spelled. -/
structure PlainlySpelled (v : CStr) : Prop where
  spelled : ∃ t x, Spells v t x
  comment : Comment v →
    ¬ HasHeader v ∧ ¬ HasKeyed (cstr "order") v ∧ ¬ HasKeyed (cstr "match") v ∧ ¬ HasClose v
  order : ∀ x, Spells v .order x → ¬ HasHeader v ∧ EndsPlain v
  pattern : ∀ x, Spells v .pattern x →
    ¬ HasHeader v ∧ ¬ HasKeyed (cstr "order") v ∧ EndsPlain v
  server : ∀ x, Spells v .server x → EndsPlain v.dropLast

/-! ### The expressions -/

/-- `[^>\n]` -/
def nameBytes : ByteSet := ⟨[(62, 62), (10, 10)], true⟩

/-- `[^\n]` -/
def lineBytes : ByteSet := ⟨[(10, 10)], true⟩

/-- The end of a server header, behind the blanks. -/
def nameRexp : Rexp := cat (group 1 (cat (set nameBytes) (many nameBytes))) (lit [62, 10])

def headerRexp : Rexp :=
  cat (many blanks) (cat (set (.single 60)) (cat (many blanks) (lits (cstr "server")
    (cat (set blanks) (cat (many blanks) nameRexp)))))

/-- The end of an order or match line, behind the blanks. -/
def valueRexp : Rexp :=
  cat (group 1 (cat (set lineBytes) (many lineBytes))) (cat (many blanks) (set (.single 10)))

def keyedRexp (key : CStr) : Rexp :=
  cat (many blanks) (lits key (cat (set blanks) (cat (many blanks) valueRexp)))

def closeRexp : Rexp :=
  cat (many blanks) (cat (set (.single 60)) (cat (many blanks) (cat (set (.single 47))
    (cat (many blanks) (lits (cstr "server") (cat (many blanks) (cat (set (.single 62))
      (cat (many blanks) (set (.single 10))))))))))

def commentRexp : Rexp :=
  cat (many blanks) (cat (set (.single 35)) (cat (many .any) (set (.single 10))))

def blankRexp : Rexp := cat (many blanks) (set (.single 10))

theorem parse_headerRexp :
    parse true (cstr "[ \t]*<[ \t]*server[ \t]+([^>\n]+)>\n") = some headerRexp := by decide

theorem parse_orderRexp : parse true (cstr "[ \t]*order[ \t]+([^\n]+)[ \t]*\n") =
    some (keyedRexp (cstr "order")) := by decide

theorem parse_matchRexp : parse true (cstr "[ \t]*match[ \t]+([^\n]+)[ \t]*\n") =
    some (keyedRexp (cstr "match")) := by decide

theorem parse_closeRexp :
    parse true (cstr "[ \t]*<[ \t]*/[ \t]*server[ \t]*>[ \t]*\n") = some closeRexp := by decide

theorem parse_commentRexp : parse true (cstr "[ \t]*#.*\n") = some commentRexp := by decide

theorem parse_blankRexp : parse true (cstr "[ \t]*\n") = some blankRexp := by decide

variable {lib : RegexLib} {v a b x y w u key value name : CStr} {r : Rexp} {i : ℕ}
  {g g' : ℕ → Regmatch}

theorem blank_iff : Blank b ↔ ∀ c ∈ b, blanks.mem c := by
  simp only [Blank, mem_blanks]

theorem mem_nameBytes {c : UInt8} : nameBytes.mem c ↔ c ≠ 62 ∧ c ≠ 10 := by
  rw [nameBytes, ByteSet.mem_negated, ByteSet.mem_pair, not_or]

theorem mem_lineBytes {c : UInt8} : lineBytes.mem c ↔ c ≠ 10 :=
  ByteSet.mem_negated.trans (not_congr ByteSet.mem_single)

theorem mem_lang_blanks_cat : w ∈ lang (cat (many blanks) r) ↔
    ∃ b v, w = b ++ v ∧ Blank b ∧ v ∈ lang r := by
  simp only [mem_lang_many_cat, blank_iff]

theorem mem_lang_somes_cat : w ∈ lang (cat (set blanks) (cat (many blanks) r)) ↔
    ∃ b v, w = b ++ v ∧ b ≠ [] ∧ Blank b ∧ v ∈ lang r := by
  simp only [mem_lang_plus_cat, blank_iff]

theorem append_newline_inj (h : x ++ [10] = y ++ [10]) : x = y := List.append_cancel_right h

theorem mem_lang_headerRexp (ha : 10 ∉ a) :
    a ++ [10] ∈ lang headerRexp ↔ ∃ name, Header name a := by
  simp only [headerRexp, nameRexp, mem_lang_blanks_cat, mem_lang_single_cat, mem_lang_lits,
    mem_lang_somes_cat]
  constructor
  · rintro ⟨b₀, _, h, h₀, _, rfl, b₁, _, rfl, h₁, _, rfl, b₂, _, rfl, hne, h₂, hname⟩
    obtain ⟨name, e, rfl, hn, he⟩ := mem_lang_cat.mp hname
    obtain ⟨hn₀, hn⟩ := mem_lang_plus.mp hn
    rw [mem_lang_lit.mp he] at h
    refine ⟨name, b₀, b₁, b₂, h₀, h₁, h₂, hne, hn₀, fun h62 => (mem_nameBytes.mp (hn 62 h62)).1 rfl,
      append_newline_inj ?_⟩
    simpa using h
  · rintro ⟨name, b₀, b₁, b₂, h₀, h₁, h₂, hne, hn₀, hn, rfl⟩
    refine ⟨b₀, _, List.append_assoc _ _ _, h₀, _, rfl, b₁, _, List.append_assoc _ _ _, h₁, _,
      List.append_assoc _ _ _, b₂, _, List.append_assoc _ _ _, hne, h₂, ?_⟩
    refine mem_lang_cat.mpr ⟨name, [62, 10], by simp, mem_lang_plus.mpr ⟨hn₀, fun c hc => ?_⟩,
      mem_lang_lit.mpr rfl⟩
    refine mem_nameBytes.mpr ⟨fun h => hn (h ▸ hc), fun h => ha (h ▸ ?_)⟩
    simp [hc]

theorem mem_lang_keyedRexp (ha : 10 ∉ a) :
    a ++ [10] ∈ lang (keyedRexp key) ↔ ∃ value, Keyed key value a := by
  simp only [keyedRexp, valueRexp, mem_lang_blanks_cat, mem_lang_lits, mem_lang_somes_cat]
  constructor
  · rintro ⟨b₀, _, h, h₀, _, rfl, b₁, _, rfl, hne, h₁, hvalue⟩
    obtain ⟨x, e, rfl, hx, he⟩ := mem_lang_cat.mp hvalue
    obtain ⟨b, e, rfl, -, he⟩ := mem_lang_blanks_cat.mp he
    obtain ⟨hx₀, -⟩ := mem_lang_plus.mp hx
    rw [mem_lang_single.mp he] at h
    refine ⟨x ++ b, b₀, b₁, h₀, h₁, hne, by simp [hx₀],
      append_newline_inj ?_⟩
    simpa using h
  · rintro ⟨value, b₀, b₁, h₀, h₁, hne, hv₀, rfl⟩
    refine ⟨b₀, _, List.append_assoc _ _ _, h₀, _, List.append_assoc _ _ _, b₁, _,
      List.append_assoc _ _ _, hne, h₁, ?_⟩
    refine mem_lang_cat.mpr ⟨value, [10], rfl, mem_lang_plus.mpr ⟨hv₀, fun c hc => ?_⟩, ?_⟩
    · refine mem_lineBytes.mpr fun h => ha (h ▸ ?_)
      simp [hc]
    · exact mem_lang_blanks_cat.mpr ⟨[], [10], rfl, List.forall_mem_nil _, mem_lang_single.mpr rfl⟩

theorem mem_lang_closeRexp : a ++ [10] ∈ lang closeRexp ↔ CloseTag a := by
  simp only [closeRexp, mem_lang_blanks_cat, mem_lang_single_cat, mem_lang_lits]
  constructor
  · rintro ⟨b₀, _, h, h₀, _, rfl, b₁, _, rfl, h₁, _, rfl, b₂, _, rfl, h₂, _, rfl, b₃, _, rfl, h₃,
      _, rfl, b₄, _, rfl, h₄, he⟩
    rw [mem_lang_single.mp he] at h
    refine ⟨b₀, b₁, b₂, b₃, b₄, h₀, h₁, h₂, h₃, h₄, append_newline_inj ?_⟩
    simpa using h
  · rintro ⟨b₀, b₁, b₂, b₃, b₄, h₀, h₁, h₂, h₃, h₄, rfl⟩
    exact ⟨b₀, _, List.append_assoc _ _ _, h₀, _, rfl, b₁, _, List.append_assoc _ _ _, h₁, _, rfl,
      b₂, _, List.append_assoc _ _ _, h₂, _, List.append_assoc _ _ _, b₃, _,
      List.append_assoc _ _ _, h₃, _, rfl, b₄, _, rfl, h₄, mem_lang_single.mpr rfl⟩

theorem mem_lang_commentRexp : a ++ [10] ∈ lang commentRexp ↔ Comment a := by
  simp only [commentRexp, mem_lang_single_cat, mem_lang_many_cat]
  constructor
  · rintro ⟨b, _, h, hb, _, rfl, t, _, rfl, -, he⟩
    rw [mem_lang_single.mp he] at h
    refine ⟨b, t, blank_iff.mpr hb, append_newline_inj ?_⟩
    simpa using h
  · rintro ⟨b, t, hb, rfl⟩
    exact ⟨b, _, List.append_assoc _ _ _, blank_iff.mp hb, _, rfl, t, [10], rfl,
      fun c _ => ByteSet.mem_any c, mem_lang_single.mpr rfl⟩

theorem mem_lang_blankRexp : a ++ [10] ∈ lang blankRexp ↔ Blank a := by
  simp only [blankRexp, mem_lang_blanks_cat]
  constructor
  · rintro ⟨b, _, h, hb, he⟩
    rw [mem_lang_single.mp he] at h
    exact List.append_cancel_right h ▸ hb
  · exact fun hb => ⟨a, [10], rfl, hb, mem_lang_single.mpr rfl⟩

/-- The strings that are matched end with a newline. -/
def Newlined (r : Rexp) : Prop := ∀ x ∈ lang r, ∃ a, x = a ++ [10]

/-- An expression that ends with the newline is found in a line if and only if the line ends
with what it matches. -/
theorem exec_line (hr : Newlined r) (hv : 10 ∉ v) :
    r.exec (v ++ [10]) = .nomatch ↔ ¬ EndsAs (fun a => a ++ [10] ∈ lang r) v := by
  rw [exec_nomatch_iff]
  constructor
  · rintro h ⟨u, a, rfl, ha⟩
    exact h u (a ++ [10]) [] (by simp) ha
  · intro h u x t heq hx
    obtain ⟨a, rfl⟩ := hr x hx
    refine h ⟨u, a, ?_, hx⟩
    have heq' : v ++ 10 :: [] = (u ++ a) ++ 10 :: t := by simpa using heq
    exact ((List.append_cons_inj_of_notMem hv List.not_mem_nil).mp heq').1

theorem EndsAs.congr {P Q : CStr → Prop} (h : ∀ u a, v = u ++ a → (P a ↔ Q a)) :
    EndsAs P v ↔ EndsAs Q v :=
  ⟨fun ⟨u, a, hv, ha⟩ => ⟨u, a, hv, (h u a hv).mp ha⟩,
    fun ⟨u, a, hv, ha⟩ => ⟨u, a, hv, (h u a hv).mpr ha⟩⟩

theorem Newlined.cat {s : Rexp} (h : Newlined s) : Newlined (cat r s) := by
  intro x hx
  obtain ⟨u, v, rfl, -, hv⟩ := mem_lang_cat.mp hx
  obtain ⟨a, rfl⟩ := h v hv
  exact ⟨u ++ a, (List.append_assoc u a [10]).symm⟩

theorem Newlined.lits (h : Newlined r) (t : CStr) : Newlined (lits t r) := by
  intro x hx
  obtain ⟨v, rfl, hv⟩ := mem_lang_lits.mp hx
  obtain ⟨a, rfl⟩ := h v hv
  exact ⟨t ++ a, (List.append_assoc t a [10]).symm⟩

theorem newlined_lit (t : CStr) : Newlined (lit (t ++ [10])) := fun _ hx =>
  ⟨t, mem_lang_lit.mp hx⟩

theorem not_mem_of_append (hv : 10 ∉ v) (h : v = u ++ a) : 10 ∉ a := fun ha =>
  hv (h ▸ List.mem_append_right u ha)

theorem exec_headerRexp (hv : 10 ∉ v) :
    headerRexp.exec (v ++ [10]) = .nomatch ↔ ¬ HasHeader v := by
  have hr : Newlined headerRexp :=
    .cat (.cat (.cat (.lits (.cat (.cat (.cat (newlined_lit [62])))) _)))
  rw [exec_line hr hv, HasHeader,
    EndsAs.congr fun u a h => mem_lang_headerRexp (not_mem_of_append hv h)]

theorem exec_keyedRexp (hv : 10 ∉ v) :
    (keyedRexp key).exec (v ++ [10]) = .nomatch ↔ ¬ HasKeyed key v := by
  have hr : Newlined (keyedRexp key) := .cat (.lits (.cat (.cat (.cat (.cat (newlined_lit []))))) _)
  rw [exec_line hr hv, HasKeyed,
    EndsAs.congr fun u a h => mem_lang_keyedRexp (not_mem_of_append hv h)]

theorem exec_closeRexp (hv : 10 ∉ v) :
    closeRexp.exec (v ++ [10]) = .nomatch ↔ ¬ HasClose v := by
  have hr : Newlined closeRexp :=
    .cat (.cat (.cat (.cat (.cat (.lits (.cat (.cat (.cat (newlined_lit [])))) _)))))
  rw [exec_line hr hv, HasClose, EndsAs.congr fun _ _ _ => mem_lang_closeRexp]

theorem exec_commentRexp (hv : 10 ∉ v) :
    commentRexp.exec (v ++ [10]) = .nomatch ↔ 35 ∉ v := by
  have hr : Newlined commentRexp := .cat (.cat (.cat (newlined_lit [])))
  rw [exec_line hr hv, EndsAs.congr fun _ _ _ => mem_lang_commentRexp, not_iff_not]
  constructor
  · rintro ⟨u, a, rfl, b, t, -, rfl⟩
    simp
  · intro h
    obtain ⟨u, t, rfl⟩ := List.append_of_mem h
    exact ⟨u, 35 :: t, rfl, [], t, List.forall_mem_nil _, rfl⟩

/-- The newline is found in every line. -/
theorem exec_blankRexp (hv : 10 ∉ v) : blankRexp.exec (v ++ [10]) ≠ .nomatch := by
  have hr : Newlined blankRexp := .cat (newlined_lit [])
  rw [Ne, exec_line hr hv, not_not]
  exact ⟨v, [], (List.append_nil v).symm, mem_lang_blankRexp.mpr (List.forall_mem_nil _)⟩

/-! ### Values -/

theorem StartsPlain.blanks (h : StartsPlain x) (t : CStr) :
    ∀ c ∈ (x ++ t).head?, blanks.mem c = false := by
  obtain ⟨c, x, rfl⟩ := List.exists_cons_of_ne_nil h.1
  intro d hd
  rw [mem_blanks]
  exact h.2 d hd

theorem captures_nameRexp (hne : name ≠ []) (hname : 62 ∉ name) (hnl : 10 ∉ name) :
    nameRexp.Captures i (name ++ [62, 10]) g (record 1 i name g) := by
  have hmem : ∀ c ∈ name, nameBytes.mem c := fun c hc =>
    mem_nameBytes.mpr ⟨fun h => hname (h ▸ hc), fun h => hnl (h ▸ hc)⟩
  refine Captures.cat (Captures.group (captures_plus hne hmem)) (captures_lit [62, 10] _ _)
    fun x y hxy _ hy => ?_
  rw [mem_lang_lit.mp hy] at hxy
  exact List.append_cancel_right (hxy.trans (List.nil_append [62, 10]).symm)

/-- A value goes on to the end of the line. -/
theorem captures_valueRexp (hne : value ≠ []) (hnl : 10 ∉ value) :
    valueRexp.Captures i (value ++ [10]) g (record 1 i value g) := by
  have hmem : ∀ c ∈ value, lineBytes.mem c := fun c hc =>
    mem_lineBytes.mpr fun h => hnl (h ▸ hc)
  have hend : (cat (many blanks) (set (.single 10))).Captures (i + value.length) [10]
      (record 1 i value g) (record 1 i value g) :=
    Captures.many_cat (u := []) (p := blanks) rfl (captures_many (List.forall_mem_nil _))
      (by decide) (captures_single 10)
  refine Captures.cat (Captures.group (captures_plus hne hmem)) hend fun x y hxy hx _ => ?_
  cases x with
  | nil => rfl
  | cons c x =>
    -- the value would go on over the newline
    obtain ⟨rfl, -⟩ := List.cons.inj hxy
    have h10 := (mem_lang_plus.mp hx).2 10 (by simp)
    exact absurd rfl (mem_lineBytes.mp h10)

/-- The name of a header that is the whole line. -/
theorem exec_header (h : Header name v) (hname : StartsPlain name) (hv : 10 ∉ v) :
    ∃ g, headerRexp.exec (v ++ [10]) = .ok g ∧ (g 1).Spans (v ++ [10]) name := by
  obtain ⟨b₀, b₁, b₂, h₀, h₁, h₂, hne, hne', h62, rfl⟩ := h
  have hnl : 10 ∉ name := fun h => hv (by simp [h])
  have hline : b₀ ++ 60 :: (b₁ ++ (cstr "server" ++ (b₂ ++ (name ++ [62])))) ++ [10] =
      b₀ ++ 60 :: (b₁ ++ (cstr "server" ++ (b₂ ++ (name ++ [62, 10])))) := by simp
  rw [hline]
  have hserver := Captures.plus_cat (i := 0 + b₀.length + 1 + b₁.length + (cstr "server").length)
    (g := record 0 0 (b₀ ++ 60 :: (b₁ ++ (cstr "server" ++ (b₂ ++ (name ++ [62, 10])))))
      fun _ => .unmatched)
    hne (blank_iff.mp h₂) (hname.blanks [62, 10]) (captures_nameRexp hne' h62 hnl)
  have htag := Captures.single (c := 60) (Captures.many_cat_head (p := blanks) rfl
    (captures_many (blank_iff.mp h₁)) (by simp [cstr]; decide) (Captures.lits hserver))
  have hwhole := Captures.many_cat_head (p := blanks) rfl (captures_many (blank_iff.mp h₀))
    (by simp; decide) htag
  refine ⟨_, exec_whole (Captures.group hwhole),
    ⟨b₀ ++ 60 :: (b₁ ++ (cstr "server" ++ b₂)), [62, 10], by simp, ?_, ?_⟩⟩
  all_goals simp [record]; omega

/-- The value of a line that is a keyword and a value as a whole. -/
theorem exec_keyed (h : Keyed key value v) (hvalue : StartsPlain value) (hkey : StartsPlain key)
    (hv : 10 ∉ v) : ∃ g, (keyedRexp key).exec (v ++ [10]) = .ok g ∧
      (g 1).Spans (v ++ [10]) value := by
  obtain ⟨b₀, b₁, h₀, h₁, hne, hne', rfl⟩ := h
  have hnl : 10 ∉ value := fun h => hv (by simp [h])
  have hline : b₀ ++ (key ++ (b₁ ++ value)) ++ [10] = b₀ ++ (key ++ (b₁ ++ (value ++ [10]))) := by
    simp
  rw [hline]
  have hrest := Captures.plus_cat (i := 0 + b₀.length + key.length)
    (g := record 0 0 (b₀ ++ (key ++ (b₁ ++ (value ++ [10])))) fun _ => .unmatched)
    hne (blank_iff.mp h₁) (hvalue.blanks [10]) (captures_valueRexp hne' hnl)
  have hwhole := Captures.many_cat_head (p := blanks) rfl (captures_many (blank_iff.mp h₀))
    (hkey.blanks _) (Captures.lits hrest)
  refine ⟨_, exec_whole (Captures.group hwhole), ⟨b₀ ++ (key ++ b₁), [10], by simp, ?_, ?_⟩⟩
  all_goals simp [record]; omega

/-! ### The scanner -/

/-- Which expression is the first that finds something in the line. -/
def Scanned (v : CStr) : Token → Prop
  | .server => HasHeader v
  | .order => ¬ HasHeader v ∧ HasKeyed (cstr "order") v
  | .pattern => ¬ HasHeader v ∧ ¬ HasKeyed (cstr "order") v ∧ HasKeyed (cstr "match") v
  | .close => ¬ HasHeader v ∧ ¬ HasKeyed (cstr "order") v ∧ ¬ HasKeyed (cstr "match") v ∧
      HasClose v
  | .comment => ¬ HasHeader v ∧ ¬ HasKeyed (cstr "order") v ∧ ¬ HasKeyed (cstr "match") v ∧
      ¬ HasClose v ∧ 35 ∈ v
  | .blank => ¬ HasHeader v ∧ ¬ HasKeyed (cstr "order") v ∧ ¬ HasKeyed (cstr "match") v ∧
      ¬ HasClose v ∧ 35 ∉ v
  | .eof | .unknown => False

/-- What `scan_string` returns for a line, and leaves in `scanner_text` if the whole line is
what was found. -/
structure ScanResult (v : CStr) (r : Token × CStr) : Prop where
  token : Scanned v r.1
  name : r.1 = .server → ∀ x, Header x v → StartsPlain x → r.2 = x
  order : r.1 = .order → ∀ x, Keyed (cstr "order") x v → StartsPlain x → r.2 = x
  pattern : r.1 = .pattern → ∀ x, Keyed (cstr "match") x v → StartsPlain x → r.2 = x

variable {t : Token} {ts : List (Token × CStr)} {rx : CStr}

theorem scannerText_spans {m : Regmatch} (h : m.Spans w x) (hw : w.length < 1024) :
    scannerText w m = .ok x := by
  have hspan := h.span
  obtain ⟨a, c, rfl, hso, heo⟩ := h.split
  rw [List.length_append, List.length_append] at hw
  rw [scannerText, if_pos (by omega), hspan]

theorem scanString_skip (hlib : lib.Conforms) (hp : parse true rx = some r) (h0 : 0 ∉ w)
    (h : r.exec w = .nomatch) : scanString lib w ((t, rx) :: ts) = scanString lib w ts := by
  rw [scanString, hlib.regcomp _ _ _ hp]
  dsimp only
  rw [hlib.regexec _ _ _ hp w h0, h]

/-- The token of the first expression that finds something, and the text of its group. -/
theorem scanString_found (hlib : lib.Conforms) (hp : parse true rx = some r) (h0 : 0 ∉ w)
    (hw : w.length < 1024) (h : r.exec w ≠ .nomatch) :
    ∃ text, scanString lib w ((t, rx) :: ts) = .ok (t, text) ∧
      ∀ x, (∃ g, r.exec w = .ok g ∧ (g 1).Spans w x) → text = x := by
  obtain ⟨g, hg⟩ := (exec_ok_or r w).resolve_left h
  obtain ⟨text, htext⟩ := scannerText_ok hw (exec_inside hg 1)
  refine ⟨text, ?_, ?_⟩
  · rw [scanString, hlib.regcomp _ _ _ hp]
    dsimp only
    rw [hlib.regexec _ _ _ hp w h0, hg]
    dsimp only
    rw [htext]
    rfl
  · rintro x ⟨g', hg', hx⟩
    obtain rfl := RegResult.ok.inj (hg.symm.trans hg')
    exact Except.ok.inj (htext.symm.trans (scannerText_spans hx hw))

theorem starts_order : StartsPlain (cstr "order") := by
  unfold StartsPlain
  decide +kernel

theorem starts_match : StartsPlain (cstr "match") := by
  unfold StartsPlain
  decide +kernel

theorem scanString_line (hlib : lib.Conforms) (h0 : 0 ∉ v) (hv : 10 ∉ v) (hlen : v.length ≤ 1022) :
    ∃ r, scanString lib (v ++ [10]) tokenString = .ok r ∧ ScanResult v r := by
  have hs0 : 0 ∉ v ++ [10] := by simp [h0]
  have hs : (v ++ [10]).length < 1024 := by
    rw [List.length_append, List.length_singleton]
    omega
  unfold tokenString
  by_cases hheader : HasHeader v
  · obtain ⟨text, hscan, htext⟩ := scanString_found (t := .server)
      hlib parse_headerRexp hs0 hs fun h => (exec_headerRexp hv).mp h hheader
    exact ⟨_, hscan, hheader, fun _ x hx hstart => htext x (exec_header hx hstart hv),
      fun h => (by cases h), fun h => (by cases h)⟩
  rw [scanString_skip hlib parse_headerRexp hs0 ((exec_headerRexp hv).mpr hheader)]
  by_cases horder : HasKeyed (cstr "order") v
  · obtain ⟨text, hscan, htext⟩ := scanString_found (t := .order)
      hlib parse_orderRexp hs0 hs fun h =>
        (exec_keyedRexp hv).mp h horder
    exact ⟨_, hscan, ⟨hheader, horder⟩, fun h => (by cases h),
      fun _ x hx hstart => htext x (exec_keyed hx hstart starts_order hv), fun h => (by cases h)⟩
  rw [scanString_skip hlib parse_orderRexp hs0
    ((exec_keyedRexp hv).mpr horder)]
  by_cases hmatch : HasKeyed (cstr "match") v
  · obtain ⟨text, hscan, htext⟩ := scanString_found (t := .pattern)
      hlib parse_matchRexp hs0 hs fun h =>
        (exec_keyedRexp hv).mp h hmatch
    exact ⟨_, hscan, ⟨hheader, horder, hmatch⟩, fun h => (by cases h), fun h => (by cases h),
      fun _ x hx hstart => htext x (exec_keyed hx hstart starts_match hv)⟩
  rw [scanString_skip hlib parse_matchRexp hs0
    ((exec_keyedRexp hv).mpr hmatch)]
  by_cases hclose : HasClose v
  · obtain ⟨text, hscan, -⟩ := scanString_found (t := .close)
      hlib parse_closeRexp hs0 hs fun h => (exec_closeRexp hv).mp h hclose
    exact ⟨_, hscan, ⟨hheader, horder, hmatch, hclose⟩, fun h => (by cases h),
      fun h => (by cases h), fun h => (by cases h)⟩
  rw [scanString_skip hlib parse_closeRexp hs0 ((exec_closeRexp hv).mpr hclose)]
  by_cases hcomment : 35 ∈ v
  · obtain ⟨text, hscan, -⟩ := scanString_found (t := .comment)
      hlib parse_commentRexp hs0 hs fun h => (exec_commentRexp hv).mp h hcomment
    exact ⟨_, hscan, ⟨hheader, horder, hmatch, hclose, hcomment⟩, fun h => (by cases h),
      fun h => (by cases h), fun h => (by cases h)⟩
  rw [scanString_skip hlib parse_commentRexp hs0
    ((exec_commentRexp hv).mpr hcomment)]
  obtain ⟨text, hscan, -⟩ := scanString_found (t := .blank)
    hlib parse_blankRexp hs0 hs (exec_blankRexp hv)
  exact ⟨_, hscan, ⟨hheader, horder, hmatch, hclose, hcomment⟩, fun h => (by cases h),
    fun h => (by cases h), fun h => (by cases h)⟩

theorem Scanned.unique {t' : Token} (h : Scanned v t) (h' : Scanned v t') : t = t' := by
  cases t <;> cases t' <;> simp only [Scanned] at h h' ⊢ <;> tauto

/-! ### Whole lines -/

theorem HasHeader.mem (h : HasHeader v) : 60 ∈ v := by
  obtain ⟨u, a, rfl, name, b₀, b₁, b₂, -, -, -, -, -, -, rfl⟩ := h
  simp

theorem HasClose.mem (h : HasClose v) : 60 ∈ v := by
  obtain ⟨u, a, rfl, b₀, b₁, b₂, b₃, b₄, -, -, -, -, -, rfl⟩ := h
  simp

theorem HasKeyed.mem (h : HasKeyed key v) : ∀ c ∈ key, c ∈ v := by
  obtain ⟨u, a, rfl, value, b₀, b₁, -, -, -, -, rfl⟩ := h
  intro c hc
  simp [hc]

theorem scanned_blank (h : Blank v) : Scanned v .blank := by
  have hnot : ∀ c, isblank c = false → c ∉ v := fun c hc hv => by
    rw [h c hv] at hc
    cases hc
  exact ⟨fun hh => hnot 60 (by decide) hh.mem,
    fun hk => hnot 111 (by decide) (hk.mem _ (by decide)),
    fun hk => hnot 109 (by decide) (hk.mem _ (by decide)), fun hc => hnot 60 (by decide) hc.mem,
    hnot 35 (by decide)⟩

theorem CloseTag.mem (h : CloseTag v) : ∀ c ∈ v, isblank c = true ∨ c ∈ cstr "</server>" := by
  obtain ⟨b₀, b₁, b₂, b₃, b₄, h₀, h₁, h₂, h₃, h₄, rfl⟩ := h
  have hserver : ∀ c ∈ cstr "server", c ∈ cstr "</server>" := by decide +kernel
  intro c hc
  simp only [List.mem_append, List.mem_cons] at hc
  rcases hc with hc | rfl | hc | rfl | hc | hc | hc | rfl | hc
  · exact .inl (h₀ c hc)
  · exact .inr (by decide)
  · exact .inl (h₁ c hc)
  · exact .inr (by decide)
  · exact .inl (h₂ c hc)
  · exact .inr (hserver c hc)
  · exact .inl (h₃ c hc)
  · exact .inr (by decide)
  · exact .inl (h₄ c hc)

/-- A close tag is no server header, since its only bracket is followed by a slash. -/
theorem CloseTag.not_hasHeader (h : CloseTag v) : ¬ HasHeader v := by
  obtain ⟨b₀, b₁, b₂, b₃, b₄, h₀, h₁, h₂, h₃, h₄, rfl⟩ := h
  rintro ⟨u, a, heq, name, c₀, c₁, c₂, -, k₁, -, -, -, -, rfl⟩
  have hnot : ∀ b, Blank b → 60 ∉ b := fun b hb h60 => absurd (hb 60 h60) (by decide)
  have hrest : 60 ∉ b₁ ++ 47 :: (b₂ ++ (cstr "server" ++ (b₃ ++ 62 :: b₄))) := by
    simp [hnot, h₁, h₂, h₃, h₄, cstr]
  rw [← List.append_assoc u, List.append_cons_inj_of_notMem (hnot _ h₀) hrest] at heq
  have hdrop := congrArg (List.dropWhile isblank) heq.2.2
  rw [List.dropWhile_append_of_pos h₁, List.dropWhile_append_of_pos k₁] at hdrop
  have hhead : some (47 : UInt8) = some 115 := congrArg List.head? hdrop
  exact absurd hhead (by decide)

theorem scanned_close (h : CloseTag v) : Scanned v .close := by
  have hnot : ∀ c, isblank c = false → c ∉ cstr "</server>" → c ∉ v := fun c hb hc hv => by
    rcases h.mem c hv with hblank | hmem
    · rw [hb] at hblank
      cases hblank
    · exact hc hmem
  exact ⟨h.not_hasHeader, fun hk => hnot 111 (by decide) (by decide) (hk.mem _ (by decide)),
    fun hk => hnot 109 (by decide) (by decide) (hk.mem _ (by decide)), [], v, rfl, h⟩

/-- A text ends without a blank only if none follows its value. -/
theorem ends_append_iff (hx : EndsPlain x) (hne : x ≠ []) (hb : Blank b) (p : CStr) :
    EndsPlain (p ++ (x ++ b)) ↔ b = [] := by
  constructor
  · intro h
    by_contra hne
    have hlast : (p ++ (x ++ b)).getLast? = some (b.getLast hne) := by
      rw [← List.append_assoc, List.getLast?_append_of_ne_nil _ hne,
        List.getLast?_eq_some_getLast hne]
    have hblank := h _ hlast
    rw [hb _ (List.getLast_mem hne)] at hblank
    cases hblank
  · rintro rfl
    unfold EndsPlain
    rw [List.append_nil, List.getLast?_append_of_ne_nil _ hne]
    exact hx

theorem StartsPlain.append (h : StartsPlain x) (b : CStr) : StartsPlain (x ++ b) := by
  obtain ⟨c, x, rfl⟩ := List.exists_cons_of_ne_nil h.1
  exact ⟨List.cons_ne_nil c _, h.2⟩

theorem Keyed.ends_iff (h : Keyed key (x ++ b) v) (hs : StartsPlain x) (he : EndsPlain x)
    (hb : Blank b) : EndsPlain v ↔ b = [] := by
  obtain ⟨b₀, b₁, -, -, -, -, rfl⟩ := h
  rw [← ends_append_iff he hs.1 hb (b₀ ++ (key ++ b₁))]
  simp only [List.append_assoc]

theorem Header.ends_iff (h : Header (x ++ b) v) (hs : StartsPlain x) (he : EndsPlain x)
    (hb : Blank b) : EndsPlain v.dropLast ↔ b = [] := by
  obtain ⟨b₀, b₁, b₂, -, -, -, -, -, -, rfl⟩ := h
  have hline : b₀ ++ 60 :: (b₁ ++ (cstr "server" ++ (b₂ ++ (x ++ b ++ [62])))) =
      b₀ ++ 60 :: (b₁ ++ (cstr "server" ++ b₂)) ++ (x ++ b) ++ [62] := by simp
  rw [hline, List.dropLast_concat, ends_append_iff he hs.1 hb]

theorem scansAsSpelled_of_plainly (hlib : lib.Conforms) (h0 : 0 ∉ v) (hv : 10 ∉ v)
    (hlen : v.length ≤ 1022) (h : PlainlySpelled v) : ScansAsSpelled lib v := by
  obtain ⟨r, hr, hres⟩ := scanString_line hlib h0 hv hlen
  refine ⟨r, hr, fun t x hx => ?_, fun hnone => absurd h.spelled hnone⟩
  cases hx with
  | blank hb =>
    exact ⟨hres.token.unique (scanned_blank hb), fun hval => by simp [Token.Valued] at hval⟩
  | comment hc =>
    obtain ⟨h₁, h₂, h₃, h₄⟩ := h.comment hc
    have h35 : 35 ∈ v := by
      obtain ⟨b, t, -, rfl⟩ := hc
      simp
    have hscanned : Scanned v .comment := ⟨h₁, h₂, h₃, h₄, h35⟩
    exact ⟨hres.token.unique hscanned, fun hval => by simp [Token.Valued] at hval⟩
  | close hc =>
    exact ⟨hres.token.unique (scanned_close hc), fun hval => by simp [Token.Valued] at hval⟩
  | order hs he hb hk =>
    obtain ⟨hheader, hend⟩ := h.order _ (.order hs he hb hk)
    have ht : r.1 = .order := hres.token.unique ⟨hheader, [], v, rfl, _, hk⟩
    refine ⟨ht, fun _ => ?_⟩
    rw [hres.order ht _ hk (hs.append _), (hk.ends_iff hs he hb).mp hend, List.append_nil]
  | pattern hs he hb hk =>
    obtain ⟨hheader, horder, hend⟩ := h.pattern _ (.pattern hs he hb hk)
    have ht : r.1 = .pattern := hres.token.unique ⟨hheader, horder, [], v, rfl, _, hk⟩
    refine ⟨ht, fun _ => ?_⟩
    rw [hres.pattern ht _ hk (hs.append _), (hk.ends_iff hs he hb).mp hend, List.append_nil]
  | server hs he hb hn =>
    have ht : r.1 = .server := hres.token.unique ⟨[], v, rfl, _, hn⟩
    refine ⟨ht, fun _ => ?_⟩
    rw [hres.name ht _ hn (hs.append _),
      (hn.ends_iff hs he hb).mp (h.server _ (.server hs he hb hn)), List.append_nil]

/-- A line is scanned as it is spelled if and only if it has a token; a comment does not end
with what looks like another line, and an order or match line not with what is looked for
before it; and no blanks follow the value. -/
theorem scansAsSpelled_iff (hlib : lib.Conforms) (h0 : 0 ∉ v) (hv : 10 ∉ v)
    (hlen : v.length ≤ 1022) : ScansAsSpelled lib v ↔ PlainlySpelled v := by
  refine ⟨?_, scansAsSpelled_of_plainly hlib h0 hv hlen⟩
  obtain ⟨r, hr, hres⟩ := scanString_line hlib h0 hv hlen
  rintro ⟨r', hr', hspell, hunknown⟩
  obtain rfl := Except.ok.inj (hr.symm.trans hr')
  have htoken : ∀ {t x}, Spells v t x → Scanned v t := fun h => (hspell _ _ h).1 ▸ hres.token
  constructor
  · by_contra hnone
    have hscanned := hres.token
    rw [hunknown hnone] at hscanned
    exact hscanned
  · intro hc
    obtain ⟨h₁, h₂, h₃, h₄, -⟩ := htoken (.comment hc)
    exact ⟨h₁, h₂, h₃, h₄⟩
  · intro x hx
    refine ⟨(htoken hx).1, ?_⟩
    obtain ⟨ht, htext⟩ := hspell _ _ hx
    cases hx with
    | order hs he hb hk =>
      have hval := (hres.order ht _ hk (hs.append _)).symm.trans (htext (.inl rfl))
      exact (hk.ends_iff hs he hb).mpr (List.append_right_eq_self.mp hval)
  · intro x hx
    refine ⟨(htoken hx).1, (htoken hx).2.1, ?_⟩
    obtain ⟨ht, htext⟩ := hspell _ _ hx
    cases hx with
    | pattern hs he hb hk =>
      have hval := (hres.pattern ht _ hk (hs.append _)).symm.trans (htext (.inr (.inl rfl)))
      exact (hk.ends_iff hs he hb).mpr (List.append_right_eq_self.mp hval)
  · intro x hx
    obtain ⟨ht, htext⟩ := hspell _ _ hx
    cases hx with
    | server hs he hb hn =>
      have hval := (hres.name ht _ hn (hs.append _)).symm.trans (htext (.inr (.inr rfl)))
      exact (hn.ends_iff hs he hb).mpr (List.append_right_eq_self.mp hval)

/-- The order line of a shipped stanza. -/
def orderLine : CStr := cstr "\torder username,address"

theorem plainlySpelled_orderLine : PlainlySpelled orderLine := by
  have hheader : ¬ HasHeader orderLine := fun h => absurd h.mem (by decide +kernel)
  have hmatch : ¬ HasKeyed (cstr "match") orderLine := fun h =>
    absurd (h.mem 116 (by decide +kernel)) (by decide +kernel)
  have hcomment : ¬ Comment orderLine := by
    rintro ⟨b, t, -, h⟩
    exact absurd (show 35 ∈ orderLine by rw [h]; simp) (by decide +kernel)
  have hends : EndsPlain orderLine := by
    unfold EndsPlain
    decide +kernel
  refine ⟨⟨.order, cstr "username,address", .order (b := []) ?_ ?_ (List.forall_mem_nil _) ?_⟩,
    fun h => absurd h hcomment, fun _ _ => ⟨hheader, hends⟩, fun _ h => ?_, fun _ h => ?_⟩
  · unfold StartsPlain
    decide +kernel
  · unfold EndsPlain
    decide +kernel
  · exact ⟨[9], [32], List.forall_mem_singleton.mpr rfl, List.forall_mem_singleton.mpr rfl,
      by decide, by decide, by decide +kernel⟩
  · cases h with
    | pattern hs he hb hk => exact absurd ⟨[], _, rfl, _, hk⟩ hmatch
  · cases h with
    | server hs he hb hn => exact absurd ⟨[], _, rfl, _, hn⟩ hheader

theorem scansAsSpelled_iff_order : ScansAsSpelled RegexLib.posix orderLine :=
  (scansAsSpelled_iff RegexLib.conforms_posix (by decide) (by decide) (by decide)).mpr
    plainlySpelled_orderLine

/-- A comment that mentions an order is taken for an order line. -/
theorem scans_comment :
    Spells (cstr "# order first") .comment [] ∧
      ¬ ScansAsSpelled RegexLib.posix (cstr "# order first") := by
  have hspell : Spells (cstr "# order first") .comment [] :=
    .comment ⟨[], cstr " order first", List.forall_mem_nil _, rfl⟩
  refine ⟨hspell, ?_⟩
  rintro ⟨r, hr, hall, -⟩
  have hscan : scanString RegexLib.posix (cstr "# order first" ++ [10]) tokenString =
      .ok (.order, cstr "first") := by decide +kernel
  obtain rfl := Except.ok.inj (hr.symm.trans hscan)
  exact absurd (hall _ _ hspell).1 (by decide)

end ExactDaemon
