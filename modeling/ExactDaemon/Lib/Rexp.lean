import Mathlib.Computability.Language
import Mathlib.Data.Nat.Find
import ExactDaemon.Lib.Regex

/-! # Leftmost-longest matching

Regular expressions that repeat single bytes only, their languages, and the match that
POSIX prescribes: the leftmost of the longest, within it each part from left to right as
long as the whole allows. `Rexp.exec` computes it.
-/

namespace ExactDaemon

/-- A set of bytes: the ranges of a bracket expression, or what is in none of them. -/
structure ByteSet where
  ranges : List (UInt8 × UInt8)
  negated : Bool
  deriving DecidableEq, Repr

namespace ByteSet

def mem (p : ByteSet) (c : UInt8) : Bool :=
  (p.ranges.any fun r => r.1 ≤ c && c ≤ r.2) != p.negated

def single (c : UInt8) : ByteSet := ⟨[(c, c)], false⟩

/-- `.`, since no NUL occurs in a string. -/
def any : ByteSet := ⟨[], true⟩

theorem between_iff {a c : UInt8} : (a ≤ c ∧ c ≤ a) ↔ c = a :=
  ⟨fun h => UInt8.le_antisymm h.2 h.1, fun h => h ▸ ⟨UInt8.le_refl _, UInt8.le_refl _⟩⟩

theorem mem_single {a c : UInt8} : (single a).mem c ↔ c = a := by
  simp only [mem, single, List.any_cons, List.any_nil, Bool.or_false, Bool.bne_false,
    Bool.and_eq_true, decide_eq_true_eq, between_iff]

theorem mem_pair {a b c : UInt8} :
    (⟨[(a, a), (b, b)], false⟩ : ByteSet).mem c ↔ c = a ∨ c = b := by
  simp only [mem, List.any_cons, List.any_nil, Bool.or_false, Bool.bne_false, Bool.or_eq_true,
    Bool.and_eq_true, decide_eq_true_eq, between_iff]

theorem mem_negated {ranges : List (UInt8 × UInt8)} {c : UInt8} :
    (⟨ranges, true⟩ : ByteSet).mem c ↔ ¬ (⟨ranges, false⟩ : ByteSet).mem c := by
  simp [mem]

@[simp] theorem mem_any (c : UInt8) : any.mem c = true := rfl

end ByteSet

inductive Rexp where
  | empty
  | set (p : ByteSet)
  | many (p : ByteSet)
  | cat (r s : Rexp)
  | alt (r s : Rexp)
  | group (n : ℕ) (r : Rexp)
  deriving DecidableEq, Repr

namespace Rexp

/-- The strings that the expression matches as a whole. -/
def lang : Rexp → Language UInt8
  | empty => 1
  | set p => {w | ∃ c, p.mem c ∧ w = [c]}
  | many p => {w | ∀ c ∈ w, p.mem c}
  | cat r s => lang r * lang s
  | alt r s => lang r + lang s
  | group _ r => lang r

/-- Bytes of the set, as many as wanted, and then what `k` accepts. -/
def manyFollowedBy (p : ByteSet) (k : Bytes → Bool) : Bytes → Bool
  | [] => k []
  | c :: w => k (c :: w) || (p.mem c && manyFollowedBy p k w)

/-- A string that the expression matches, and then what `k` accepts. -/
def followedBy : Rexp → (Bytes → Bool) → Bytes → Bool
  | empty, k, w => k w
  | set _, _, [] => false
  | set p, k, c :: w => p.mem c && k w
  | many p, k, w => manyFollowedBy p k w
  | cat r s, k, w => followedBy r (followedBy s k) w
  | alt r s, k, w => followedBy r k w || followedBy s k w
  | group _ r, k, w => followedBy r k w

variable {r s : Rexp} {p : ByteSet} {k : Bytes → Bool} {u v w : Bytes}

theorem manyFollowedBy_iff :
    manyFollowedBy p k w ↔ ∃ u v, u ++ v = w ∧ (∀ c ∈ u, p.mem c) ∧ k v := by
  induction w with
  | nil =>
    constructor
    · exact fun h => ⟨[], [], rfl, List.forall_mem_nil _, h⟩
    · rintro ⟨u, v, h, -, hk⟩
      obtain ⟨rfl, rfl⟩ := List.append_eq_nil_iff.mp h
      exact hk
  | cons c w ih =>
    rw [manyFollowedBy, Bool.or_eq_true, Bool.and_eq_true, ih]
    constructor
    · rintro (h | ⟨hc, u, v, rfl, hu, hk⟩)
      · exact ⟨[], _, rfl, List.forall_mem_nil _, h⟩
      · exact ⟨c :: u, v, rfl, List.forall_mem_cons.mpr ⟨hc, hu⟩, hk⟩
    · rintro ⟨u, v, h, hu, hk⟩
      cases u with
      | nil =>
        obtain rfl : v = c :: w := h
        exact Or.inl hk
      | cons d u =>
        obtain ⟨rfl, rfl⟩ := List.cons.inj h
        obtain ⟨hc, hu⟩ := List.forall_mem_cons.mp hu
        exact Or.inr ⟨hc, u, v, rfl, hu, hk⟩

theorem followedBy_iff : followedBy r k w ↔ ∃ u v, u ++ v = w ∧ u ∈ lang r ∧ k v := by
  induction r generalizing k w with
  | empty =>
    constructor
    · exact fun h => ⟨[], w, rfl, rfl, h⟩
    · rintro ⟨u, v, rfl, hu, hk⟩
      obtain rfl : u = [] := hu
      exact hk
  | set p =>
    cases w with
    | nil =>
      constructor
      · exact fun h => absurd h Bool.false_ne_true
      · rintro ⟨u, v, h, ⟨c, -, rfl⟩, -⟩
        cases h
    | cons c w =>
      rw [followedBy, Bool.and_eq_true]
      constructor
      · rintro ⟨hc, hk⟩
        exact ⟨[c], w, rfl, ⟨c, hc, rfl⟩, hk⟩
      · rintro ⟨u, v, h, ⟨d, hd, rfl⟩, hk⟩
        obtain ⟨rfl, rfl⟩ := List.cons.inj h
        exact ⟨hd, hk⟩
  | many p => exact manyFollowedBy_iff
  | cat r s ihr ihs =>
    rw [followedBy, ihr]
    constructor
    · rintro ⟨u, v, rfl, hu, hv⟩
      obtain ⟨x, y, rfl, hx, hk⟩ := ihs.mp hv
      exact ⟨u ++ x, y, List.append_assoc u x y, Language.append_mem_mul hu hx, hk⟩
    · rintro ⟨u, v, rfl, hu, hk⟩
      obtain ⟨a, ha, b, hb, rfl⟩ := Language.mem_mul.mp hu
      exact ⟨a, b ++ v, (List.append_assoc a b v).symm, ha, ihs.mpr ⟨b, v, rfl, hb, hk⟩⟩
  | alt r s ihr ihs =>
    rw [followedBy, Bool.or_eq_true, ihr, ihs]
    constructor
    · rintro (⟨u, v, h, hu, hk⟩ | ⟨u, v, h, hu, hk⟩)
      · exact ⟨u, v, h, Or.inl hu, hk⟩
      · exact ⟨u, v, h, Or.inr hu, hk⟩
    · rintro ⟨u, v, h, hu | hu, hk⟩
      · exact Or.inl ⟨u, v, h, hu, hk⟩
      · exact Or.inr ⟨u, v, h, hu, hk⟩
  | group n r ih => exact ih

def accepts (r : Rexp) (w : Bytes) : Bool := followedBy r List.isEmpty w

theorem accepts_iff : r.accepts w ↔ w ∈ lang r := by
  rw [accepts, followedBy_iff]
  constructor
  · rintro ⟨u, v, rfl, hu, hv⟩
    obtain rfl := List.isEmpty_iff.mp hv
    rwa [List.append_nil]
  · exact fun h => ⟨w, [], List.append_nil w, h, rfl⟩

instance (r : Rexp) (w : Bytes) : Decidable (w ∈ lang r) := decidable_of_iff _ accepts_iff

/-! ### Groups -/

/-- How much of the string the first of two parts takes: as much as it can. -/
def splitAt (r s : Rexp) (w : Bytes) : ℕ :=
  Nat.findGreatest (fun k => w.take k ∈ lang r ∧ w.drop k ∈ lang s) w.length

/-- Group `n` has matched `w` at the position `i`. -/
def record (n i : ℕ) (w : Bytes) (g : ℕ → Regmatch) (j : ℕ) : Regmatch :=
  if j = n then ⟨i, i + w.length⟩ else g j

/-- The groups after the expression has matched the whole of `w`, which begins at the
position `i` of the line. -/
def groups : Rexp → ℕ → Bytes → (ℕ → Regmatch) → ℕ → Regmatch
  | empty, _, _, g => g
  | set _, _, _, g => g
  | many _, _, _, g => g
  | cat r s, i, w, g =>
    let k := splitAt r s w
    groups s (i + k) (w.drop k) (groups r i (w.take k) g)
  | alt r s, i, w, g => if w ∈ lang r then groups r i w g else groups s i w g
  | group n r, i, w, g => groups r i w (record n i w g)

theorem splitAt_eq (hu : u ∈ lang r) (hv : v ∈ lang s)
    (h : ∀ x y, x ++ y = v → u ++ x ∈ lang r → y ∈ lang s → x = []) :
    splitAt r s (u ++ v) = u.length := by
  refine Nat.findGreatest_eq_iff.mpr ⟨by simp, fun _ => by simpa using ⟨hu, hv⟩, ?_⟩
  rintro n hlt hle ⟨hr, hs⟩
  obtain ⟨m, rfl⟩ := Nat.exists_eq_add_of_le hlt.le
  rw [List.take_length_add_append] at hr
  rw [List.drop_length_add_append] at hs
  have hnil := h _ _ (List.take_append_drop m v) hr hs
  rw [List.take_eq_nil_iff] at hnil
  rcases hnil with h0 | rfl
  · omega
  · rw [List.append_nil] at hle
    omega

/-- The expression matches the whole of `w` at `i`, and this changes the groups from `g`
to `g'`. -/
structure Captures (r : Rexp) (i : ℕ) (w : Bytes) (g g' : ℕ → Regmatch) : Prop where
  mem : w ∈ lang r
  groups : r.groups i w g = g'

section Captures

variable {i n : ℕ} {c : UInt8} {t : CStr} {g g' g'' : ℕ → Regmatch}

/-- Two parts whose border is found: the first could not take more. -/
theorem Captures.cat (hr : r.Captures i u g g') (hs : s.Captures (i + u.length) v g' g'')
    (h : ∀ x y, x ++ y = v → u ++ x ∈ lang r → y ∈ lang s → x = []) :
    (cat r s).Captures i (u ++ v) g g'' where
  mem := Language.append_mem_mul hr.mem hs.mem
  groups := by
    rw [Rexp.groups, splitAt_eq hr.mem hs.mem h, List.take_left' rfl, List.drop_left' rfl,
      hr.groups, hs.groups]

theorem Captures.group (h : r.Captures i w (record n i w g) g') :
    (group n r).Captures i w g g' :=
  ⟨h.mem, h.groups⟩

theorem captures_many (h : ∀ a ∈ w, p.mem a) : (many p).Captures i w g g := ⟨h, rfl⟩

theorem captures_single (c : UInt8) : (set (.single c)).Captures i [c] g g :=
  ⟨⟨c, ByteSet.mem_single.mpr rfl, rfl⟩, rfl⟩

end Captures

/-! ### Literal texts -/

/-- A text, and then an expression. -/
def lits (t : CStr) (r : Rexp) : Rexp := t.foldr (fun c r => .cat (.set (.single c)) r) r

theorem mem_lang_single {c : UInt8} : w ∈ lang (set (.single c)) ↔ w = [c] := by
  constructor
  · rintro ⟨d, hd, rfl⟩
    rw [ByteSet.mem_single.mp hd]
  · rintro rfl
    exact ⟨c, ByteSet.mem_single.mpr rfl, rfl⟩

theorem mem_lang_cat : w ∈ lang (cat r s) ↔ ∃ u v, w = u ++ v ∧ u ∈ lang r ∧ v ∈ lang s := by
  constructor
  · intro h
    obtain ⟨u, hu, v, hv, rfl⟩ := Language.mem_mul.mp h
    exact ⟨u, v, rfl, hu, hv⟩
  · rintro ⟨u, v, rfl, hu, hv⟩
    exact Language.append_mem_mul hu hv

theorem mem_lang_single_cat {c : UInt8} :
    w ∈ lang (cat (set (.single c)) r) ↔ ∃ v, w = c :: v ∧ v ∈ lang r := by
  rw [mem_lang_cat]
  constructor
  · rintro ⟨u, v, rfl, hu, hv⟩
    rw [mem_lang_single.mp hu]
    exact ⟨v, rfl, hv⟩
  · rintro ⟨v, rfl, hv⟩
    exact ⟨[c], v, rfl, mem_lang_single.mpr rfl, hv⟩

theorem mem_lang_lits {t : CStr} : w ∈ lang (lits t r) ↔ ∃ v, w = t ++ v ∧ v ∈ lang r := by
  induction t generalizing w with
  | nil => exact ⟨fun h => ⟨w, rfl, h⟩, by rintro ⟨v, rfl, hv⟩; exact hv⟩
  | cons c t ih =>
    rw [show lits (c :: t) r = cat (set (.single c)) (lits t r) from rfl, mem_lang_single_cat]
    constructor
    · rintro ⟨v, rfl, hv⟩
      obtain ⟨x, rfl, hx⟩ := ih.mp hv
      exact ⟨x, rfl, hx⟩
    · rintro ⟨v, rfl, hv⟩
      exact ⟨t ++ v, rfl, ih.mpr ⟨v, rfl, hv⟩⟩

theorem Captures.single {c : UInt8} {i : ℕ} {g g' : ℕ → Regmatch}
    (h : r.Captures (i + 1) v g g') : (Rexp.cat (set (.single c)) r).Captures i (c :: v) g g' :=
  Captures.cat (u := [c]) (captures_single c) h fun _ _ _ hx _ =>
    (List.cons.inj (mem_lang_single.mp hx)).2

theorem Captures.lits {t : CStr} {i : ℕ} {g g' : ℕ → Regmatch}
    (h : r.Captures (i + t.length) v g g') : (lits t r).Captures i (t ++ v) g g' := by
  induction t generalizing i with
  | nil => exact h
  | cons c t ih =>
    refine Captures.single (ih ?_)
    rw [List.length_cons, Nat.add_comm t.length 1, ← Nat.add_assoc] at h
    exact h

/-- A text alone. -/
def lit : CStr → Rexp
  | [] => .empty
  | [c] => .set (.single c)
  | c :: t => .cat (.set (.single c)) (lit t)

theorem mem_lang_lit {t : CStr} : w ∈ lang (lit t) ↔ w = t := by
  induction t generalizing w with
  | nil => rfl
  | cons c t ih =>
    cases t with
    | nil => exact mem_lang_single
    | cons d t =>
      rw [lit, mem_lang_single_cat]
      · constructor
        · rintro ⟨v, rfl, hv⟩
          rw [ih.mp hv]
        · rintro rfl
          exact ⟨_, rfl, ih.mpr rfl⟩
      · exact List.cons_ne_nil d t

theorem captures_lit (t : CStr) (i : ℕ) (g : ℕ → Regmatch) : (lit t).Captures i t g g where
  mem := mem_lang_lit.mpr rfl
  groups := by
    induction t generalizing i with
    | nil => rfl
    | cons c t ih =>
      cases t with
      | nil => rfl
      | cons d t =>
        have h := ih (i + 1)
        exact (Captures.single (c := c) ⟨mem_lang_lit.mpr rfl, h⟩).groups

/-- A repetition takes all up to the first byte that is not in its set. -/
theorem Captures.many_cat_head {i : ℕ} {g g' g'' : ℕ → Regmatch} (hr : lang r = lang (many p))
    (hu : r.Captures i u g g') (hc : ∀ c ∈ v.head?, p.mem c = false)
    (hs : s.Captures (i + u.length) v g' g'') : (Rexp.cat r s).Captures i (u ++ v) g g'' := by
  refine Captures.cat hu hs fun x y hxy h _ => ?_
  cases x with
  | nil => rfl
  | cons d x =>
    rw [hr] at h
    have hd : p.mem d = true := h d (by simp)
    have hd' : p.mem d = false := hc d (by rw [← hxy]; rfl)
    exact absurd (hd.symm.trans hd') (by decide)

theorem Captures.many_cat {c : UInt8} {i : ℕ} {g g' g'' : ℕ → Regmatch}
    (hr : lang r = lang (many p)) (hu : r.Captures i u g g') (hc : p.mem c = false)
    (hs : s.Captures (i + u.length) (c :: v) g' g'') :
    (Rexp.cat r s).Captures i (u ++ c :: v) g g'' :=
  Captures.many_cat_head hr hu (fun _ hd => Option.some.inj hd ▸ hc) hs

theorem mem_lang_many_cat : w ∈ lang (cat (many p) r) ↔
    ∃ u v, w = u ++ v ∧ (∀ c ∈ u, p.mem c) ∧ v ∈ lang r := mem_lang_cat

/-- A repetition of at least one byte. -/
theorem mem_lang_plus : w ∈ lang (cat (set p) (many p)) ↔ w ≠ [] ∧ ∀ c ∈ w, p.mem c := by
  rw [mem_lang_cat]
  constructor
  · rintro ⟨u, v, rfl, ⟨c, hc, rfl⟩, hv⟩
    exact ⟨List.cons_ne_nil c _, List.forall_mem_cons.mpr ⟨hc, hv⟩⟩
  · rintro ⟨hne, h⟩
    obtain ⟨c, v, rfl⟩ := List.exists_cons_of_ne_nil hne
    obtain ⟨hc, hv⟩ := List.forall_mem_cons.mp h
    exact ⟨[c], v, rfl, ⟨c, hc, rfl⟩, hv⟩

theorem mem_lang_plus_cat : w ∈ lang (cat (set p) (cat (many p) r)) ↔
    ∃ u v, w = u ++ v ∧ u ≠ [] ∧ (∀ c ∈ u, p.mem c) ∧ v ∈ lang r := by
  have hassoc : lang (cat (set p) (cat (many p) r)) = lang (cat (cat (set p) (many p)) r) :=
    (mul_assoc _ _ _).symm
  rw [hassoc, mem_lang_cat]
  simp only [mem_lang_plus, and_assoc]

/-- A repetition of at least one byte takes all up to the first byte that is not in its set. -/
theorem captures_plus {i : ℕ} {g : ℕ → Regmatch} (hne : w ≠ []) (h : ∀ a ∈ w, p.mem a) :
    (Rexp.cat (set p) (many p)).Captures i w g g := by
  obtain ⟨c, v, rfl⟩ := List.exists_cons_of_ne_nil hne
  obtain ⟨hc, hv⟩ := List.forall_mem_cons.mp h
  refine Captures.cat (u := [c]) ⟨⟨c, hc, rfl⟩, rfl⟩ (captures_many hv) fun x y _ hx _ => ?_
  obtain ⟨d, -, hd⟩ := hx
  exact (List.cons.inj hd).2

theorem Captures.plus_cat {i : ℕ} {g g' : ℕ → Regmatch} (hne : u ≠ []) (hu : ∀ a ∈ u, p.mem a)
    (hc : ∀ c ∈ v.head?, p.mem c = false) (hr : r.Captures (i + u.length) v g g') :
    (Rexp.cat (set p) (Rexp.cat (many p) r)).Captures i (u ++ v) g g' := by
  obtain ⟨c, t, rfl⟩ := List.exists_cons_of_ne_nil hne
  obtain ⟨hc', ht⟩ := List.forall_mem_cons.mp hu
  have hrest : (Rexp.cat (many p) r).Captures (i + 1) (t ++ v) g g' :=
    Captures.many_cat_head rfl (captures_many ht) hc
      (by rw [List.length_cons, Nat.add_comm t.length, ← Nat.add_assoc] at hr; exact hr)
  refine Captures.cat (u := [c]) ⟨⟨c, hc', rfl⟩, rfl⟩ hrest fun x y _ hx _ => ?_
  obtain ⟨d, -, hd⟩ := hx
  exact (List.cons.inj hd).2

theorem mem_lang_alt : w ∈ lang (alt r s) ↔ w ∈ lang r ∨ w ∈ lang s := Iff.rfl

/-! ### The match -/

/-- Where the first match begins. -/
def start (r : Rexp) (s : Bytes) : Option ℕ :=
  (List.range (s.length + 1)).find? fun i => r.followedBy (fun _ => true) (s.drop i)

/-- How long the longest match at the start of a string is. -/
def longest (r : Rexp) (s : Bytes) : ℕ :=
  Nat.findGreatest (fun k => s.take k ∈ lang r) s.length

/-- `regexec`. -/
def exec (r : Rexp) (s : Bytes) : RegResult :=
  match r.start s with
  | none => .nomatch
  | some i =>
    let t := s.drop i
    .ok ((group 0 r).groups i (t.take (r.longest t)) fun _ => .unmatched)

/-- No match begins in the string before this position. -/
def NoneBefore (r : Rexp) (s : Bytes) (i : ℕ) : Prop :=
  ∀ j < i, ∀ u v, s.drop j = u ++ v → u ∉ lang r

/-- An expression that begins with one of some keywords does not match before a place
where a keyword begins with a byte that no keyword has further on. -/
theorem noneBefore_keywords (keys : List CStr) {c : UInt8}
    (hr : ∀ x ∈ lang r, ∃ k ∈ keys, k <+: x) (hu : ∀ k ∈ keys, ¬ k <:+: u)
    (hc : ∀ k ∈ keys, c ∉ k.tail) : NoneBefore r (u ++ c :: v) u.length := by
  intro j hj x y hxy hx
  obtain ⟨k, hk, hkx⟩ := hr x hx
  rw [List.drop_append_of_le_length hj.le] at hxy
  have hne : u.drop j ≠ [] := by
    rw [Ne, List.drop_eq_nil_iff]
    omega
  have hpre : k <+: u.drop j ++ c :: v := hxy ▸ hkx.trans (List.prefix_append x y)
  rcases Nat.lt_or_ge (u.drop j).length k.length with hlt | hle
  · have hpre' : u.drop j ++ [c] <+: u.drop j ++ c :: v := by
      rw [List.prefix_append_right_inj]
      exact ⟨v, rfl⟩
    have hle : (u.drop j ++ [c]).length ≤ k.length := by
      rw [List.length_append]
      exact hlt
    obtain ⟨z, rfl⟩ := List.prefix_of_prefix_length_le hpre' hpre hle
    refine hc _ hk ?_
    cases hd : u.drop j with
    | nil => exact absurd hd hne
    | cons a t => simp
  · have hin := List.prefix_of_prefix_length_le hpre (List.prefix_append _ _) hle
    exact hu k hk (hin.isInfix.trans (List.drop_suffix j u).isInfix)

theorem start_eq_some (hw : w ∈ lang r) (h : NoneBefore r (u ++ w ++ v) u.length) :
    r.start (u ++ w ++ v) = some u.length := by
  rw [start, List.find?_range_eq_some]
  refine ⟨?_, List.mem_range.mpr ?_, fun j hj => ?_⟩
  · rw [followedBy_iff]
    exact ⟨w, v, by simp, hw, rfl⟩
  · rw [List.length_append, List.length_append]
    omega
  · rw [Bool.not_eq_true', Bool.eq_false_iff, Ne, followedBy_iff]
    rintro ⟨x, y, hxy, hx, -⟩
    exact h j hj x y hxy.symm hx

theorem start_eq_none_iff :
    r.start w = none ↔ ∀ u x v, w = u ++ (x ++ v) → x ∉ lang r := by
  simp only [start, List.find?_eq_none, List.mem_range, followedBy_iff, and_true]
  constructor
  · rintro h u x v rfl hx
    refine h u.length ?_ ⟨x, v, (List.drop_left' rfl).symm, hx⟩
    rw [List.length_append]
    omega
  · rintro h i - ⟨x, v, hxv, hx⟩
    exact h (w.take i) x v (by rw [hxv, List.take_append_drop]) hx

theorem longest_eq (hw : w ∈ lang r) (h : ∀ x y, x ++ y = v → w ++ x ∈ lang r → x = []) :
    r.longest (w ++ v) = w.length := by
  refine Nat.findGreatest_eq_iff.mpr ⟨by simp, fun _ => by simpa using hw, ?_⟩
  intro n hlt hle hr
  obtain ⟨m, rfl⟩ := Nat.exists_eq_add_of_le hlt.le
  rw [List.take_length_add_append] at hr
  have hnil := h _ _ (List.take_append_drop m v) hr
  rw [List.take_eq_nil_iff] at hnil
  rcases hnil with h0 | rfl
  · omega
  · rw [List.append_nil] at hle
    omega

/-- The leftmost and longest match is the one that is found. -/
theorem exec_eq {g : ℕ → Regmatch} (hw : (group 0 r).Captures u.length w (fun _ => .unmatched) g)
    (h : NoneBefore r (u ++ w ++ v) u.length)
    (hl : ∀ x y, x ++ y = v → w ++ x ∈ lang r → x = []) : r.exec (u ++ w ++ v) = .ok g := by
  have hmem : w ∈ lang r := hw.mem
  unfold exec
  rw [start_eq_some hmem h]
  simp only [List.append_assoc, List.drop_left', longest_eq hmem hl, List.take_left', hw.groups]

/-- A match of the whole string is the one that is found. -/
theorem exec_whole {g : ℕ → Regmatch} (h : (group 0 r).Captures 0 w (fun _ => .unmatched) g) :
    r.exec w = .ok g := by
  have hexec := exec_eq (u := []) (v := []) h (fun j hj => absurd hj (Nat.not_lt_zero j))
    fun x y hxy _ => (List.append_eq_nil_iff.mp hxy).1
  rwa [List.append_nil, List.nil_append] at hexec

/-- Nothing is found if and only if no part of the string is matched. -/
theorem exec_nomatch_iff :
    r.exec w = .nomatch ↔ ∀ u x v, w = u ++ (x ++ v) → x ∉ lang r := by
  rw [← start_eq_none_iff, exec]
  cases r.start w <;> simp

theorem exec_ok_or (r : Rexp) (w : Bytes) : r.exec w = .nomatch ∨ ∃ g, r.exec w = .ok g := by
  unfold exec
  cases r.start w with
  | none => exact .inl rfl
  | some i => exact .inr ⟨_, rfl⟩

/-- The groups lie in the string, if the match does. -/
theorem groups_inside {i len : ℕ} {g : ℕ → Regmatch} (hw : i + w.length ≤ len)
    (hg : ∀ n, (g n).Inside len) (n : ℕ) : (r.groups i w g n).Inside len := by
  induction r generalizing i w g n with
  | empty => exact hg n
  | set p => exact hg n
  | many p => exact hg n
  | cat r s ihr ihs =>
    have hk : splitAt r s w ≤ w.length := Nat.findGreatest_le _
    have hfirst : i + (w.take (splitAt r s w)).length ≤ len :=
      (Nat.add_le_add_left (List.length_take_le' _ _) i).trans hw
    have hsecond : i + splitAt r s w + (w.drop (splitAt r s w)).length ≤ len := by
      rw [List.length_drop]
      omega
    exact ihs hsecond (fun j => ihr hfirst hg j) n
  | alt r s ihr ihs =>
    rw [groups]
    split
    · exact ihr hw hg n
    · exact ihs hw hg n
  | group m r ih =>
    refine ih hw (fun j => ?_) n
    unfold record
    split
    · refine .inr ⟨?_, ?_, ?_⟩ <;> dsimp only <;> omega
    · exact hg j

theorem exec_inside {g : ℕ → Regmatch} (h : r.exec w = .ok g) (n : ℕ) :
    (g n).Inside w.length := by
  unfold exec at h
  split at h
  · cases h
  · next i hi =>
    have hle : i ≤ w.length := by
      have hmem := List.mem_of_find?_eq_some hi
      rw [List.mem_range] at hmem
      omega
    obtain rfl := RegResult.ok.inj h
    refine groups_inside (r := group 0 r) ?_ (fun _ => .inl rfl) n
    have hlen := List.length_take_le' (r.longest (w.drop i)) (w.drop i)
    rw [List.length_drop] at hlen
    omega

/-! ### Groups that are not there -/

/-- The numbers of the groups. -/
def numbers : Rexp → List ℕ
  | empty => []
  | set _ => []
  | many _ => []
  | cat r s => numbers r ++ numbers s
  | alt r s => numbers r ++ numbers s
  | group n r => n :: numbers r

theorem groups_of_notMem {i j : ℕ} {g : ℕ → Regmatch} (h : j ∉ r.numbers) :
    r.groups i w g j = g j := by
  induction r generalizing i w g with
  | empty => rfl
  | set p => rfl
  | many p => rfl
  | cat r s ihr ihs =>
    rw [numbers, List.mem_append, not_or] at h
    exact (ihs h.2).trans (ihr h.1)
  | alt r s ihr ihs =>
    rw [numbers, List.mem_append, not_or] at h
    rw [groups]
    split
    · exact ihr h.1
    · exact ihs h.2
  | group n r ih =>
    rw [numbers, List.mem_cons, not_or] at h
    exact (ih h.2).trans (if_neg h.1)

/-- A group that the expression does not have is not matched. -/
theorem exec_unmatched {j : ℕ} {g : ℕ → Regmatch} (h : r.exec w = .ok g)
    (hj : j ∉ (group 0 r).numbers) : g j = .unmatched := by
  unfold exec at h
  split at h
  · cases h
  · obtain rfl := RegResult.ok.inj h
    exact groups_of_notMem hj

end Rexp

end ExactDaemon
