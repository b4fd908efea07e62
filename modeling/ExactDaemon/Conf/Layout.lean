import ExactDaemon.Conf.Stanzas

/-! # The block of the section table

An `apconf` is 16 sections of four words and then the count. What `parse_rule_top` and
`apconf_getsec` read and write of it is given in bytes from its start, next to the size of
the block that holds it. The parser takes a block of the size of a pointer, and the count
does not lie in it.
-/

namespace ExactDaemon

/-! ### The layout -/

def sizeofInt : ℕ := 4
def sizeofPointer : ℕ := 8

/-- The type of the section, padded to a word, and its three pointers. -/
def sizeofSection : ℕ := 4 * sizeofPointer

def offsetofCount : ℕ := sectionMax * sizeofSection

/-- Bytes from the start of the block. -/
structure Span where
  offset : ℕ
  length : ℕ
  deriving DecidableEq, Repr

/-- All of them lie in a block of this size. -/
def Span.Inside (size : ℕ) (x : Span) : Prop := x.offset + x.length ≤ size

namespace Span

/-- `a->count` -/
def count : Span := ⟨offsetofCount, sizeofInt⟩

/-- `a->s[i]` -/
def sectionAt (i : ℕ) : Span := ⟨i * sizeofSection, sizeofSection⟩

/-- `a->s[i].name` -/
def nameAt (i : ℕ) : Span := ⟨i * sizeofSection + sizeofPointer, sizeofPointer⟩

end Span

/-- `a=malloc (size)` and `memset (a, 0, size)`. -/
def clearedBlock (size : ℕ) : Bytes := List.replicate size 0

/-- The `int` at a place of the block, if the block has it. -/
def readInt (b : Bytes) (off : ℕ) : Option ℕ :=
  match (b.drop off).take sizeofInt with
  | [b₀, b₁, b₂, b₃] =>
    some (b₀.toNat + 256 * (b₁.toNat + 256 * (b₂.toNat + 256 * b₃.toNat)))
  | _ => none

/-! ### The accesses -/

/-- The loop of `parse_rule_top`, with what it reads and writes of the block: the test of the
count, and in `a->s[a->count++] = *s` the count twice and the section. -/
def sectionAccesses (lib : RegexLib) : ℕ → Reader → Section → List Section →
    Except Halt (Option (List Section) × Section) × List Span
  | 0, _, _, _ => (.error .diverged, [])
  | n + 1, f, s, a =>
    if f.eof then (.ok (some a, s), [])
    else
      match parseRuleSection lib f s with
      | .error h => (.error h, [])
      | .ok (none, _) => (.ok (none, s), [])
      | .ok (some s', f) =>
        match s'.t with
        | .eof => (.ok (some a, s'), [])
        | .stanza =>
          if a.length = sectionMax then (.ok (none, s'), [.count])
          else
            let r := sectionAccesses lib n f s' (a ++ [s'])
            (r.1, [.count, .count, .count, .sectionAt a.length] ++ r.2)
        | _ => sectionAccesses lib n f s' a

def topAccesses (lib : RegexLib) (text : Bytes) (s : Section) :
    Except Halt (Option (List Section) × Section) × List Span :=
  sectionAccesses lib (text.length + 2) ⟨text, false⟩ s []

/-- What the loop of `apconf_getsec` reads of the block, from the index `i` on. -/
def getsecAccesses (name : CStr) : ℕ → List Section → List Span
  | _, [] => [.count]
  | i, s :: ss =>
    .count :: .nameAt i ::
      if strcmp name (s.name.getD []) = 0 then [] else getsecAccesses name (i + 1) ss

/-- The table of a file with `k` stanzas fits a block of this size: the count is 0 at first
and `k` at the end, and every access of the parser, and then of a lookup, is in the block. -/
structure TableFits (size : ℕ) (lib : RegexLib) (text : Bytes) (s : Section) (name : CStr)
    (k : ℕ) : Prop where
  zero : readInt (clearedBlock size) offsetofCount = some 0
  parse : ∀ x ∈ (topAccesses lib text s).2, x.Inside size
  count : ∃ a s', (topAccesses lib text s).1 = .ok (some a, s') ∧ a.length = k ∧
    ∀ x ∈ getsecAccesses name 0 a, x.Inside size

variable {lib : RegexLib} {f : Reader} {s : Section} {a : List Section} {n i k size : ℕ}
  {text : Bytes} {items : List Item} {name : CStr}

/-- The accesses go with the parse. -/
theorem sectionAccesses_fst : (sectionAccesses lib n f s a).1 = parseSections lib n f s a := by
  induction n generalizing f s a with
  | zero => rfl
  | succ n ih =>
    rw [sectionAccesses, parseSections]
    split
    · rfl
    cases hr : parseRuleSection lib f s with
    | error h => rfl
    | ok r =>
      obtain ⟨_ | s', f'⟩ := r
      · rfl
      dsimp only
      cases s'.t with
      | eof => rfl
      | stanza =>
        dsimp only
        split
        · rfl
        · exact ih
      | null => exact ih
      | ignore => exact ih

theorem inside_count : Span.count.Inside size ↔ 516 ≤ size := Iff.rfl

theorem inside_sectionAt (hi : i < sectionMax) (hs : 516 ≤ size) :
    (Span.sectionAt i).Inside size := by
  unfold Span.Inside Span.sectionAt sizeofSection sizeofPointer
  unfold sectionMax at hi
  dsimp only
  omega

theorem inside_nameAt (hi : i < sectionMax) (hs : 516 ≤ size) : (Span.nameAt i).Inside size := by
  unfold Span.Inside Span.nameAt sizeofSection sizeofPointer
  unfold sectionMax at hi
  dsimp only
  omega

/-- The test of the count keeps the stores in range, as long as the block has the count. -/
theorem inside_sectionAccesses (hs : 516 ≤ size) (ha : a.length ≤ sectionMax) :
    ∀ x ∈ (sectionAccesses lib n f s a).2, x.Inside size := by
  induction n generalizing f s a with
  | zero => exact List.forall_mem_nil _
  | succ n ih =>
    rw [sectionAccesses]
    split
    · exact List.forall_mem_nil _
    cases parseRuleSection lib f s with
    | error h => exact List.forall_mem_nil _
    | ok r =>
      obtain ⟨_ | s', f'⟩ := r
      · exact List.forall_mem_nil _
      dsimp only
      cases s'.t with
      | eof => exact List.forall_mem_nil _
      | stanza =>
        dsimp only
        split
        · exact List.forall_mem_singleton.mpr (inside_count.mpr hs)
        · next hmax =>
          have hlt : a.length < sectionMax := Nat.lt_of_le_of_ne ha hmax
          have hc : Span.count.Inside size := inside_count.mpr hs
          have hround : ∀ x ∈ [Span.count, .count, .count, .sectionAt a.length],
              x.Inside size := by
            simp [hc, inside_sectionAt hlt hs]
          intro x hx
          rcases List.mem_append.mp hx with hx | hx
          · exact hround x hx
          · exact ih (by rw [List.length_append]; exact hlt) x hx
      | null => exact ih ha
      | ignore => exact ih ha

theorem inside_getsecAccesses (hs : 516 ≤ size) (ha : i + a.length ≤ sectionMax) :
    ∀ x ∈ getsecAccesses name i a, x.Inside size := by
  induction a generalizing i with
  | nil => exact List.forall_mem_singleton.mpr (inside_count.mpr hs)
  | cons s ss ih =>
    rw [List.length_cons] at ha
    rw [getsecAccesses, List.forall_mem_cons, List.forall_mem_cons]
    refine ⟨inside_count.mpr hs, inside_nameAt (by omega) hs, ?_⟩
    split
    · exact List.forall_mem_nil _
    · exact ih (by omega)

/-- A lookup reads the count first. -/
theorem count_mem_getsecAccesses : Span.count ∈ getsecAccesses name i a := by
  cases a with
  | nil => exact List.mem_singleton_self _
  | cons => exact List.mem_cons_self

theorem readInt_clearedBlock (hs : 516 ≤ size) :
    readInt (clearedBlock size) offsetofCount = some 0 := by
  have hb : ((clearedBlock size).drop offsetofCount).take sizeofInt = [0, 0, 0, 0] := by
    rw [clearedBlock, List.drop_replicate, List.take_replicate]
    rw [show min sizeofInt (size - offsetofCount) = 4 by
      unfold sizeofInt offsetofCount sectionMax sizeofSection sizeofPointer
      omega]
    rfl
  rw [readInt, hb]
  rfl

theorem TableFits.le_size (h : TableFits size lib text s name k) : 516 ≤ size := by
  obtain ⟨_, _, -, -, hx⟩ := h.count
  exact inside_count.mp (hx _ count_mem_getsecAccesses)

/-- The block of `parse_rule_top` fits the table of no file. A block fits the table of a file
with at most 16 stanzas if and only if it has the size of an `apconf`, however few they are. -/
theorem tableFits_iff (lib : RegexLib) (text : Bytes) (s : Section) (name : CStr) (k : ℕ) :
    ¬ TableFits sizeofPointer lib text s name k ∧
      ∀ items size, Holds lib text items → (stanzas items).length = k → k ≤ sectionMax →
        (TableFits size lib text s name k ↔ 516 ≤ size) := by
  constructor
  · intro h
    exact absurd h.le_size (by decide)
  · rintro items size h rfl hk
    refine ⟨TableFits.le_size, fun hs => ⟨readInt_clearedBlock hs,
      inside_sectionAccesses hs (Nat.zero_le _), ?_⟩⟩
    obtain ⟨s', hp⟩ := parseRuleTop_holds h s
    rw [if_pos hk] at hp
    refine ⟨_, s', sectionAccesses_fst.trans hp, length_sectionsFrom _ _, ?_⟩
    exact inside_getsecAccesses hs (by rw [length_sectionsFrom, Nat.zero_add]; exact hk)

theorem tableFits_iff_complete :
    TableFits 516 RegexLib.posix completeText .zero (cstr "b") (stanzas completeItems).length :=
  ((tableFits_iff RegexLib.posix completeText .zero (cstr "b") _).2 completeItems 516
    (by decide +kernel) rfl (by decide)).mpr le_rfl

/-- The block that `parse_rule_top` takes ends before the count. -/
theorem block_too_short :
    Holds RegexLib.posix completeText completeItems ∧
      ¬ TableFits sizeofPointer RegexLib.posix completeText .zero (cstr "b")
        (stanzas completeItems).length := by
  constructor
  · decide +kernel
  · intro h
    exact absurd h.zero (by decide)

end ExactDaemon
