import Mathlib.Data.List.TakeWhile
import ExactDaemon.Conf.Entries
import ExactDaemon.Lib.Pieces

/-! # The grammar of the configuration file

What each line of the file is meant to define, and what `conffile_read` makes of the pieces
in which `fgets` returns it. The expression that takes a line apart does what is meant. The
rest does not: a line comes in pieces if it is long, the last byte of a piece is cut off
whether it is a newline or not, and a line of blanks defines a parameter without a name.
-/

namespace ExactDaemon

open Prog Rexp

/-- A space or a tab. -/
def isblank (c : UInt8) : Bool := c = 32 || c = 9

namespace Conf

/-- The parameter of a text without a comment: its name is what comes before the first blank,
and its value what follows the blanks. -/
def nameValue (text : CStr) : Param :=
  ⟨text.takeWhile (!isblank ·), (text.dropWhile (!isblank ·)).dropWhile isblank, false⟩

/-- The parameter that a line of the file is to define. -/
def lineSays (l : Bytes) : Option Param :=
  let text := zapComments l
  if text.all isblank then none else some (nameValue text)

/-- The lines of a file, the last of them what follows the last newline. -/
def textLines (text : Bytes) : List Bytes := lines newline text ++ [rest newline text]

/-- The parameters that a file is to define. -/
def textSays (text : Bytes) : List Param := (textLines text).filterMap lineSays

/-- The file without what follows the last newline. -/
def wholeLines (text : Bytes) : Bytes := (lines newline text).flatMap (· ++ [10])

/-- `conffile_read` appends to the parameters `ps` those of the lines, and nothing else. -/
def ReadsAsSaid (lib : RegexLib) (ps : List Param) (text : Bytes) : Prop :=
  ∀ w : World, w.conf.param = ps → w.fs.contents w.conf.filename = some text →
    (conffileRead lib).run w = .done () (w.withParam (ps ++ textSays text))

/-- How many bytes of a line the first piece leaves, when one byte of it is cut off. -/
def kept (w e : Bytes) : ℕ := min 1021 ((w ++ e).length - 1)

/-- What a line has to look like to be read as it is meant: every piece but the first is one
byte long or begins with a comment; a line that defines nothing is empty but for a comment;
and a parameter is within the first piece, except for the blanks in front of no value. -/
structure LineReads (w e : Bytes) : Prop where
  later : ∀ k, 0 < k →
    ((w ++ e).drop (1022 * k)).length ≤ 1 ∨ ((w ++ e).drop (1022 * k)).head? = some 35
  blank : lineSays w = none → zapComments w = [] ∨ kept w e = 0
  param : ∀ p, lineSays w = some p →
    (zapComments w).length ≤ kept w e ∨ (p.value = [] ∧ p.name.length ≤ kept w e)

/-- Every line of the file is read as it is meant. -/
structure TextReads (text : Bytes) : Prop where
  whole : ∀ w ∈ lines newline text, LineReads w [10]
  last : LineReads (rest newline text) []

/-- A name and a value that a line can hold. -/
structure Writable (x : CStr × CStr) : Prop where
  name_ne : x.1 ≠ []
  name : ∀ c ∈ x.1, c ≠ 0 ∧ c ≠ 10 ∧ c ≠ 35 ∧ isblank c = false
  value : ∀ c ∈ x.2, c ≠ 0 ∧ c ≠ 10 ∧ c ≠ 35
  head : ∀ c ∈ x.2.head?, isblank c = false

/-- The line of an entry. -/
def lineOf (x : CStr × CStr) : Bytes := x.1 ++ 32 :: x.2

def textOf (xs : List (CStr × CStr)) : Bytes := (xs.map lineOf).flatMap (· ++ [10])

/-- `conffile_param` returns the entries of the file that `conffile_read` has read. -/
def ReadsBack (lib : RegexLib) (xs : List (CStr × CStr)) : Prop :=
  ∀ w : World, w.conf.param = [] → w.fs.contents w.conf.filename = some (textOf xs) →
    ((conffileRead lib).run w).Returns fun _ u => ∀ x ∈ xs, u.conffileParam x.1 = some x.2

/-- The line of the entry is not too long. -/
def EntryFits (x : CStr × CStr) : Prop :=
  x.1.length ≤ 1021 ∧ (x.2 = [] ∨ x.1.length + 1 + x.2.length ≤ 1021)

/-- The parameter that is taken from a piece. -/
def pieceSays (s : Bytes) : Option Param :=
  let text := zapComments s.dropLast
  if text = [] then none else some (nameValue text)

/-- The parameters that are taken from the pieces of a text. -/
def piecesSay (text : Bytes) : List Param := (pieces 1021 text).filterMap pieceSays

end Conf

open Conf

variable {lib : RegexLib} {w e s t text : Bytes} {f : Reader} {n : ℕ}

/-! ### The expression -/

theorem copyGroup_spans {m : Regmatch} {v : CStr} (h : m.Spans s v) : copyGroup s m = .ok v := by
  have hspan := h.span
  obtain ⟨a, c, -, hso, heo⟩ := h.split
  rw [copyGroup, if_pos (by omega), hspan]

def nonBlanks : ByteSet := ⟨[(9, 9), (32, 32)], true⟩
def blanks : ByteSet := ⟨[(32, 32), (9, 9)], false⟩

def conffileRexp : Rexp :=
  cat (group 1 (many nonBlanks)) (cat (many blanks) (group 2 (many .any)))

theorem parse_conffileRx : parse false conffileRx = some conffileRexp := by decide

/-- The library treats the expression of `conffile_read` as POSIX has it. -/
def RegexLib.ReadsLines (lib : RegexLib) : Prop := lib.ConformsTo conffileRx false conffileRexp

theorem mem_blanks (c : UInt8) : blanks.mem c = isblank c := by
  rw [Bool.eq_iff_iff, blanks, ByteSet.mem_pair]
  simp [isblank]

theorem mem_nonBlanks (c : UInt8) : nonBlanks.mem c = !isblank c := by
  rw [Bool.eq_iff_iff, nonBlanks, ByteSet.mem_negated, ByteSet.mem_pair]
  simp [isblank, and_comm]

theorem head?_dropWhile {p : UInt8 → Bool} (l : Bytes) :
    ∀ c ∈ (l.dropWhile p).head?, p c = false := by
  intro c hc
  have h := List.head?_dropWhile_not p l
  rw [hc] at h
  exact h

/-- The first part takes all up to a blank, and the second all blanks. -/
theorem exec_conffileRexp (text : CStr) :
    ∃ pm, conffileRexp.exec text = .ok pm ∧ (pm 1).Spans text (nameValue text).name ∧
      (pm 2).Spans text (nameValue text).value := by
  have hsplit : text.takeWhile (!isblank ·) ++ text.dropWhile (!isblank ·) = text :=
    List.takeWhile_append_dropWhile
  have hname : ∀ c ∈ text.takeWhile (!isblank ·), nonBlanks.mem c := fun c hc => by
    rw [mem_nonBlanks]
    exact List.mem_takeWhile_imp (p := (!isblank ·)) hc
  have hafter : ∀ c ∈ (text.dropWhile (!isblank ·)).head?, nonBlanks.mem c = false :=
    fun c hc => by rw [mem_nonBlanks, head?_dropWhile text c hc]
  unfold nameValue
  dsimp only
  generalize text.takeWhile (!isblank ·) = name at hsplit hname
  generalize text.dropWhile (!isblank ·) = after at hsplit hafter
  have hsplit' : after.takeWhile isblank ++ after.dropWhile isblank = after :=
    List.takeWhile_append_dropWhile
  have hgap : ∀ c ∈ after.takeWhile isblank, blanks.mem c := fun c hc => by
    rw [mem_blanks]
    exact List.mem_takeWhile_imp hc
  have hvalue : ∀ c ∈ (after.dropWhile isblank).head?, blanks.mem c = false := fun c hc => by
    rw [mem_blanks, head?_dropWhile after c hc]
  generalize after.takeWhile isblank = gap at hsplit' hgap
  generalize after.dropWhile isblank = value at hsplit' hvalue
  subst hsplit' hsplit
  have hrest := Captures.many_cat_head (i := name.length) (p := blanks) (r := many blanks)
    (g := record 1 0 name (record 0 0 (name ++ (gap ++ value)) fun _ => .unmatched)) rfl
    (captures_many hgap) hvalue (Captures.group (n := 2) (captures_many (p := .any) fun c _ => rfl))
  have hwhole := Captures.many_cat_head (i := 0) (p := nonBlanks) (r := group 1 (many nonBlanks))
    rfl (Captures.group (captures_many hname)) hafter (by rw [Nat.zero_add]; exact hrest)
  have hexec := exec_whole (Captures.group hwhole)
  refine ⟨_, hexec, ⟨[], gap ++ value, ?_, ?_, ?_⟩, ⟨name ++ gap, [], ?_, ?_, ?_⟩⟩
  all_goals simp [record]

/-- A piece is taken apart as a line is meant to be. -/
theorem lineParam_piece (hlib : lib.ReadsLines) (hs : s ≠ []) (hnul : 0 ∉ s) :
    lineParam lib s = .ok (pieceSays s) := by
  have hstr : s.takeWhile (· ≠ 0) = s := by
    rw [List.takeWhile_eq_self_iff]
    exact fun c hc => decide_eq_true fun h0 => hnul (h0 ▸ hc)
  unfold lineParam pieceSays
  rw [hstr]
  dsimp only
  rw [if_neg hs]
  generalize htext : zapComments s.dropLast = text
  by_cases h : text = []
  · rw [if_pos h, if_pos h]
  have htext0 : 0 ∉ text := fun h0 => by
    rw [← htext] at h0
    exact hnul (List.mem_of_mem_dropLast ((List.takeWhile_prefix _).subset h0))
  obtain ⟨pm, hexec, hname, hvalue⟩ := exec_conffileRexp text
  rw [if_neg h, if_neg h, hlib.regcomp]
  dsimp only
  rw [hlib.regexec text htext0, hexec]
  dsimp only
  rw [if_pos ⟨hname.matched.1, hname.matched.2, hvalue.matched.1, hvalue.matched.2⟩,
    copyGroup_spans hname, copyGroup_spans hvalue]
  rfl

/-! ### The pieces of a file -/

theorem piecesSay_of_ne_nil (h : t ≠ []) :
    piecesSay t = (pieceSays ((firstLine t).take 1022)).toList ++
      piecesSay (t.drop ((firstLine t).take 1022).length) := by
  rw [piecesSay, pieces_of_ne_nil h, List.filterMap_cons]
  cases pieceSays ((firstLine t).take (1021 + 1)) <;> rfl

/-- The parameters of a file are those of its pieces, and no line stops the program. -/
theorem entries_piecesSay (hlib : lib.ReadsLines) (hnul : 0 ∉ f.rest) (hn : f.rest.length < n) :
    Conf.entries lib n f = (piecesSay f.rest, none) := by
  induction n generalizing f with
  | zero => omega
  | succ n ih =>
    by_cases hr : f.rest = []
    · have hnone : (f.fgets 1023).1 = none := by
        unfold Reader.fgets
        rw [if_pos hr]
      rw [entries_none hnone, hr, piecesSay, pieces_nil]
      rfl
    obtain ⟨eof, hf⟩ := fgets_pieces (m := 1021) hr
    have hne : (firstLine f.rest).take 1022 ≠ [] := by
      rw [Ne, List.take_eq_nil_iff]
      exact fun h => h.elim (by decide) (firstLine_ne_nil hr)
    have hlt : (f.rest.drop ((firstLine f.rest).take 1022).length).length < n := by
      have hpos := List.length_pos_iff.mpr hne
      have hrest := List.length_pos_iff.mpr hr
      rw [List.length_drop]
      omega
    have hl := lineParam_piece hlib hne fun h0 =>
      hnul (firstLine_subset _ (List.mem_of_mem_take h0))
    have hrest := ih (f := ⟨f.rest.drop ((firstLine f.rest).take 1022).length, eof⟩)
      (fun h0 => hnul (List.mem_of_mem_drop h0)) hlt
    rw [piecesSay_of_ne_nil hr]
    cases hp : pieceSays ((firstLine f.rest).take 1022) with
    | none =>
      rw [entries_skip hf (hl.trans (congrArg Except.ok hp)), hrest]
      rfl
    | some p =>
      rw [entries_cons hf (hl.trans (congrArg Except.ok hp)), hrest]
      rfl

/-- The pieces of a line do not depend on what follows it. -/
theorem piecesSay_append (h : Unbroken newline w) (l : Bytes) :
    piecesSay (w ++ 10 :: l) = piecesSay (w ++ [10]) ++ piecesSay l := by
  rw [piecesSay, pieces_append h, List.filterMap_append]
  rfl

theorem piecesSay_lines (text : Bytes) :
    piecesSay text = (lines newline text).flatMap (fun w => piecesSay (w ++ [10])) ++
      piecesSay (rest newline text) := by
  induction text using lines_induction (p := newline) with
  | unbroken l h => rw [lines_unbroken h, rest_unbroken h, List.flatMap_nil, List.nil_append]
  | line w a l hw ha ih =>
    obtain rfl : a = 10 := of_decide_eq_true ha
    rw [piecesSay_append hw, lines_append_cons hw ha, rest_append_cons hw ha, List.flatMap_cons,
      List.append_assoc, ← ih]

theorem textSays_lines (text : Bytes) :
    textSays text = (lines newline text).flatMap (fun w => (lineSays w).toList) ++
      (lineSays (rest newline text)).toList := by
  rw [textSays, textLines, List.filterMap_append, List.filterMap_eq_flatMap_toList]
  cases h : lineSays (rest newline text) <;> simp [h]

/-! ### A line that is cut -/

theorem length_name_add (t : CStr) :
    (nameValue t).name.length + (nameValue t).value.length ≤ t.length := by
  have hsplit := congrArg List.length
    (List.takeWhile_append_dropWhile (p := (!isblank ·)) (l := t))
  have hvalue := (List.dropWhile_suffix (l := t.dropWhile (!isblank ·)) isblank).length_le
  rw [List.length_append] at hsplit
  unfold nameValue
  dsimp only
  omega

theorem dropWhile_take {p : UInt8 → Bool} (l : Bytes) (k : ℕ) :
    (l.take k).dropWhile p = (l.dropWhile p).take (k - (l.length - (l.dropWhile p).length)) := by
  induction l generalizing k with
  | nil => simp
  | cons c l ih =>
    cases k with
    | zero => simp
    | succ k =>
      have hle := (List.dropWhile_suffix (l := l) p).length_le
      rw [List.take_succ_cons, List.dropWhile_cons, List.dropWhile_cons]
      split
      · rw [ih, List.length_cons]
        congr 1
        omega
      · rw [Nat.sub_self, Nat.sub_zero, List.take_succ_cons]

/-- The parameter of the beginning of a text. -/
theorem nameValue_take (t : CStr) (k : ℕ) :
    nameValue (t.take k) = ⟨(nameValue t).name.take k,
      (nameValue t).value.take (k - (t.length - (nameValue t).value.length)), false⟩ := by
  have hafter := (List.dropWhile_suffix (l := t) (!isblank ·)).length_le
  have hvalue := (List.dropWhile_suffix (l := t.dropWhile (!isblank ·)) isblank).length_le
  unfold nameValue
  rw [List.take_takeWhile, dropWhile_take, dropWhile_take]
  dsimp only
  congr 2
  omega

theorem nameValue_take_eq_iff (t : CStr) (k : ℕ) :
    nameValue (t.take k) = nameValue t ↔
      t.length ≤ k ∨ ((nameValue t).value = [] ∧ (nameValue t).name.length ≤ k) := by
  have hlen := length_name_add t
  rw [nameValue_take, ← List.length_eq_zero_iff]
  constructor
  · intro h
    have hname := List.take_eq_self_iff _ |>.mp (congrArg Param.name h)
    have hvalue := List.take_eq_self_iff _ |>.mp (congrArg Param.value h)
    omega
  · intro h
    have hname : (nameValue t).name.take k = (nameValue t).name :=
      List.take_of_length_le (by omega)
    have hvalue : (nameValue t).value.take (k - (t.length - (nameValue t).value.length)) =
        (nameValue t).value := List.take_of_length_le (by omega)
    rw [hname, hvalue]
    rfl

/-- A text without a name and a value is one of blanks. -/
theorem all_isblank {t : CStr} (h : nameValue t = nameValue []) : t.all isblank = true := by
  have hname : t.takeWhile (!isblank ·) = [] := congrArg Param.name h
  have hvalue : (t.dropWhile (!isblank ·)).dropWhile isblank = [] := congrArg Param.value h
  have hself : t.dropWhile (!isblank ·) = t := by
    have hsplit := List.takeWhile_append_dropWhile (p := (!isblank ·)) (l := t)
    rwa [hname, List.nil_append] at hsplit
  rw [hself, List.dropWhile_eq_nil_iff] at hvalue
  exact List.all_eq_true.mpr hvalue

/-- What the first piece of a line keeps of its text. -/
theorem zapComments_first (h : LineEnd w e) :
    zapComments ((w ++ e).take 1022).dropLast = (zapComments w).take (kept w e) := by
  have hle : kept w e ≤ w.length := by
    unfold kept
    rw [List.length_append]
    rcases h.ending with rfl | rfl
    · exact (Nat.min_le_right _ _).trans (by simp)
    · exact (Nat.min_le_right _ _).trans (by simp)
  have hkept : min ((List.take 1022 (w ++ e)).length - 1) 1022 = kept w e := by
    unfold kept
    rw [List.length_take]
    omega
  rw [List.dropLast_eq_take, List.take_take, hkept, List.take_append_of_le_length hle]
  exact List.take_takeWhile.symm

theorem pieceSays_first (h : LineEnd w e) :
    pieceSays ((w ++ e).take 1022) =
      if (zapComments w).take (kept w e) = [] then none
      else some (nameValue ((zapComments w).take (kept w e))) := by
  rw [pieceSays, zapComments_first h]

/-- The first piece defines what the line says. -/
theorem pieceSays_first_iff (h : LineEnd w e) :
    pieceSays ((w ++ e).take 1022) = lineSays w ↔
      (lineSays w = none → zapComments w = [] ∨ kept w e = 0) ∧
      ∀ p, lineSays w = some p →
        (zapComments w).length ≤ kept w e ∨ (p.value = [] ∧ p.name.length ≤ kept w e) := by
  rw [pieceSays_first h, lineSays]
  generalize zapComments w = t
  generalize kept w e = k
  by_cases hblank : t.all isblank = true
  · have hnil : (if t.take k = [] then none else some (nameValue (t.take k))) = none ↔
        t = [] ∨ k = 0 := by
      rw [or_comm, ← List.take_eq_nil_iff]
      split <;> simp [*]
    rw [if_pos hblank, hnil]
    exact ⟨fun h => ⟨fun _ => h, fun _ hp => by cases hp⟩, fun h => h.1 rfl⟩
  rw [if_neg hblank]
  constructor
  · intro hp
    split at hp
    · cases hp
    · refine ⟨fun hnone => (Option.some_ne_none _ hnone).elim, fun p hsome => ?_⟩
      obtain rfl := Option.some.inj hsome
      exact (nameValue_take_eq_iff t k).mp (Option.some.inj hp)
  · rintro ⟨-, hp⟩
    have heq := (nameValue_take_eq_iff t k).mpr (hp _ rfl)
    rw [if_neg, heq]
    intro hnil
    rw [hnil] at heq
    exact hblank (all_isblank heq.symm)

theorem pieceSays_eq_none_iff : pieceSays s = none ↔ s.length ≤ 1 ∨ s.head? = some 35 := by
  have htext : pieceSays s = none ↔ zapComments s.dropLast = [] := by
    unfold pieceSays
    dsimp only
    split <;> simp [*]
  rw [htext]
  rcases s with _ | ⟨c, _ | ⟨d, s⟩⟩
  · simp [zapComments]
  · simp [zapComments]
  · rw [List.dropLast_cons_of_ne_nil (List.cons_ne_nil d s), zapComments, List.takeWhile_cons]
    by_cases hc : c = 35 <;> simp [hc]

/-- What a line defines, if it is not empty: the parameters of the first piece and of the
others. -/
theorem piecesSay_line (h : LineEnd w e) (hne : w ++ e ≠ []) :
    piecesSay (w ++ e) = (pieceSays ((w ++ e).take 1022)).toList ++
      piecesSay ((w ++ e).drop 1022) := by
  rw [piecesSay, h.pieces hne, List.filterMap_cons]
  cases pieceSays ((w ++ e).take (1021 + 1)) <;> rfl

theorem forall_drop_iff {P : Bytes → Prop} (t : Bytes) :
    (∀ k, P ((t.drop 1022).drop (1022 * k))) ↔ ∀ k, 0 < k → P (t.drop (1022 * k)) := by
  constructor
  · intro h k hk
    obtain ⟨k, rfl⟩ : ∃ j, k = j + 1 := ⟨k - 1, by omega⟩
    rw [Nat.mul_succ, Nat.add_comm, ← List.drop_drop]
    exact h k
  · intro h k
    rw [List.drop_drop, Nat.add_comm, ← Nat.mul_succ]
    exact h (k + 1) (Nat.succ_pos k)

/-- The pieces of a line define nothing: each of them is one byte long or begins with a
comment. -/
theorem piecesSay_eq_nil_iff (h : LineEnd w e) :
    piecesSay (w ++ e) = [] ↔ ∀ k, ((w ++ e).drop (1022 * k)).length ≤ 1 ∨
      ((w ++ e).drop (1022 * k)).head? = some 35 := by
  induction hn : (w ++ e).length using Nat.strongRecOn generalizing w e with
  | _ n ih =>
    by_cases hne : w ++ e = []
    · rw [hne]
      simp [piecesSay, pieces_nil]
    obtain ⟨w', e', hdrop, h'⟩ := h.drop 1022
    have hpos := List.length_pos_iff.mpr hne
    have hrest := ih (w' ++ e').length (by rw [← hdrop, List.length_drop]; omega) h' rfl
    have hfirst : pieceSays ((w ++ e).take 1022) = none ↔
        (w ++ e).length ≤ 1 ∨ (w ++ e).head? = some 35 := by
      rw [pieceSays_eq_none_iff, List.length_take, List.head?_take]
      simp
    rw [piecesSay_line h hne, List.append_eq_nil_iff, Option.toList_eq_nil_iff, hfirst, hdrop,
      hrest, ← hdrop,
      forall_drop_iff (P := fun t => t.length ≤ 1 ∨ t.head? = some 35)]
    constructor
    · rintro ⟨h₀, hk⟩ k
      rcases Nat.eq_zero_or_pos k with rfl | hpos
      · exact h₀
      · exact hk k hpos
    · exact fun hk => ⟨hk 0, fun k _ => hk k⟩

/-! ### One line -/

/-- A line with a newline that is to define a parameter defines one in its first piece. -/
theorem pieceSays_first_isSome (h : LineEnd w e) (he : 1 < (w ++ e).length)
    (hw : (lineSays w).isSome) : (pieceSays ((w ++ e).take 1022)).isSome := by
  rw [pieceSays_first h, if_neg]
  · rfl
  · rw [List.take_eq_nil_iff]
    rintro (hk | hz)
    · unfold kept at hk
      omega
    · rw [lineSays, hz] at hw
      cases hw

theorem LineEnd.later (h : LineEnd w e) :
    piecesSay ((w ++ e).drop 1022) = [] ↔ ∀ k, 0 < k → ((w ++ e).drop (1022 * k)).length ≤ 1 ∨
      ((w ++ e).drop (1022 * k)).head? = some 35 := by
  obtain ⟨w', e', hdrop, h'⟩ := h.drop 1022
  rw [hdrop, piecesSay_eq_nil_iff h', ← hdrop]
  exact forall_drop_iff (P := fun t => t.length ≤ 1 ∨ t.head? = some 35) (w ++ e)

/-- A line defines what it says if and only if it looks like this. -/
theorem piecesSay_eq_iff (h : LineEnd w e) :
    piecesSay (w ++ e) = (lineSays w).toList ↔ LineReads w e := by
  have hreads : LineReads w e ↔ pieceSays ((w ++ e).take 1022) = lineSays w ∧
      piecesSay ((w ++ e).drop 1022) = [] := by
    rw [pieceSays_first_iff h, h.later]
    exact ⟨fun hr => ⟨⟨hr.blank, hr.param⟩, hr.later⟩, fun ⟨⟨hb, hp⟩, hl⟩ => ⟨hl, hb, hp⟩⟩
  rw [hreads]
  by_cases hne : w ++ e = []
  · obtain ⟨rfl, rfl⟩ := List.append_eq_nil_iff.mp hne
    simp [piecesSay, pieces_nil, pieceSays, lineSays, zapComments]
  rw [piecesSay_line h hne]
  constructor
  · intro heq
    cases hp : pieceSays ((w ++ e).take 1022) with
    | some p =>
      rw [hp] at heq
      cases hl : lineSays w with
      | none =>
        rw [hl] at heq
        cases heq
      | some q =>
        rw [hl] at heq
        obtain ⟨rfl, hrest⟩ := List.cons.inj heq
        exact ⟨rfl, hrest⟩
    | none =>
      rw [hp, Option.toList_none, List.nil_append] at heq
      cases hl : lineSays w with
      | none =>
        rw [hl] at heq
        exact ⟨rfl, heq⟩
      | some q =>
        -- a line that loses its parameter is one byte long, and has no other piece
        have hlen : (w ++ e).length ≤ 1 := by
          by_contra hlen
          have hsome := pieceSays_first_isSome h (by omega) (by rw [hl]; rfl)
          rw [hp] at hsome
          cases hsome
        rw [List.drop_of_length_le (by omega), hl, piecesSay, pieces_nil] at heq
        cases heq
  · rintro ⟨hp, hl⟩
    rw [hp, hl, List.append_nil]

theorem lineReads_nil : LineReads [] [] := by
  rw [← piecesSay_eq_iff ⟨List.forall_mem_nil _, .inr rfl⟩, List.append_nil, piecesSay, pieces_nil]
  rfl

/-- A short line with a newline is read as it is meant, unless it consists of blanks. -/
theorem lineReads_short (h : w.length ≤ 1021) (hw : lineSays w = none → zapComments w = []) :
    LineReads w [10] := by
  have hkept : kept w [10] = w.length := by
    rw [kept, List.length_append, List.length_singleton]
    omega
  refine ⟨fun k hk => .inl ?_, fun hnone => .inl (hw hnone), fun p _ => .inl ?_⟩
  · rw [List.length_drop, List.length_append, List.length_singleton]
    omega
  · rw [hkept]
    exact (List.takeWhile_prefix _).length_le

/-- A line with a newline does not define less than it says. -/
theorem length_lineSays_le (h : Unbroken newline w) :
    (lineSays w).toList.length ≤ (piecesSay (w ++ [10])).length := by
  cases hl : lineSays w with
  | none => exact Nat.zero_le _
  | some p =>
    have hw : w ≠ [] := by
      rintro rfl
      cases hl
    have hpos := List.length_pos_iff.mpr hw
    have hend : LineEnd w [10] := ⟨h, .inl rfl⟩
    have hsome := pieceSays_first_isSome hend
      (by rw [List.length_append, List.length_singleton]; omega) (by rw [hl]; rfl)
    obtain ⟨q, hq⟩ := Option.isSome_iff_exists.mp hsome
    rw [piecesSay_line hend (by simp), hq, List.length_append]
    exact Nat.le_add_right 1 _

/-! ### The whole file -/

/-- Two lists are joined from the same parts, if no part of the one is longer. -/
theorem eq_of_flatMap_eq {ws : List Bytes} {g g' : Bytes → List Param}
    (hle : ∀ w ∈ ws, (g w).length ≤ (g' w).length) (h : ws.flatMap g' = ws.flatMap g) :
    ∀ w ∈ ws, g' w = g w := by
  have hlen : ∀ vs : List Bytes, (∀ w ∈ vs, (g w).length ≤ (g' w).length) →
      (vs.flatMap g).length ≤ (vs.flatMap g').length := by
    intro vs hvs
    induction vs with
    | nil => exact le_rfl
    | cons v vs ih =>
      obtain ⟨hv, hvs⟩ := List.forall_mem_cons.mp hvs
      rw [List.flatMap_cons, List.flatMap_cons, List.length_append, List.length_append]
      exact Nat.add_le_add hv (ih hvs)
  induction ws with
  | nil => exact List.forall_mem_nil _
  | cons w ws ih =>
    obtain ⟨hw, hws⟩ := List.forall_mem_cons.mp hle
    rw [List.flatMap_cons, List.flatMap_cons] at h
    have hsum := congrArg List.length h
    rw [List.length_append, List.length_append] at hsum
    have hrest := hlen ws hws
    obtain ⟨hw', hws'⟩ := List.append_inj h (by omega)
    exact List.forall_mem_cons.mpr ⟨hw', ih hws hws'⟩

theorem lineEnd_of_mem (h : w ∈ lines newline text) : LineEnd w [10] :=
  ⟨unbroken_of_mem_lines h, .inl rfl⟩

theorem lineEnd_rest (text : Bytes) : LineEnd (rest newline text) [] :=
  ⟨unbroken_rest text, .inr rfl⟩

theorem lines_wholeLines (text : Bytes) :
    lines newline (wholeLines text) = lines newline text ∧
      rest newline (wholeLines text) = [] :=
  lines_written (by decide) fun _ hw => unbroken_of_mem_lines hw

theorem piecesSay_wholeLines (text : Bytes) : piecesSay (wholeLines text) =
    (lines newline text).flatMap fun w => piecesSay (w ++ [10]) := by
  rw [piecesSay_lines, (lines_wholeLines text).1, (lines_wholeLines text).2, piecesSay,
    pieces_nil]
  exact List.append_nil _

theorem textSays_wholeLines (text : Bytes) :
    textSays (wholeLines text) = (lines newline text).flatMap fun w => (lineSays w).toList := by
  rw [textSays_lines, (lines_wholeLines text).1, (lines_wholeLines text).2]
  exact List.append_nil _

/-- A file, and its lines with a newline alone, define what they say if and only if every line
looks like this. -/
theorem textReads_iff (text : Bytes) :
    (piecesSay text = textSays text ∧
      piecesSay (wholeLines text) = textSays (wholeLines text)) ↔ TextReads text := by
  have hlast := piecesSay_eq_iff (lineEnd_rest text)
  rw [List.append_nil] at hlast
  rw [piecesSay_wholeLines, textSays_wholeLines, piecesSay_lines, textSays_lines]
  constructor
  · rintro ⟨hall, hwhole⟩
    rw [hwhole] at hall
    refine ⟨fun w hw => ?_, hlast.mp (List.append_cancel_left hall)⟩
    exact (piecesSay_eq_iff (lineEnd_of_mem hw)).mp (eq_of_flatMap_eq
      (fun w hw => length_lineSays_le (unbroken_of_mem_lines hw)) hwhole w hw)
  · intro h
    have hwhole : ((lines newline text).flatMap fun w => piecesSay (w ++ [10])) =
        (lines newline text).flatMap fun w => (lineSays w).toList :=
      List.flatMap_congr fun w hw => (piecesSay_eq_iff (lineEnd_of_mem hw)).mpr (h.whole w hw)
    rw [hwhole, hlast.mpr h.last]
    exact ⟨rfl, rfl⟩

/-! ### What conffile_read leaves -/

variable {ps : List Param}

/-- `conffile_read` of a file without NUL, if there is room. -/
theorem run_conffileRead (hlib : lib.ReadsLines) {w : World} (hnul : 0 ∉ text)
    (hfile : w.fs.contents w.conf.filename = some text)
    (hroom : Room w.conf.param (piecesSay text)) :
    (conffileRead lib).run w = .done () (w.withParam (w.conf.param ++ piecesSay text)) := by
  have hent : Conf.entries lib (text.length + 1) ⟨text, false⟩ = (piecesSay text, none) :=
    entries_piecesSay hlib hnul (Nat.lt_succ_self _)
  rw [conffileRead_of_file hfile, run_conffileLines (by rw [hent]) (by rw [hent]; exact hroom),
    hent]

theorem conffileRead_done (hlib : lib.ReadsLines) {w u : World} (hnul : 0 ∉ text)
    (hfile : w.fs.contents w.conf.filename = some text)
    (h : (conffileRead lib).run w = .done () u) :
    Room w.conf.param (piecesSay text) ∧
      u = w.withParam (w.conf.param ++ piecesSay text) := by
  have hent : Conf.entries lib (text.length + 1) ⟨text, false⟩ = (piecesSay text, none) :=
    entries_piecesSay hlib hnul (Nat.lt_succ_self _)
  have hlines := h
  rw [conffileRead_of_file hfile] at hlines
  have hroom := (conffileLines_done hlines).2
  rw [hent] at hroom
  rw [run_conffileRead hlib hnul hfile hroom] at h
  cases h
  exact ⟨hroom, rfl⟩

theorem readsAsSaid_iff (hlib : lib.ReadsLines) (hnul : 0 ∉ text) :
    ReadsAsSaid lib ps text ↔ piecesSay text = textSays text ∧ Room ps (textSays text) := by
  constructor
  · intro h
    have hfile : (((World.boot ps).withFile [] text).fs.contents
      ((World.boot ps).withFile [] text).conf.filename) = some text :=
      World.contents_withFile _ _ _
    obtain ⟨hroom, hu⟩ := conffileRead_done hlib hnul hfile (h _ rfl hfile)
    have hparam := congrArg (fun u : World => u.conf.param) hu
    have heq : textSays text = piecesSay text := List.append_cancel_left hparam
    exact ⟨heq.symm, heq ▸ hroom⟩
  · rintro ⟨heq, hroom⟩ w rfl hfile
    rw [run_conffileRead hlib hnul hfile (heq ▸ hroom), heq]

theorem not_mem_wholeLines (h : 0 ∉ text) : 0 ∉ wholeLines text := by
  induction text using lines_induction (p := newline) with
  | unbroken l hl =>
    rw [wholeLines, lines_unbroken hl]
    exact List.not_mem_nil
  | line w a l hw ha ih =>
    rw [List.mem_append, List.mem_cons, not_or, not_or] at h
    obtain ⟨h₁, h₂, h₃⟩ := h
    rw [wholeLines, lines_append_cons hw ha, List.flatMap_cons, List.mem_append, List.mem_append]
    rintro ((h0 | h0) | h0)
    · exact h₁ h0
    · cases List.mem_singleton.mp h0
    · exact ih h₃ h0

theorem Conf.Room.whole (h : Room ps (textSays text)) : Room ps (textSays (wholeLines text)) := by
  have hsub : textSays (wholeLines text) <+: textSays text := by
    rw [textSays_wholeLines, textSays_lines]
    exact List.prefix_append _ _
  intro hne
  have hle := h fun hnil => hne (List.prefix_nil.mp (hnil ▸ hsub))
  have hlen := hsub.length_le
  omega

/-! ### Writing and reading -/

variable {x : CStr × CStr} {xs : List (CStr × CStr)}

theorem nameValue_lineOf (h : Writable x) : nameValue (lineOf x) = ⟨x.1, x.2, false⟩ := by
  have hname : ∀ c ∈ x.1, (!isblank c) = true := fun c hc => by
    rw [(h.name c hc).2.2.2]
    rfl
  have hvalue : x.2.dropWhile isblank = x.2 := by
    cases hx : x.2 with
    | nil => rfl
    | cons c v =>
      have hc := h.head c (by rw [hx]; rfl)
      rw [List.dropWhile_cons, if_neg (by rw [hc]; exact Bool.false_ne_true)]
  unfold nameValue lineOf
  rw [List.takeWhile_append_of_pos hname, List.dropWhile_append_of_pos hname]
  rw [List.takeWhile_cons, List.dropWhile_cons, if_neg (by decide), if_neg (by decide),
    List.append_nil, List.dropWhile_cons, if_pos (by decide), hvalue]

theorem zapComments_lineOf (h : Writable x) : zapComments (lineOf x) = lineOf x := by
  rw [zapComments, List.takeWhile_eq_self_iff]
  intro c hc
  refine decide_eq_true ?_
  rcases List.mem_append.mp hc with hc | hc
  · exact (h.name c hc).2.2.1
  · rcases List.mem_cons.mp hc with rfl | hc
    · decide
    · exact (h.value c hc).2.2

theorem lineSays_lineOf (h : Writable x) : lineSays (lineOf x) = some ⟨x.1, x.2, false⟩ := by
  rw [lineSays, zapComments_lineOf h, if_neg, nameValue_lineOf h]
  intro hall
  obtain ⟨c, t, hx⟩ := List.exists_cons_of_ne_nil h.name_ne
  have hc : isblank c = true := List.all_eq_true.mp hall c (by simp [lineOf, hx])
  rw [(h.name c (by rw [hx]; exact List.mem_cons_self)).2.2.2] at hc
  cases hc

theorem lineEnd_lineOf (h : Writable x) : LineEnd (lineOf x) [10] := by
  refine ⟨fun c hc => decide_eq_false ?_, .inl rfl⟩
  rcases List.mem_append.mp hc with hc | hc
  · exact (h.name c hc).2.1
  · rcases List.mem_cons.mp hc with rfl | hc
    · decide
    · exact (h.value c hc).2.1

theorem length_lineOf (x : CStr × CStr) : (lineOf x).length = x.1.length + 1 + x.2.length := by
  rw [lineOf, List.length_append, List.length_cons]
  omega

theorem kept_lineOf (x : CStr × CStr) :
    kept (lineOf x) [10] = min 1021 (x.1.length + 1 + x.2.length) := by
  rw [kept, List.length_append, length_lineOf]
  rfl

/-- An entry that is not too long is read. -/
theorem lineReads_lineOf (h : Writable x) (hx : EntryFits x) : LineReads (lineOf x) [10] := by
  have hlen := length_lineOf x
  obtain ⟨hname, hvalue⟩ := hx
  constructor
  · intro k hk
    left
    rw [List.length_drop, List.length_append, List.length_singleton, hlen]
    rcases hvalue with hnil | hle
    · rw [hnil, List.length_nil]
      omega
    · omega
  · rw [lineSays_lineOf h]
    exact fun hnone => (Option.some_ne_none _ hnone).elim
  · rw [lineSays_lineOf h, zapComments_lineOf h, kept_lineOf, hlen]
    rintro p hp
    obtain rfl := Option.some.inj hp
    dsimp only
    rcases hvalue with hnil | hle
    · exact .inr ⟨hnil, by omega⟩
    · exact .inl (by omega)

/-- No name is longer than a piece. -/
theorem length_name_le {p : Param} (h : p ∈ piecesSay t) : p.name.length ≤ 1021 := by
  obtain ⟨s, hs, hp⟩ := List.mem_filterMap.mp h
  have hlen := length_of_mem_pieces hs
  unfold pieceSays at hp
  dsimp only at hp
  split at hp
  · cases hp
  · obtain rfl := Option.some.inj hp
    have hname := length_name_add (zapComments s.dropLast)
    have hcut := (List.takeWhile_prefix (l := s.dropLast) (· ≠ 35)).length_le
    rw [List.length_dropLast] at hcut
    change (zapComments s.dropLast).length ≤ s.length - 1 at hcut
    omega

theorem piecesSay_textOf (h : Writable x) (xs : List (CStr × CStr)) :
    piecesSay (textOf (x :: xs)) = piecesSay (lineOf x ++ [10]) ++ piecesSay (textOf xs) := by
  rw [textOf, List.map_cons, List.flatMap_cons, List.append_assoc, List.singleton_append,
    piecesSay_append (lineEnd_lineOf h).unbroken]
  rfl

/-- The first parameter with the name. -/
def Conf.find (ps : List Param) (name : CStr) : Option Param :=
  ps.find? fun p => strcmp name p.name = 0

theorem find_append (ps qs : List Param) (name : CStr) :
    find (ps ++ qs) name = (find ps name).or (find qs name) := List.find?_append

theorem find_eq_none {ps : List Param} {name : CStr} (h : ∀ p ∈ ps, p.name ≠ name) :
    find ps name = none := by
  rw [find, List.find?_eq_none]
  intro p hp
  simpa [strcmp_eq_zero] using (h p hp).symm

theorem find_cons_of_eq {p : Param} (ps : List Param) : find (p :: ps) p.name = some p := by
  rw [find, List.find?_cons_of_pos (by simp)]

theorem name_of_find {ps : List Param} {name : CStr} {p : Param} (h : find ps name = some p) :
    p ∈ ps ∧ p.name = name := by
  have hcmp := List.find?_some (p := fun p : Param => strcmp name p.name = 0) h
  exact ⟨List.mem_of_find?_eq_some h, (strcmp_eq_zero.mp (of_decide_eq_true hcmp)).symm⟩

/-- What the first piece of the line of an entry defines. -/
theorem pieceSays_lineOf (h : Writable x) :
    pieceSays ((lineOf x ++ [10]).take 1022) =
      some ⟨x.1.take (kept (lineOf x) [10]),
        x.2.take (kept (lineOf x) [10] - (x.1.length + 1)), false⟩ := by
  have hlen := length_lineOf x
  rw [pieceSays_first (lineEnd_lineOf h), zapComments_lineOf h, nameValue_take, nameValue_lineOf h,
    hlen, Nat.add_sub_cancel, if_neg]
  rw [kept_lineOf, List.take_eq_nil_iff, ← List.length_eq_zero_iff]
  omega

/-- An entry is found in what its line defines only if it is not too long. -/
theorem entryFits_of_first {ps : List Param} (h : Writable x)
    (hps : ∀ p ∈ ps, p.name.length ≤ 1021)
    (hvalue : (find (piecesSay (lineOf x ++ [10]) ++ ps) x.1).map (·.value) = some x.2) :
    EntryFits x := by
  have hname : x.1.length ≤ 1021 := by
    obtain ⟨p, hp, -⟩ := Option.map_eq_some_iff.mp hvalue
    obtain ⟨hmem, heq⟩ := name_of_find hp
    rw [← heq]
    rcases List.mem_append.mp hmem with hmem | hmem
    · exact length_name_le hmem
    · exact hps p hmem
  have hkept := kept_lineOf x
  have htake : x.1.take (kept (lineOf x) [10]) = x.1 := List.take_of_length_le (by omega)
  rw [piecesSay_line (lineEnd_lineOf h) (by simp), pieceSays_lineOf h, htake, Option.toList_some,
    List.singleton_append, List.cons_append, find_cons_of_eq
      (p := ⟨x.1, x.2.take (kept (lineOf x) [10] - (x.1.length + 1)), false⟩)] at hvalue
  have hle := (List.take_eq_self_iff x.2).mp (Option.some.inj hvalue)
  refine ⟨hname, ?_⟩
  rcases Nat.eq_zero_or_pos x.2.length with hzero | hpos
  · exact .inl (List.length_eq_zero_iff.mp hzero)
  · exact .inr (by omega)

/-- The entries are found again behind other parameters only if they are not too long. -/
theorem entryFits_of_find {ps : List Param} (h : ∀ x ∈ xs, Writable x)
    (hxs : (xs.map Prod.fst).Nodup) (hps : ∀ p ∈ ps, ∀ x ∈ xs, p.name ≠ x.1)
    (hfind : ∀ x ∈ xs,
      (find (ps ++ piecesSay (textOf xs)) x.1).map (·.value) = some x.2) :
    ∀ x ∈ xs, EntryFits x := by
  induction xs generalizing ps with
  | nil => exact List.forall_mem_nil _
  | cons x xs ih =>
    obtain ⟨hx, hwritable⟩ := List.forall_mem_cons.mp h
    rw [List.map_cons, List.nodup_cons] at hxs
    rw [piecesSay_textOf hx] at hfind
    have hskip : find ps x.1 = none :=
      find_eq_none fun p hp => hps p hp x List.mem_cons_self
    have hfit : EntryFits x := by
      have hvalue := hfind x List.mem_cons_self
      rw [find_append, hskip, Option.none_or] at hvalue
      exact entryFits_of_first hx (fun p => length_name_le) hvalue
    have hps' : ∀ p ∈ ps ++ [⟨x.1, x.2, false⟩], ∀ y ∈ xs, p.name ≠ y.1 := by
      intro p hp y hy
      rcases List.mem_append.mp hp with hp | hp
      · exact hps p hp y (List.mem_cons_of_mem x hy)
      · obtain rfl := List.mem_singleton.mp hp
        exact fun heq => hxs.1 (List.mem_map.mpr ⟨y, hy, heq.symm⟩)
    refine List.forall_mem_cons.mpr ⟨hfit, ih hwritable hxs.2 hps' ?_⟩
    · intro y hy
      have hy' := hfind y (List.mem_cons_of_mem x hy)
      rwa [(piecesSay_eq_iff (lineEnd_lineOf hx)).mpr (lineReads_lineOf hx hfit),
        lineSays_lineOf hx, Option.toList_some, ← List.append_assoc] at hy'

/-- The parameters of a list of entries. -/
def Conf.paramsOf (xs : List (CStr × CStr)) : List Param := xs.map fun x => ⟨x.1, x.2, false⟩

theorem lines_textOf (h : ∀ x ∈ xs, Writable x) :
    lines newline (textOf xs) = xs.map lineOf ∧ rest newline (textOf xs) = [] := by
  refine lines_written (by decide) fun w hw => ?_
  obtain ⟨x, hx, rfl⟩ := List.mem_map.mp hw
  exact (lineEnd_lineOf (h x hx)).unbroken

theorem textSays_textOf (h : ∀ x ∈ xs, Writable x) : textSays (textOf xs) = paramsOf xs := by
  obtain ⟨hlines, hrest⟩ := lines_textOf h
  rw [textSays_lines, hlines, hrest, List.flatMap_map]
  rw [List.flatMap_congr fun x hx => congrArg Option.toList (lineSays_lineOf (h x hx))]
  rw [show (lineSays []).toList = [] from rfl, List.append_nil, paramsOf]
  exact List.flatMap_pure_eq_map _ xs

theorem not_mem_textOf (h : ∀ x ∈ xs, Writable x) : 0 ∉ textOf xs := by
  intro h0
  obtain ⟨w, hw, h0⟩ := List.mem_flatMap.mp h0
  obtain ⟨x, hx, rfl⟩ := List.mem_map.mp hw
  rcases List.mem_append.mp h0 with h0 | h0
  · rcases List.mem_append.mp h0 with h0 | h0
    · exact ((h x hx).name 0 h0).1 rfl
    · rcases List.mem_cons.mp h0 with h0 | h0
      · cases h0
      · exact ((h x hx).value 0 h0).1 rfl
  · cases List.mem_singleton.mp h0

theorem find_paramsOf (hxs : (xs.map Prod.fst).Nodup) :
    ∀ x ∈ xs, (find (paramsOf xs) x.1).map (·.value) = some x.2 := by
  induction xs with
  | nil => exact List.forall_mem_nil _
  | cons x xs ih =>
    rw [List.map_cons, List.nodup_cons] at hxs
    refine List.forall_mem_cons.mpr ⟨?_, fun y hy => ?_⟩
    · exact congrArg (Option.map (·.value)) (find_cons_of_eq (p := ⟨x.1, x.2, false⟩) _)
    · have hne : x.1 ≠ y.1 := fun heq => hxs.1 (List.mem_map.mpr ⟨y, hy, heq.symm⟩)
      have hcons : find (paramsOf (x :: xs)) y.1 = find (paramsOf xs) y.1 := by
        rw [paramsOf, List.map_cons, find, List.find?_cons_of_neg]
        · rfl
        · simpa [strcmp_eq_zero] using hne.symm
      rw [hcons]
      exact ih hxs.2 y hy

/-- Entries with different names that fit the table are read back if and only if none of them
is too long. -/
theorem readsBack_iff (hlib : lib.ReadsLines) (h : ∀ x ∈ xs, Writable x)
    (hxs : (xs.map Prod.fst).Nodup) (hmax : xs.length ≤ paramSize) :
    ReadsBack lib xs ↔ ∀ x ∈ xs, EntryFits x := by
  constructor
  · intro hback
    have hfile : (((World.boot []).withFile [] (textOf xs)).fs.contents
      ((World.boot []).withFile [] (textOf xs)).conf.filename) = some (textOf xs) :=
      World.contents_withFile _ _ _
    obtain ⟨a, u, hu, hfind⟩ := Outcome.returns_iff.mp (hback _ rfl hfile)
    obtain ⟨-, rfl⟩ := conffileRead_done hlib (not_mem_textOf h) hfile hu
    exact entryFits_of_find h hxs (List.forall_mem_nil _) hfind
  · intro hfit w hw hfile
    have heq : piecesSay (textOf xs) = textSays (textOf xs) := by
      obtain ⟨hlines, hrest⟩ := lines_textOf h
      refine ((textReads_iff _).mpr ⟨?_, ?_⟩).1
      · rw [hlines]
        intro w hw
        obtain ⟨x, hx, rfl⟩ := List.mem_map.mp hw
        exact lineReads_lineOf (h x hx) (hfit x hx)
      · rw [hrest]
        exact lineReads_nil
    rw [textSays_textOf h] at heq
    have hroom : Room w.conf.param (piecesSay (textOf xs)) := by
      intro _
      rw [hw, heq, paramsOf, List.length_map, List.length_nil]
      omega
    rw [run_conffileRead hlib (not_mem_textOf h) hfile hroom, hw, heq]
    exact find_paramsOf hxs

/-- A file without NUL, and its lines with a newline alone, are read as their lines say if and
only if every line looks like `LineReads` and there is room for what they define. Entries that
are written as lines are read back if and only if they are not too long. -/
theorem readsAsLinesSay_iff (hlib : lib.ReadsLines) :
    (∀ ps text, 0 ∉ text →
      ((ReadsAsSaid lib ps text ∧ ReadsAsSaid lib ps (wholeLines text)) ↔
        TextReads text ∧ Room ps (textSays text))) ∧
    ∀ xs, (∀ x ∈ xs, Writable x) → (xs.map Prod.fst).Nodup → xs.length ≤ paramSize →
      (ReadsBack lib xs ↔ ∀ x ∈ xs, EntryFits x) := by
  refine ⟨fun ps text hnul => ?_, fun xs => readsBack_iff hlib⟩
  rw [readsAsSaid_iff hlib hnul, readsAsSaid_iff hlib (not_mem_wholeLines hnul), ← textReads_iff]
  constructor
  · rintro ⟨⟨h, hroom⟩, h', -⟩
    exact ⟨⟨h, h'⟩, hroom⟩
  · rintro ⟨⟨h, h'⟩, hroom⟩
    exact ⟨⟨h, hroom⟩, h', hroom.whole⟩

/-- An empty line and a comment between two parameters. -/
def plainLines : Bytes := cstr "timeout \t 60# seconds\n\n# flush\nflush 9\n"

theorem readsAsLinesSay_iff_plain :
    ReadsAsSaid RegexLib.posix [] plainLines ∧
      ReadsBack RegexLib.posix [(cstr "timeout", cstr "60"), (cstr "flush", [])] := by
  have h := readsAsLinesSay_iff (RegexLib.conforms_posix.conformsTo parse_conffileRx)
  have hshort : ∀ w ∈ lines newline plainLines,
      w.length ≤ 1021 ∧ (lineSays w = none → zapComments w = []) := by decide +kernel
  have hlast : rest newline plainLines = [] := by decide +kernel
  have hroom : Room [] (textSays plainLines) := fun _ => by decide +kernel
  refine ⟨((h.1 [] plainLines (by decide)).mpr ⟨⟨fun w hw => ?_, ?_⟩, hroom⟩).1,
    (h.2 _ ?_ (by decide) (by decide)).mpr ?_⟩
  · exact lineReads_short (hshort w hw).1 (hshort w hw).2
  · rw [hlast]
    exact lineReads_nil
  · intro x hx
    rcases List.mem_cons.mp hx with rfl | hx
    · exact ⟨by decide, by decide +kernel, by decide +kernel, by decide +kernel⟩
    · obtain rfl := List.mem_singleton.mp hx
      exact ⟨by decide, by decide +kernel, by decide +kernel, by decide +kernel⟩
  · unfold EntryFits
    decide

/-- The last line of a file without a newline loses a byte. -/
theorem reads_short :
    (0 : UInt8) ∉ cstr "timeout 60" ∧ ¬ ReadsAsSaid RegexLib.posix [] (cstr "timeout 60") := by
  refine ⟨by decide, fun h => ?_⟩
  have hrun := h ((World.boot []).withFile [] (cstr "timeout 60")) rfl
    (World.contents_withFile _ _ _)
  have hparam : ((conffileRead RegexLib.posix).run
      ((World.boot []).withFile [] (cstr "timeout 60"))).state.conf.param =
        [⟨cstr "timeout", cstr "6", false⟩] := by decide +kernel
  rw [hrun] at hparam
  exact absurd hparam (by decide)

end ExactDaemon
