import Mathlib.Data.List.Forall2
import TopDownGrammar.Proofs.Readings

/-! What a text is made of, said without the functions that cut it. Pieces stand between separators, words
between blanks, and a line may have one arrow. Each of these can be told of a text in one way only, so the
functions that cut it find what there is. -/

namespace TopDownGrammar

namespace Text

variable {c mark : Char} {text gap rest core : List Char} {pieces : List (List Char)}

def Blank (text : List Char) : Prop :=
  ∀ c ∈ text, isBlank c = true

instance (text : List Char) : Decidable (Blank text) :=
  inferInstanceAs (Decidable (∀ c ∈ text, isBlank c = true))

theorem blank_iff : text.all isBlank = true ↔ Blank text := List.all_eq_true

/-- The pieces with a mark between every two of them are the text, and there is no other mark. -/
structure Joined (mark : Char) (pieces : List (List Char)) (text : List Char) : Prop where
  some : pieces ≠ []
  free : ∀ piece ∈ pieces, mark ∉ piece
  text : [mark].intercalate pieces = text

theorem Joined.cut (joined : Joined mark pieces rest) : Joined mark ([] :: pieces) (mark :: rest) := by
  obtain ⟨piece, others, rfl⟩ := List.exists_cons_of_ne_nil joined.some
  refine ⟨by simp, ?_, ?_⟩
  · intro other member
    rcases List.mem_cons.mp member with rfl | inside
    · exact List.not_mem_nil
    · exact joined.free other inside
  · rw [List.intercalate_cons_cons, joined.text]
    rfl

private theorem Joined.extend (joined : Joined mark pieces rest) (different : c ≠ mark) :
    Joined mark (pieces.modifyHead (c :: ·)) (c :: rest) := by
  obtain ⟨piece, others, rfl⟩ := List.exists_cons_of_ne_nil joined.some
  refine ⟨by simp, ?_, ?_⟩
  · intro other member
    rcases List.mem_cons.mp member with rfl | inside
    · simpa [different.symm] using joined.free piece List.mem_cons_self
    · exact joined.free other (List.mem_cons_of_mem _ inside)
  · rw [← joined.text]
    cases others <;> simp [List.intercalate_cons_cons]

theorem joined_split (mark : Char) (text : List Char) : Joined mark (split (· == mark) text) text := by
  induction text with
  | nil => exact ⟨by simp [split], by simp [split], by simp [split]⟩
  | cons c rest ih =>
    unfold split
    split
    next same => exact eq_of_beq same ▸ ih.cut
    next different => exact ih.extend (by simpa using different)

theorem split_eq_iff : split (· == mark) text = pieces ↔ Joined mark pieces text := by
  constructor
  · intro same
    exact same ▸ joined_split mark text
  · intro joined
    rw [← joined.text]
    exact split_intercalate joined.some joined.free

theorem Joined.within (joined : Joined mark pieces text) {piece : List Char} (member : piece ∈ pieces) :
    piece <:+: text := by
  rw [← joined.text]
  clear joined
  induction pieces with
  | nil => cases member
  | cons first others ih =>
    cases others with
    | nil =>
      obtain rfl := List.mem_singleton.mp member
      simp
    | cons second others =>
      rw [List.intercalate_cons_cons, List.append_assoc]
      rcases List.mem_cons.mp member with rfl | inside
      · exact (List.prefix_append _ _).isInfix
      · exact (ih inside).trans ((List.suffix_append _ _).trans (List.suffix_append _ _)).isInfix

private theorem exists_run (kind : Char → Bool) (text : List Char) : ∃ run rest, text = run ++ rest ∧
    (∀ c ∈ run, kind c = true) ∧ ∀ c ∈ rest.head?, kind c = false := by
  induction text with
  | nil => exact ⟨[], [], rfl, by simp, by simp⟩
  | cons c text ih =>
    cases here : kind c with
    | false => exact ⟨[], c :: text, rfl, by simp, by simpa using here⟩
    | true =>
      obtain ⟨run, rest, rfl, all, ended⟩ := ih
      exact ⟨c :: run, rest, rfl, List.forall_mem_cons.mpr ⟨here, all⟩, ended⟩

private theorem dropWhile_run {kind : Char → Bool} {run : List Char} (all : ∀ c ∈ run, kind c = true)
    (ended : ∀ c ∈ rest.head?, kind c = false) : (run ++ rest).dropWhile kind = rest := by
  rw [List.dropWhile_append_of_pos all]
  cases rest with
  | nil => rfl
  | cons c rest => exact List.dropWhile_cons_of_neg (by simpa using ended c rfl)

theorem split_snoc (cut : Char → Bool) (kept : cut c = false) (text : List Char) :
    ∃ front last, split cut text = front ++ [last] ∧ split cut (text ++ [c]) = front ++ [last ++ [c]] := by
  induction text with
  | nil => exact ⟨[], [], rfl, by simp [split, kept]⟩
  | cons d rest ih =>
    obtain ⟨front, last, same, longer⟩ := ih
    rw [List.cons_append, split, split, same, longer]
    split
    next => exact ⟨[] :: front, last, rfl, rfl⟩
    next =>
      cases front with
      | nil => exact ⟨[], d :: last, rfl, rfl⟩
      | cons first front => exact ⟨(d :: first) :: front, last, rfl, rfl⟩

/-- The words of a text. Each goes on until a blank or the end. -/
inductive Worded : List Char → List (List Char) → Prop where
  | none {gap : List Char} (blank : Blank gap) : Worded gap []
  | word {gap word rest : List Char} {words : List (List Char)} (blank : Blank gap) (some : word ≠ [])
      (solid : ∀ c ∈ word, isBlank c = false) (apart : ∀ c ∈ rest.head?, isBlank c = true)
      (later : Worded rest words) : Worded (gap ++ (word ++ rest)) (word :: words)

private theorem words_gap_append (blank : Blank gap) (rest : List Char) : words (gap ++ rest) = words rest := by
  induction gap with
  | nil => rfl
  | cons c gap ih =>
    have here : isBlank c = true := blank c List.mem_cons_self
    have later := ih fun d member => blank d (List.mem_cons_of_mem _ member)
    have cut := words_append_cons here [] (gap ++ rest)
    rwa [List.nil_append, later] at cut

theorem words_of_worded (worded : Worded text pieces) : words text = pieces := by
  induction worded with
  | none blank =>
    have cut := words_gap_append blank []
    rwa [List.append_nil] at cut
  | @word gap word rest others blank some solid apart later ih =>
    rw [words_gap_append blank]
    cases rest with
    | nil =>
      rw [List.append_nil, words_token some solid, ← ih]
      rfl
    | cons c rest =>
      have here : isBlank c = true := apart c rfl
      have single : Blank [c] := fun d member => List.mem_singleton.mp member ▸ here
      have skipped : words (c :: rest) = words rest := words_gap_append single rest
      rw [words_append_cons here, words_token some solid, ← skipped, ih]
      rfl

theorem exists_worded (text : List Char) : ∃ words, Worded text words := by
  induction length : text.length using Nat.strongRecOn generalizing text with
  | ind length ih =>
    obtain ⟨gap, behind, rfl, blank, front⟩ := exists_run isBlank text
    obtain ⟨word, rest, rfl, solid, ended⟩ := exists_run (!isBlank ·) behind
    cases word with
    | nil =>
      cases rest with
      | nil => exact ⟨[], by simpa using Worded.none blank⟩
      | cons c rest => exact absurd (front c rfl) (by simpa using ended c rfl)
    | cons c word =>
      obtain ⟨words, later⟩ := ih rest.length (by simp at length; omega) rest rfl
      exact ⟨(c :: word) :: words, .word blank (by simp) (by simpa using solid) (by simpa using ended) later⟩

theorem words_eq_iff : words text = pieces ↔ Worded text pieces := by
  refine ⟨fun same => ?_, words_of_worded⟩
  obtain ⟨found, worded⟩ := exists_worded text
  exact same ▸ words_of_worded worded ▸ worded

theorem words_eq_nil : words text = [] ↔ Blank text := by
  rw [words_eq_iff]
  constructor
  · intro worded
    cases worded with
    | none blank => exact blank
  · exact .none

theorem Worded.within (worded : Worded text pieces) {word : List Char} (member : word ∈ pieces) : word <:+: text := by
  induction worded with
  | none => cases member
  | word _ _ _ _ _ ih =>
    rcases List.mem_cons.mp member with rfl | inside
    · exact ⟨_, _, List.append_assoc _ _ _⟩
    · exact (ih inside).trans ((List.suffix_append _ _).trans (List.suffix_append _ _)).isInfix

structure Trimmed (text core : List Char) : Prop where
  padded : ∃ left right, Blank left ∧ Blank right ∧ text = left ++ core ++ right
  front : ∀ c ∈ core.head?, isBlank c = false
  rear : ∀ c ∈ core.getLast?, isBlank c = false

theorem trim_of_trimmed (trimmed : Trimmed text core) : trim text = core := by
  obtain ⟨⟨left, right, blankLeft, blankRight, rfl⟩, front, rear⟩ := trimmed
  unfold trim
  by_cases empty : core = []
  · subst empty
    have all : ∀ c ∈ left ++ [] ++ right, isBlank c = true := by
      rw [List.append_nil]
      exact List.forall_mem_append.mpr ⟨blankLeft, blankRight⟩
    have gone : (left ++ [] ++ right ++ []).dropWhile isBlank = [] := dropWhile_run all (by simp)
    rw [List.append_nil (left ++ [] ++ right)] at gone
    rw [gone]
    rfl
  · have opened : ∀ c ∈ (core ++ right).head?, isBlank c = false := by
      rwa [List.head?_append_of_ne_nil _ empty]
    have closed : ∀ c ∈ core.reverse.head?, isBlank c = false := by rwa [List.head?_reverse]
    have blank : ∀ c ∈ right.reverse, isBlank c = true := fun c member => blankRight c (List.mem_reverse.mp member)
    rw [List.append_assoc, dropWhile_run blankLeft opened, List.reverse_append, dropWhile_run blank closed,
      List.reverse_reverse]

theorem trimmed_trim (text : List Char) : Trimmed text (trim text) := by
  obtain ⟨left, behind, rfl, blankLeft, front⟩ := exists_run isBlank text
  obtain ⟨right, core, reversed, blankRight, rear⟩ := exists_run isBlank behind.reverse
  obtain rfl : behind = core.reverse ++ right.reverse := by
    rw [← List.reverse_append, ← reversed, List.reverse_reverse]
  have padded : Trimmed (left ++ (core.reverse ++ right.reverse)) core.reverse := by
    refine ⟨⟨left, right.reverse, blankLeft, ?_, (List.append_assoc _ _ _).symm⟩, ?_, ?_⟩
    · exact fun c member => blankRight c (List.mem_reverse.mp member)
    · by_cases empty : core = []
      · simp [empty]
      · rwa [List.head?_append_of_ne_nil _ (by simpa using empty)] at front
    · rwa [List.getLast?_reverse]
  rwa [trim_of_trimmed padded]

theorem trim_eq_iff : trim text = core ↔ Trimmed text core :=
  ⟨fun same => same ▸ trimmed_trim text, trim_of_trimmed⟩

/-- The lines of a text. A line feed ends a line, and so does a carriage return with a line feed behind it.
After the last of them there is another line only if anything stands there. -/
def rows : List Char → List (List Char)
  | [] => []
  | '\n' :: rest => [] :: rows rest
  | '\r' :: '\n' :: rest => [] :: rows rest
  | c :: rest =>
    match rows rest with
    | [] => [[c]]
    | row :: others => (c :: row) :: others

/-- A row and the line that it is cut from. -/
def Ends (row line : List Char) : Prop :=
  line = row ∨ line = row ++ ['\r']

private theorem lines_cons (other : c ≠ '\n') (rest : List Char) : lines (c :: rest) = (lines rest).modifyHead (c :: ·) :=
  if_neg (by simpa using other)

/-- The lines that are cut at line feeds are the rows, some with a carriage return still there, and one more
that is empty if the last line is ended. -/
theorem lines_rows (text : List Char) : ∃ ended tail, lines text = ended ++ tail ∧
    List.Forall₂ Ends (rows text) ended ∧ (tail = [] ∨ tail = [[]]) := by
  fun_induction rows text with
  | case1 => exact ⟨[], [[]], rfl, .nil, Or.inr rfl⟩
  | case2 rest ih =>
    obtain ⟨ended, tail, same, all, last⟩ := ih
    exact ⟨[] :: ended, tail, congrArg ([] :: ·) same, .cons (Or.inl rfl) all, last⟩
  | case3 rest ih =>
    obtain ⟨ended, tail, same, all, last⟩ := ih
    exact ⟨['\r'] :: ended, tail, congrArg (['\r'] :: ·) same, .cons (Or.inr rfl) all, last⟩
  | case4 c rest notFeed notReturn none ih =>
    obtain ⟨ended, tail, same, all, last⟩ := ih
    rw [none, List.forall₂_nil_left_iff] at all
    subst all
    have single : tail = [[]] := last.resolve_left fun empty => split_ne_nil _ rest (by simpa [lines, empty] using same)
    refine ⟨[[c]], [], ?_, .cons (Or.inl rfl) .nil, Or.inl rfl⟩
    rw [lines_cons notFeed, same, single]
    rfl
  | case5 c rest notFeed notReturn row others found ih =>
    obtain ⟨ended, tail, same, all, last⟩ := ih
    rw [found, List.forall₂_cons_left_iff] at all
    obtain ⟨line, later, here, all, rfl⟩ := all
    refine ⟨(c :: line) :: later, tail, ?_, .cons ?_ all, last⟩
    · rw [lines_cons notFeed, same]
      rfl
    · rcases here with rfl | rfl
      · exact Or.inl rfl
      · exact Or.inr rfl

end Text

variable {line before after : List Char}

/-- The line has one arrow, and these are the texts before and behind it. -/
structure Cut (line before after : List Char) : Prop where
  whole : before ++ arrow ++ after = line
  single : ∀ front rear, front ++ arrow ++ rear = line → front = before

theorem cutAtArrow_snoc {c : Char} (other : c ∉ arrow) :
    cutAtArrow (line ++ [c]) = (cutAtArrow line).map fun (before, after) => (before, after ++ [c]) := by
  fun_induction cutAtArrow line with
  | case1 after => simp [cutAtArrow]
  | case2 d rest notHere ih =>
    rw [List.cons_append, cutAtArrow, ih]
    · simp [Function.comp_def]
    · intro after dash same
      cases rest with
      | nil =>
        obtain ⟨rfl, _⟩ := List.cons.inj same
        exact other (by decide)
      | cons e rest =>
        obtain ⟨rfl, _⟩ := List.cons.inj same
        exact notHere rest dash rfl
  | case3 => simp [cutAtArrow]

theorem isSome_cutAtArrow : (cutAtArrow line).isSome = true ↔ arrow <:+: line := by
  rw [← not_iff_not, ← cutAtArrow_eq_none, Option.isSome_iff_ne_none, not_not]

private theorem cutAtArrow_eq_some (cut : cutAtArrow line = some (before, after)) : before ++ arrow ++ after = line ∧
    ∀ front rear, front ++ arrow ++ rear = line → front = before ∨ arrow <:+: after := by
  fun_induction cutAtArrow line generalizing before with
  | case1 rest =>
    obtain ⟨rfl, rfl⟩ := Prod.mk.inj (Option.some.inj cut)
    refine ⟨rfl, fun front rear same => ?_⟩
    cases front with
    | nil => exact Or.inl rfl
    | cons c front =>
      cases front with
      | nil => cases same
      | cons d front =>
        have later : front ++ arrow ++ rear = rest := by simpa using (List.cons.inj (List.cons.inj same).2).2
        exact Or.inr ⟨front, rear, later⟩
  | case2 c rest notHere ih =>
    obtain ⟨⟨before, after⟩, found, same⟩ := Option.map_eq_some_iff.mp cut
    obtain ⟨rfl, rfl⟩ := Prod.mk.inj same
    obtain ⟨whole, others⟩ := ih found
    refine ⟨congrArg (c :: ·) whole, fun front rear same => ?_⟩
    cases front with
    | nil =>
      obtain ⟨rfl, rest⟩ := List.cons.inj same
      exact absurd rest.symm (notHere rear rfl)
    | cons d front =>
      obtain ⟨rfl, later⟩ := List.cons.inj same
      exact (others front rear later).imp_left (congrArg (d :: ·))
  | case3 => cases cut

private theorem later_arrow (within : arrow <:+: after) :
    ∃ front rear, front ++ arrow ++ rear = before ++ arrow ++ after ∧ front ≠ before := by
  obtain ⟨front, rear, rfl⟩ := within
  refine ⟨before ++ arrow ++ front, rear, by simp, fun same => ?_⟩
  have longer := congrArg List.length same
  simp [arrow] at longer

theorem cut_iff : Cut line before after ↔ cutAtArrow line = some (before, after) ∧ ¬arrow <:+: after := by
  constructor
  · intro parts
    obtain rfl := parts.whole
    refine ⟨?_, fun within => ?_⟩
    · cases found : cutAtArrow (before ++ arrow ++ after) with
      | none => exact absurd ⟨before, after, rfl⟩ (cutAtArrow_eq_none.mp found)
      | some both =>
        obtain ⟨front, rear⟩ := both
        have whole := (cutAtArrow_eq_some found).1
        obtain rfl := parts.single front rear whole
        rw [List.append_cancel_left whole]
    · obtain ⟨front, rear, same, different⟩ := later_arrow within
      exact different (parts.single front rear same)
  · intro found
    obtain ⟨cut, straight⟩ := found
    obtain ⟨whole, others⟩ := cutAtArrow_eq_some cut
    exact ⟨whole, fun front rear same => (others front rear same).resolve_right straight⟩

/-- The line has one arrow and another one elsewhere. -/
def ManyArrows (line : List Char) : Prop :=
  ∃ before after front rear, before ++ arrow ++ after = line ∧ front ++ arrow ++ rear = line ∧ front ≠ before

theorem manyArrows_iff :
    ManyArrows line ↔ ∃ before after, cutAtArrow line = some (before, after) ∧ arrow <:+: after := by
  constructor
  · intro found
    obtain ⟨before, after, front, rear, whole, same, different⟩ := found
    cases cut : cutAtArrow line with
    | none => exact absurd ⟨before, after, whole⟩ (cutAtArrow_eq_none.mp cut)
    | some both =>
      refine ⟨_, _, rfl, Classical.byContradiction fun straight => different ?_⟩
      have only := (cut_iff.mpr ⟨cut, straight⟩).single
      exact (only front rear same).trans (only before after whole).symm
  · intro found
    obtain ⟨before, after, cut, within⟩ := found
    obtain ⟨whole, _⟩ := cutAtArrow_eq_some cut
    obtain ⟨front, rear, same, different⟩ := later_arrow within
    exact ⟨before, after, front, rear, whole, same.trans whole, different⟩

end TopDownGrammar
