import Mathlib.Data.List.Basic
import TopDownGrammar.Grammar.Reader
import TopDownGrammar.Proofs.Rules
import TopDownGrammar.Proofs.SymbolTexts
import TopDownGrammar.Proofs.Traversals

/-! What the reader accepts. A cut at a selected character splits what stands before it and what stands behind it
separately, and an arrow never reaches across a character that is not part of it. So each level of the reader succeeds just
when the pieces that it cuts its text into are read one by one, and what was read can be compared piece by piece with what
the text was made of. -/

namespace TopDownGrammar

namespace Text

variable {cut : Char → Bool} {c : Char} {before after text token : List Char}

theorem split_ne_nil (cut : Char → Bool) (text : List Char) : split cut text ≠ [] := by
  induction text with
  | nil => simp [split]
  | cons c rest ih =>
    unfold split
    split
    · simp
    · simpa using ih

theorem split_append_cons (selected : cut c = true) (before after : List Char) :
    split cut (before ++ c :: after) = split cut before ++ split cut after := by
  induction before with
  | nil => simp [split, selected]
  | cons d before ih =>
    obtain ⟨piece, pieces, first⟩ := List.exists_cons_of_ne_nil (split_ne_nil cut before)
    by_cases here : cut d = true <;> simp [split, here, ih, first]

theorem split_of_free (free : ∀ c ∈ text, cut c = false) : split cut text = [text] := by
  induction text with
  | nil => rfl
  | cons c rest ih =>
    have later := ih fun d member => free d (List.mem_cons_of_mem _ member)
    simp [split, free c List.mem_cons_self, later]

theorem length_split : (split cut text).length = text.countP cut + 1 := by
  induction text with
  | nil => rfl
  | cons c rest ih => by_cases here : cut c = true <;> simp [split, here, ih]

theorem split_intercalate {pieces : List (List Char)} (nonempty : pieces ≠ [])
    (free : ∀ piece ∈ pieces, c ∉ piece) : split (· == c) ([c].intercalate pieces) = pieces := by
  have single : ∀ piece ∈ pieces, split (· == c) piece = [piece] := by
    intro piece member
    apply split_of_free
    intro d inside
    exact beq_eq_false_iff_ne.mpr fun same => free piece member (same ▸ inside)
  induction pieces with
  | nil => exact absurd rfl nonempty
  | cons piece rest ih =>
    have first := single piece List.mem_cons_self
    cases rest with
    | nil => simpa using first
    | cons next rest =>
      have later := ih (by simp) (fun piece member => free piece (List.mem_cons_of_mem _ member))
        fun piece member => single piece (List.mem_cons_of_mem _ member)
      have joined : split (· == c) (piece ++ c :: [c].intercalate (next :: rest)) =
          split (· == c) piece ++ split (· == c) ([c].intercalate (next :: rest)) := split_append_cons (by simp) _ _
      rw [List.intercalate_cons_cons, List.append_assoc, List.singleton_append, joined, first, later,
        List.singleton_append]

theorem words_append_cons (blank : isBlank c = true) (before after : List Char) :
    words (before ++ c :: after) = words before ++ words after := by
  rw [words, split_append_cons blank, List.filter_append, words, words]

theorem words_token (nonempty : token ≠ []) (free : ∀ c ∈ token, isBlank c = false) : words token = [token] := by
  simp [words, split_of_free free, nonempty]

theorem trim_append_blank (nonempty : token ≠ []) (free : ∀ c ∈ token, isBlank c = false) (blank : isBlank c = true) :
    trim (token ++ [c]) = token := by
  have kept : ∀ {letters : List Char}, letters ≠ [] → (∀ c ∈ letters, isBlank c = false) →
      ∀ rest, (letters ++ rest).dropWhile isBlank = letters ++ rest := by
    intro letters some solid rest
    obtain ⟨letter, letters, rfl⟩ := List.exists_cons_of_ne_nil some
    simp [solid letter List.mem_cons_self]
  have reversed := kept (List.reverse_ne_nil_iff.mpr nonempty)
    (fun c member => free c (List.mem_reverse.mp member)) []
  rw [List.append_nil] at reversed
  rw [trim, kept nonempty free, List.reverse_append, List.reverse_singleton, List.singleton_append,
    List.dropWhile_cons_of_pos blank, reversed, List.reverse_reverse]

end Text

variable {c : Char} {before after line : List Char}

def arrow : List Char := ['-', '>']

theorem infix_append_cons {α : Type} {part before after : List α} {c : α} (absent : c ∉ part) :
    part <:+: before ++ c :: after ↔ part <:+: before ∨ part <:+: after := by
  have not_leading : ∀ {head : α} {rest : List α}, head ∈ part → ¬head :: rest <+: c :: after := by
    intro head rest member leading
    exact absent ((List.cons_prefix_cons.mp leading).1 ▸ member)
  constructor
  · intro within
    rcases List.infix_append_iff.mp within with inBefore | inAfter | ⟨left, right, rfl, trailing, leading⟩
    · exact Or.inl inBefore
    · cases part with
      | nil => exact Or.inr List.nil_infix
      | cons head rest =>
        exact Or.inr ((List.infix_cons_iff.mp inAfter).resolve_left (not_leading List.mem_cons_self))
    · cases right with
      | nil => exact Or.inl (by simpa using trailing.isInfix)
      | cons head rest => exact absurd leading (not_leading (List.mem_append_right _ List.mem_cons_self))
  · intro either
    rcases either with inBefore | inAfter
    · exact inBefore.trans (List.prefix_append _ _).isInfix
    · exact inAfter.trans ((List.suffix_cons _ _).trans (List.suffix_append _ _)).isInfix

theorem cutAtArrow_eq_none : cutAtArrow line = none ↔ ¬arrow <:+: line := by
  fun_induction cutAtArrow line with
  | case1 after =>
    have within : arrow <:+: '-' :: '>' :: after := (List.prefix_append arrow after).isInfix
    simp [within]
  | case2 c rest notHere ih =>
    have not_leading : ¬arrow <+: c :: rest := by
      intro leading
      obtain ⟨rfl, more⟩ := List.cons_prefix_cons.mp leading
      obtain ⟨after, rfl⟩ := more
      exact notHere after rfl rfl
    rw [Option.map_eq_none_iff, ih, List.infix_cons_iff, or_iff_right not_leading]
  | case3 => simp [arrow]

theorem cutAtArrow_append (free : '-' ∉ before) (after : List Char) :
    cutAtArrow (before ++ '-' :: '>' :: after) = some (before, after) := by
  induction before with
  | nil => rfl
  | cons c before ih =>
    have different : c ≠ '-' := fun same => free (same ▸ List.mem_cons_self)
    have later := ih fun member => free (List.mem_cons_of_mem _ member)
    rw [List.cons_append, cutAtArrow, later]
    · rfl
    · exact fun _ same _ => different same

/-! The levels of the reader. -/

variable {piece : List Char} {alternative : Alternative} {rule : Rule} {rules : List Rule}
  {texts : List (List Char)} {g : Grammar}

theorem readAlternative_eq_ok : readAlternative piece = .ok alternative ↔ alternative ≠ [] ∧
    List.Forall₂ (fun word symbol => Symbol.read (String.ofList word) = .ok symbol) (Text.words piece) alternative := by
  rw [← mapM_eq_ok, readAlternative]
  split
  next failed =>
    rw [failed]
    exact iff_of_false (fun same => nomatch same) (fun both => nomatch both.2)
  next none =>
    rw [none]
    exact iff_of_false (fun same => nomatch same) (fun both => both.1 (Except.ok.inj both.2).symm)
  next symbols nonempty found =>
    rw [found]
    constructor
    · intro same
      obtain rfl := Except.ok.inj same
      exact ⟨nonempty, rfl⟩
    · intro both
      rw [Except.ok.inj both.2]

theorem readLine_eq_ok : readLine line = .ok rule ↔ ∃ before after, cutAtArrow line = some (before, after) ∧
    ¬arrow <:+: after ∧ (String.ofList (Text.trim before) = rule.lhs ∧ isName rule.lhs = true) ∧
      List.Forall₂ (fun piece alternative => readAlternative piece = .ok alternative)
        (Text.split (· == '|') after) rule.alternatives := by
  simp only [← cutAtArrow_eq_none, ← readName_eq_ok, ← mapM_eq_ok]
  constructor
  · intro found
    unfold readLine at found
    split at found
    next => cases found
    next before after cut =>
      split at found
      next => cases found
      next single =>
        split at found
        next => cases found
        next name named =>
          obtain ⟨alternatives, all, same⟩ := bind_eq_ok.mp found
          obtain rfl := Except.ok.inj same
          exact ⟨before, after, cut, by simpa using single, named, all⟩
  · intro found
    obtain ⟨before, after, cut, single, named, all⟩ := found
    simp only [readLine, cut, single, named, all]
    rfl

theorem readLines_eq_ok (number : Nat) : readLines number texts = .ok rules ↔
    List.Forall₂ (fun text rule => readLine text = .ok rule) (texts.filter (!·.all Text.isBlank)) rules := by
  induction texts generalizing number rules with
  | nil =>
    rw [readLines, List.filter_nil, List.forall₂_nil_left_iff]
    exact ⟨fun same => (Except.ok.inj same).symm, fun same => same ▸ rfl⟩
  | cons text rest ih =>
    unfold readLines
    split
    next blank => rw [List.filter_cons_of_neg (by simp [blank]), ih]
    next written =>
      rw [List.filter_cons_of_pos (by simpa using written), List.forall₂_cons_left_iff]
      split
      next fault failed =>
        refine iff_of_false (fun same => nomatch same) ?_
        intro found
        obtain ⟨rule, _, passed, _⟩ := found
        cases failed.symm.trans passed
      next rule passed =>
        simp only [bind_eq_ok, ih, passed, Except.ok.injEq]
        constructor
        · intro found
          obtain ⟨others, all, same⟩ := found
          exact ⟨rule, others, rfl, all, (Except.ok.inj same).symm⟩
        · intro found
          obtain ⟨_, others, rfl, all, rfl⟩ := found
          exact ⟨others, all, rfl⟩

theorem Grammar.read_eq_ok {text : String} : Grammar.read text = .ok g ↔ ∃ first rest,
    List.Forall₂ (fun text rule => readLine text = .ok rule)
      ((Text.lines text.toList).filter (!·.all Text.isBlank)) (first :: rest) ∧
        g = ofProductions first.lhs ((first :: rest).flatMap Rule.productions) := by
  simp only [← readLines_eq_ok 1]
  unfold Grammar.read
  constructor
  · intro found
    split at found
    next => cases found
    next => cases found
    next first rest all => exact ⟨first, rest, all, (Except.ok.inj found).symm⟩
  · intro found
    obtain ⟨first, rest, all, rfl⟩ := found
    rw [all]

end TopDownGrammar
