import TopDownGrammar.Grammar.Basic

/-! Derivations. A step replaces one nonterminal of a sequence by one of its alternatives and drops the empty string
wherever it stands, in the whole sequence. So a derivation is moved into a context only if no empty string stands in that
context. -/

namespace TopDownGrammar

/-- Every entry of a list with the entries before and after it. -/
def places : List α → List (List α × α × List α)
  | [] => []
  | head :: rest => ([], head, rest) :: (places rest).map fun (before, entry, after) => (head :: before, entry, after)

namespace Grammar

/-- Every sequence that one step leads to, by position and then by alternative. One without
symbols is written as the empty string. -/
def successors (g : Grammar) (form : List Symbol) : List (List Symbol) :=
  (places form).flatMap fun (before, symbol, after) =>
    (g.expansions symbol).map fun alternative => compact (before ++ alternative ++ after)

inductive Step (g : Grammar) : List Symbol → List Symbol → Prop where
  | replace (before after : List Symbol) {name : Name} {alternative : Alternative}
      (owned : alternative ∈ g.alternatives name) :
      Step g (before ++ .nonterminal name :: after) (visible (before ++ alternative ++ after))

inductive Derives (g : Grammar) : List Symbol → List Symbol → Prop where
  | refl (form : List Symbol) : Derives g form form
  | step {first second last : List Symbol} (one : g.Step first second) (more : Derives g second last) :
      Derives g first last

/-- A sequence of terminals that a nonterminal derives. -/
def Generates (g : Grammar) (name : Name) (sentence : List Symbol) : Prop :=
  sentence.all Symbol.isTerminal = true ∧ g.Derives [.nonterminal name] sentence

variable {g : Grammar} {name : Name} {alternative first second last : List Symbol}

theorem Step.plain (step : g.Step first second) : .epsilon ∉ second := by
  cases step
  exact epsilon_not_mem_visible _

/-- A step brings in an alternative of a nonterminal that was there. -/
theorem Step.origin (step : g.Step first second) {symbol : Symbol} (member : symbol ∈ second) :
    symbol ∈ first ∨ ∃ name, .nonterminal name ∈ first ∧ ∃ alternative ∈ g.alternatives name, symbol ∈ alternative := by
  cases step with
  | @replace before after name alternative owned =>
    rcases List.mem_append.mp (mem_visible.mp member).1 with inner | later
    · rcases List.mem_append.mp inner with earlier | new
      · exact Or.inl (List.mem_append_left _ earlier)
      · exact Or.inr ⟨name, by simp, alternative, owned, new⟩
    · exact Or.inl (List.mem_append_right _ (List.mem_cons_of_mem _ later))

theorem Step.surround (step : g.Step first second) (before after : List Symbol) :
    g.Step (before ++ first ++ after) (visible before ++ second ++ visible after) := by
  cases step with
  | @replace front rear name alternative owned =>
    simpa using Step.replace (g := g) (before ++ front) (rear ++ after) owned

theorem Derives.trans (one : g.Derives first second) (two : g.Derives second last) : g.Derives first last := by
  induction one with
  | refl => exact two
  | step step _ ih => exact .step step (ih two)

theorem Derives.plain (derives : g.Derives first last) (plain : .epsilon ∉ first) : .epsilon ∉ last := by
  induction derives with
  | refl => exact plain
  | step step _ ih => exact ih step.plain

theorem Derives.surround (derives : g.Derives first last) {before after : List Symbol}
    (plainBefore : .epsilon ∉ before) (plainAfter : .epsilon ∉ after) :
    g.Derives (before ++ first ++ after) (before ++ last ++ after) := by
  induction derives with
  | refl => exact .refl _
  | step step _ ih =>
    have moved := step.surround before after
    rw [visible_of_plain plainBefore, visible_of_plain plainAfter] at moved
    exact .step moved ih

theorem Derives.append {start result : List Symbol} (one : g.Derives first last) (two : g.Derives start result)
    (plainStart : .epsilon ∉ start) (plainLast : .epsilon ∉ last) :
    g.Derives (first ++ start) (last ++ result) := by
  have left := one.surround List.not_mem_nil plainStart
  have right := two.surround plainLast List.not_mem_nil
  simp only [List.nil_append, List.append_nil] at left right
  exact left.trans right

theorem step_nonterminal :
    g.Step [.nonterminal name] second ↔ ∃ alternative ∈ g.alternatives name, second = visible alternative := by
  constructor
  · intro step
    generalize whole : [Symbol.nonterminal name] = first at step
    cases step with
    | @replace before after other alternative owned =>
      obtain ⟨rfl, same⟩ | ⟨_, none⟩ := List.append_eq_singleton_iff.mp whole.symm
      · obtain ⟨head, rfl⟩ := List.cons.inj same
        exact ⟨alternative, Symbol.nonterminal.inj head ▸ owned, by simp⟩
      · cases none
  · intro found
    obtain ⟨alternative, owned, rfl⟩ := found
    simpa using Step.replace [] [] owned

theorem derives_alternative (owned : alternative ∈ g.alternatives name) :
    g.Derives [.nonterminal name] (visible alternative) :=
  .step (step_nonterminal.mpr ⟨alternative, owned, rfl⟩) (.refl _)

end Grammar

end TopDownGrammar
