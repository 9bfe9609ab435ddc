import TopDownGrammar.Proofs.Languages

/-! Leftmost derivations with the choices that were made. Each step replaces the nonterminal in front by
the alternative at the position chosen, so its choices determine a derivation. Every sentence of a
nonterminal has a leftmost derivation, and no other string of terminals has one. -/

namespace TopDownGrammar.Grammar

variable {g : Grammar} {choice : Nat} {choices others : List Nat} {name other : Name}
  {form sentence first second last front rear : List Symbol}

/-- Only terminals stand before the nonterminal that is replaced. -/
inductive LeftmostStep (g : Grammar) (choice : Nat) : List Symbol → List Symbol → Prop where
  | replace (before after : List Symbol) {name : Name} {alternative : Alternative}
      (terminals : before.all Symbol.isTerminal = true)
      (chosen : (g.alternatives name)[choice]? = some alternative) :
      LeftmostStep g choice (before ++ .nonterminal name :: after) (visible (before ++ alternative ++ after))

/-- A leftmost derivation with its choices in order. -/
inductive Leftmost (g : Grammar) : List Nat → List Symbol → List Symbol → Prop where
  | done (form : List Symbol) : Leftmost g [] form form
  | step {choice : Nat} {choices : List Nat} {first second last : List Symbol}
      (one : g.LeftmostStep choice first second) (more : Leftmost g choices second last) :
      Leftmost g (choice :: choices) first last

private theorem plain_of_terminals (terminals : form.all Symbol.isTerminal = true) : .epsilon ∉ form :=
  fun member => Bool.noConfusion (List.all_eq_true.mp terminals _ member)

theorem nonterminal_not_mem_terminals (terminals : form.all Symbol.isTerminal = true) : .nonterminal name ∉ form :=
  fun member => Bool.noConfusion (List.all_eq_true.mp terminals _ member)

private theorem LeftmostStep.step (step : g.LeftmostStep choice first second) : g.Step first second := by
  cases step with
  | replace before after _ chosen => exact .replace before after (List.mem_of_getElem? chosen)

theorem Leftmost.derives (leftmost : g.Leftmost choices first last) : g.Derives first last := by
  induction leftmost with
  | done => exact .refl _
  | step one _ ih => exact .step one.step ih

private theorem LeftmostStep.surround (step : g.LeftmostStep choice first second)
    (terminals : front.all Symbol.isTerminal = true) (plain : .epsilon ∉ rear) :
    g.LeftmostStep choice (front ++ first ++ rear) (front ++ second ++ rear) := by
  cases step with
  | replace before after terminalsBefore chosen =>
    have terminalsFront : (front ++ before).all Symbol.isTerminal = true := by
      rw [List.all_append, terminals, terminalsBefore, Bool.and_self]
    have moved := LeftmostStep.replace (front ++ before) (after ++ rear) terminalsFront chosen
    simpa [visible_of_plain (plain_of_terminals terminals), visible_of_plain plain] using moved

private theorem Leftmost.surround (leftmost : g.Leftmost choices first last)
    (terminals : front.all Symbol.isTerminal = true) (plain : .epsilon ∉ rear) :
    g.Leftmost choices (front ++ first ++ rear) (front ++ last ++ rear) := by
  induction leftmost with
  | done => exact .done _
  | step one _ ih => exact .step (one.surround terminals plain) ih

theorem Leftmost.trans (one : g.Leftmost choices first second) (two : g.Leftmost others second last) :
    g.Leftmost (choices ++ others) first last := by
  induction one with
  | done => exact two
  | step step _ ih => exact .step step (ih two)

/-- What stands in front is derived first, and what stands behind it after that. -/
theorem Leftmost.append {start result : List Symbol} (one : g.Leftmost choices first last)
    (two : g.Leftmost others start result) (terminals : last.all Symbol.isTerminal = true)
    (plain : .epsilon ∉ start) : g.Leftmost (choices ++ others) (first ++ start) (last ++ result) := by
  have left : g.Leftmost choices ([] ++ first ++ start) ([] ++ last ++ start) := one.surround rfl plain
  have right : g.Leftmost others (last ++ start ++ []) (last ++ result ++ []) :=
    two.surround terminals List.not_mem_nil
  simp only [List.nil_append, List.append_nil] at left right
  exact left.trans right

private def leftmostValue (g : Grammar) (name : Name) : Language Symbol :=
  {sentence | sentence.all Symbol.isTerminal = true ∧ ∃ choices, g.Leftmost choices [.nonterminal name] sentence}

private theorem leftmost_of_mem_reading (read : sentence ∈ reading g.leftmostValue form) :
    sentence.all Symbol.isTerminal = true ∧ ∃ choices, g.Leftmost choices (visible form) sentence := by
  induction form generalizing sentence with
  | nil =>
    obtain rfl := (Language.mem_one _).mp read
    exact ⟨rfl, [], .done _⟩
  | cons symbol rest ih =>
    rw [reading_cons, Language.mem_mul] at read
    obtain ⟨left, front, right, rear, rfl⟩ := read
    obtain ⟨rearTerminals, choices, behind⟩ := ih rear
    have plain := epsilon_not_mem_visible rest
    cases symbol with
    | nonterminal name =>
      obtain ⟨frontTerminals, earlier, leftmost⟩ := front
      exact ⟨by rw [List.all_append, frontTerminals, rearTerminals, Bool.and_self], earlier ++ choices,
        leftmost.append behind frontTerminals plain⟩
    | terminal text =>
      obtain rfl : left = [.terminal text] := front
      exact ⟨rearTerminals, choices, (Leftmost.done [.terminal text]).append behind rfl plain⟩
    | epsilon =>
      obtain rfl := (Language.mem_one _).mp front
      exact ⟨rearTerminals, choices, behind⟩
    | endOfInput => exact absurd front (Language.notMem_zero _)

theorem generates_iff_leftmost : g.Generates name sentence ↔
    sentence.all Symbol.isTerminal = true ∧ ∃ choices, g.Leftmost choices [.nonterminal name] sentence := by
  have closed : g.Closed g.leftmostValue := by
    intro name alternative owned sentence read
    obtain ⟨terminals, choices, leftmost⟩ := leftmost_of_mem_reading read
    obtain ⟨choice, chosen⟩ := List.mem_iff_getElem?.mp owned
    have one := LeftmostStep.replace [] [] rfl chosen
    rw [List.nil_append, List.append_nil] at one
    exact ⟨terminals, choice :: choices, .step one leftmost⟩
  constructor
  · intro generates
    exact language_le closed name generates
  · intro found
    obtain ⟨terminals, _, leftmost⟩ := found
    exact ⟨terminals, leftmost.derives⟩

/-- There is only one nonterminal in front. -/
theorem leftmost_split {before after front rear : List Symbol}
    (same : before ++ .nonterminal name :: after = front ++ .nonterminal other :: rear)
    (terminals : before.all Symbol.isTerminal = true) (terminalsFront : front.all Symbol.isTerminal = true) :
    before = front ∧ name = other ∧ after = rear := by
  induction before generalizing front with
  | nil =>
    cases front with
    | nil =>
      obtain ⟨heads, tails⟩ := List.cons.inj same
      exact ⟨rfl, Symbol.nonterminal.inj heads, tails⟩
    | cons head rest =>
      obtain ⟨rfl, _⟩ := List.cons.inj same
      cases terminalsFront
  | cons head rest ih =>
    simp only [List.all_cons, Bool.and_eq_true] at terminals
    cases front with
    | nil =>
      obtain ⟨rfl, _⟩ := List.cons.inj same
      cases terminals.1
    | cons other rest =>
      simp only [List.all_cons, Bool.and_eq_true] at terminalsFront
      obtain ⟨rfl, tails⟩ := List.cons.inj same
      obtain ⟨rfl, names, rears⟩ := ih tails terminals.2 terminalsFront.2
      exact ⟨rfl, names, rears⟩

end TopDownGrammar.Grammar
