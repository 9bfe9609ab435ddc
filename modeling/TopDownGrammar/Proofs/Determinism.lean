import TopDownGrammar.Factoring
import TopDownGrammar.Proofs.Conflicts
import TopDownGrammar.Proofs.FollowSets
import TopDownGrammar.Proofs.HeadSets
import TopDownGrammar.Proofs.LeftmostDerivations

/-! A grammar without conflicts leaves a leftmost derivation no choice, provided no terminal both begins
and follows a nonterminal that can vanish. Wherever two alternatives lead to one sentence, both show what
the sentence goes on with: a conflict if both show it themselves, and if one vanishes in front of it, a
terminal that follows the nonterminal and begins it as well. -/

namespace TopDownGrammar

/-- What a sentence goes on with, which is the empty string at its end. -/
def lookahead : List Symbol → Symbol
  | [] => .epsilon
  | symbol :: _ => symbol

namespace Grammar

variable {g : Grammar} {choices others : List Nat} {name : Name} {first second : Alternative}
  {shown : Symbol} {form sentence before after : List Symbol} {i j : Nat}

/-- No string of terminals has two leftmost derivations from the start. -/
def Unambiguous (g : Grammar) : Prop :=
  ∀ sentence, sentence.all Symbol.isTerminal = true → ∀ choices others,
    g.Leftmost choices [.nonterminal g.start] sentence → g.Leftmost others [.nonterminal g.start] sentence →
      choices = others

/-- No terminal both begins and follows a nonterminal that can vanish. -/
def VanishesApart (g : Grammar) : Prop :=
  ∀ name ∈ g.nonterminals, .nonterminal name ∈ g.nullable →
    ∀ text, .terminal text ∈ g.first.get name → .terminal text ∉ g.follow.get name

private theorem shows_lookahead (read : sentence ∈ reading g.language form) :
    Shows (firstFront g.first) form (lookahead sentence) := by
  obtain ⟨terminals, derives⟩ := mem_reading_iff.mp read
  cases sentence with
  | nil => exact g.first_covers.shows_of_leading (absurd rfl) (Or.inl ⟨rfl, derives⟩)
  | cons head rest =>
    cases head with
    | terminal text => exact g.first_covers.shows_of_leading (fun _ => rfl) (Or.inr ⟨by simp [lookahead], rest, derives⟩)
    | _ => cases terminals

private theorem lookahead_cases (terminals : sentence.all Symbol.isTerminal = true) :
    lookahead sentence = .epsilon ∨ ∃ text, lookahead sentence = .terminal text := by
  cases sentence with
  | nil => exact Or.inl rfl
  | cons head rest =>
    cases head with
    | terminal text => exact Or.inr ⟨text, rfl⟩
    | _ => cases terminals

/-- Where there is no conflict, one symbol is shown by one alternative only. -/
theorem position_unique (conflictFree : g.isConflictFree = true)
    (atFirst : (g.alternatives name)[i]? = some first) (atSecond : (g.alternatives name)[j]? = some second)
    (showsFirst : Shows (firstFront g.first) first shown) (showsSecond : Shows (firstFront g.first) second shown) :
    i = j := by
  have noConflict : ∀ conflict, conflict ∉ g.conflicts := by
    have none : g.conflicts = [] := List.isEmpty_iff.mp conflictFree
    exact fun conflict member => List.not_mem_nil (none ▸ member)
  have apart : ∀ (i j : Nat) (a b : Alternative), i < j → (g.alternatives name)[i]? = some a →
      (g.alternatives name)[j]? = some b → Shows (firstFront g.first) a shown → ¬Shows (firstFront g.first) b shown := by
    intro i j a b below atI atJ showsA showsB
    have common : shown ∈ firstOfSequence g.first a ∩ firstOfSequence g.first b :=
      SymbolSet.mem_inter.mpr ⟨mem_firstOfSequence.mpr showsA, mem_firstOfSequence.mpr showsB⟩
    have shared : (firstOfSequence g.first a ∩ firstOfSequence g.first b).isEmpty = false :=
      List.isEmpty_eq_false_iff.mpr (List.ne_nil_of_mem common)
    rcases g.alternatives_eq_or_nil name with ⟨rule, member, _, equal⟩ | ⟨_, none⟩
    · rw [equal] at atI atJ
      exact noConflict _ (List.mem_flatMap.mpr ⟨rule, member, mem_conflicts.mpr ⟨i, j, a, b, below, atI, atJ, shared, rfl⟩⟩)
    · rw [none] at atI
      cases atI
  rcases Nat.lt_trichotomy i j with below | same | above
  · exact absurd showsSecond (apart i j _ _ below atFirst atSecond showsFirst)
  · exact same
  · exact absurd showsFirst (apart j i _ _ above atSecond atFirst showsSecond)

private theorem begins_apart (wellFormed : g.WellFormed) (apart : g.VanishesApart) {text : String}
    (reached : g.Derives [.nonterminal g.start] (before ++ .nonterminal name :: after))
    (ownedFirst : first ∈ g.alternatives name) (ownedSecond : second ∈ g.alternatives name)
    (begins : Shows (firstFront g.first) first (.terminal text))
    (vanishes : Shows (firstFront g.first) second .epsilon)
    (behind : Shows (firstFront g.first) after (.terminal text)) : False := by
  have listed := mem_nonterminals_of_alternative ownedFirst
  have begun : .terminal text ∈ g.first.get name := g.first_covers.nonterminal name first ownedFirst _ begins
  have vanishing : .epsilon ∈ g.first.get name := g.first_covers.nonterminal name second ownedSecond _ vanishes
  have nullable : .nonterminal name ∈ g.nullable :=
    (derives_nil_iff wellFormed).mpr ((mem_first wellFormed).mp vanishing)
  have followed : .terminal text ∈ g.follow.get name := by
    refine g.follow_inherits.of_nonterminal reached ?_ (mem_followKeys.mpr (Or.inl listed))
    exact followedBy_iff.mpr ⟨before, after, rfl, Or.inl ⟨behind, by simp⟩⟩
  exact apart name listed nullable text begun followed

/-- Two alternatives in front of the same rest lead to a common sentence only if they are the same. -/
theorem choice_unique (wellFormed : g.WellFormed) (conflictFree : g.isConflictFree = true) (apart : g.VanishesApart)
    (reached : g.Derives [.nonterminal g.start] (before ++ .nonterminal name :: after))
    (atFirst : (g.alternatives name)[i]? = some first) (atSecond : (g.alternatives name)[j]? = some second)
    (readFirst : sentence ∈ reading g.language (first ++ after))
    (readSecond : sentence ∈ reading g.language (second ++ after)) : i = j := by
  have unique := @position_unique g name first second (lookahead sentence) i j conflictFree atFirst atSecond
  have ownedFirst := List.mem_of_getElem? atFirst
  have ownedSecond := List.mem_of_getElem? atSecond
  have showsFirst := shows_append.mp (shows_lookahead readFirst)
  have showsSecond := shows_append.mp (shows_lookahead readSecond)
  rcases lookahead_cases (mem_reading_iff.mp readFirst).1 with ended | ⟨text, goesOn⟩
  · rw [ended] at showsFirst showsSecond unique
    simp only [ne_eq, not_true_eq_false, and_false, false_or] at showsFirst showsSecond
    exact unique showsFirst.1 showsSecond.1
  · rw [goesOn] at showsFirst showsSecond unique
    rcases showsFirst with ⟨here, _⟩ | ⟨vanishes, behind⟩ <;>
      rcases showsSecond with ⟨there, _⟩ | ⟨vanishesToo, behindToo⟩
    · exact unique here there
    · exact (begins_apart wellFormed apart reached ownedFirst ownedSecond here vanishesToo behindToo).elim
    · exact (begins_apart wellFormed apart reached ownedSecond ownedFirst there vanishes behind).elim
    · exact position_unique conflictFree atFirst atSecond vanishes vanishesToo

private theorem reading_behind_terminals (terminals : before.all Symbol.isTerminal = true)
    (read : sentence ∈ reading g.language (before ++ form)) :
    ∃ rest, sentence = before ++ rest ∧ rest ∈ reading g.language form := by
  induction before generalizing sentence with
  | nil => exact ⟨sentence, rfl, read⟩
  | cons symbol before ih =>
    simp only [List.all_cons, Bool.and_eq_true] at terminals
    rw [List.cons_append, reading_cons] at read
    obtain ⟨left, front, right, rear, rfl⟩ := Language.mem_mul.mp read
    obtain ⟨rest, rfl, inner⟩ := ih terminals.2 rear
    cases symbol with
    | terminal text =>
      obtain rfl : left = [.terminal text] := front
      exact ⟨rest, rfl, inner⟩
    | _ => cases terminals.1

/-- What one step leaves behind the terminals in front is read as the rest of every sentence that is
derived from there. -/
private theorem read_after_step (terminalsBefore : before.all Symbol.isTerminal = true)
    (terminals : sentence.all Symbol.isTerminal = true)
    (more : g.Leftmost choices (visible (before ++ first ++ after)) sentence) :
    ∃ rest, sentence = before ++ rest ∧ rest ∈ reading g.language (first ++ after) := by
  apply reading_behind_terminals terminalsBefore
  rw [← List.append_assoc]
  exact mem_reading_iff.mpr ⟨terminals, more.derives⟩

/-- From wherever the start leads, a sentence is reached by one sequence of choices only. -/
theorem choices_unique (wellFormed : g.WellFormed) (conflictFree : g.isConflictFree = true) (apart : g.VanishesApart)
    (terminals : sentence.all Symbol.isTerminal = true) (reached : g.Derives [.nonterminal g.start] form)
    (one : g.Leftmost choices form sentence) (two : g.Leftmost others form sentence) : choices = others := by
  induction one generalizing others with
  | done =>
    cases two with
    | done => rfl
    | step step _ =>
      cases step
      exact absurd (List.mem_append_right _ List.mem_cons_self) (nonterminal_not_mem_terminals terminals)
  | @step choice choices origin next _ step more ih =>
    generalize same : origin = origin' at two
    cases step with
    | @replace before after name first terminalsBefore chosen =>
      cases two with
      | done =>
        subst same
        exact absurd (List.mem_append_right _ List.mem_cons_self) (nonterminal_not_mem_terminals terminals)
      | @step choice' choices' _ _ _ step' more' =>
        cases step' with
        | @replace before' after' name' second terminalsBefore' chosen' =>
          obtain ⟨rfl, rfl, rfl⟩ := leftmost_split same terminalsBefore terminalsBefore'
          obtain ⟨rest, equal, readFirst⟩ := read_after_step terminalsBefore terminals more
          obtain ⟨rest', equal', readSecond⟩ := read_after_step terminalsBefore terminals more'
          obtain rfl := List.append_cancel_left (equal.symm.trans equal')
          obtain rfl := choice_unique wellFormed conflictFree apart reached chosen chosen' readFirst readSecond
          obtain rfl := Option.some.inj (chosen.symm.trans chosen')
          have onward := reached.trans (.step (.replace _ _ (List.mem_of_getElem? chosen)) (.refl _))
          exact congrArg _ (ih terminals onward more')

/-- Leftmost derivations lead to all sentences of the start and to nothing else. In a grammar without
conflicts no sentence has two, provided no terminal both begins and follows a nonterminal that can vanish,
which is so if no nonterminal can vanish. -/
theorem conflictFree_unambiguous (wellFormed : g.WellFormed) (conflictFree : g.isConflictFree = true) :
    (∀ sentence, g.Generates g.start sentence ↔
      sentence.all Symbol.isTerminal = true ∧ ∃ choices, g.Leftmost choices [.nonterminal g.start] sentence) ∧
    (g.VanishesApart → g.Unambiguous) ∧ (g.nullable = ∅ → g.Unambiguous) := by
  have unambiguous : g.VanishesApart → g.Unambiguous := fun apart sentence terminals choices others one two =>
    choices_unique wellFormed conflictFree apart terminals (.refl _) one two
  refine ⟨fun sentence => generates_iff_leftmost, unambiguous, ?_⟩
  intro none
  apply unambiguous
  intro name _ nullable
  rw [none] at nullable
  exact absurd nullable (SymbolSet.not_mem_empty _)

/-- `A` can vanish in front of `b`, the second alternative of `S` derives no sentence. -/
def delimited : Grammar :=
  ⟨"S", [⟨"S", [[.nonterminal "A", .terminal "b"], [.nonterminal "Z", .nonterminal "S"]]⟩,
    ⟨"A", [[.terminal "a", .nonterminal "A"], [.epsilon]]⟩]⟩

theorem delimited_unambiguous :
    delimited.WellFormed ∧ delimited.isConflictFree = true ∧ delimited.VanishesApart ∧
      delimited.Generates "S" [.terminal "a", .terminal "b"] ∧
      ∀ choices, delimited.Leftmost choices [.nonterminal "S"] [.terminal "a", .terminal "b"] → choices = [0, 0, 1] := by
  have wellFormed : delimited.WellFormed := by decide
  have conflictFree : delimited.isConflictFree = true := by decide +kernel
  have apart : delimited.VanishesApart := by
    have checked : ∀ name ∈ delimited.nonterminals, ∀ symbol ∈ (delimited.first.get name).toList,
        symbol ∈ (delimited.follow.get name).toList → symbol.isTerminal = false := by decide +kernel
    exact fun name listed _ text begun followed => Bool.noConfusion (checked name listed _ begun followed)
  obtain ⟨sentences, unambiguous, _⟩ := conflictFree_unambiguous wellFormed conflictFree
  have first : (delimited.alternatives "S")[0]? = some [.nonterminal "A", .terminal "b"] := by decide
  have longer : (delimited.alternatives "A")[0]? = some [.terminal "a", .nonterminal "A"] := by decide
  have vanishing : (delimited.alternatives "A")[1]? = some [.epsilon] := by decide
  have leftmost : delimited.Leftmost [0, 0, 1] [.nonterminal "S"] [.terminal "a", .terminal "b"] :=
    .step (.replace [] [] rfl first) (.step (.replace [] [.terminal "b"] rfl longer)
      (.step (.replace [.terminal "a"] [.terminal "b"] rfl vanishing) (.done _)))
  exact ⟨wellFormed, conflictFree, apart, (sentences _).mpr ⟨rfl, _, leftmost⟩,
    fun choices other => unambiguous apart _ rfl _ _ other leftmost⟩

end Grammar

end TopDownGrammar
