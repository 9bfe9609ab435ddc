import Mathlib.Data.Finite.Prod
import Mathlib.Data.Set.Finite.Lattice
import TopDownGrammar.Proofs.Cycles
import TopDownGrammar.Proofs.ProperForm

/-! The size of a language is read off the cycles of the proper form. Along an edge of a proper
grammar sentences grow, so going round a cycle gives sentences of any length. Without cycles every
nonterminal has finitely many sentences, the ones that its alternatives put together. -/

namespace TopDownGrammar.Grammar

variable {g : Grammar} {name : Name} {value : Name → Language Symbol} {form sentence : List Symbol}

private theorem reading_finite (finite : ∀ name, .nonterminal name ∈ form → {sentence | sentence ∈ value name}.Finite) :
    {sentence | sentence ∈ reading value form}.Finite := by
  induction form with
  | nil => exact Set.finite_singleton []
  | cons head rest ih =>
    have later := ih fun name inside => finite name (List.mem_cons_of_mem _ inside)
    have front : {sentence | sentence ∈ meaning value head}.Finite := by
      cases head with
      | nonterminal name => exact finite name List.mem_cons_self
      | terminal text => exact Set.finite_singleton [Symbol.terminal text]
      | epsilon => exact Set.finite_singleton []
      | endOfInput => exact Set.finite_empty
    rw [reading_cons]
    exact Set.Finite.image2 _ front later

/-- A nonterminal without rules has no sentences, so only edges count. -/
private theorem language_finite_of_edges (once : g.nonterminals.Nodup)
    (finite : ∀ target, g.dependencyGraph.Edge name target → {sentence | sentence ∈ g.language target}.Finite) :
    {sentence | sentence ∈ g.language name}.Finite := by
  have alternatives : ∀ alternative ∈ g.alternatives name,
      {sentence | sentence ∈ reading g.language alternative}.Finite := by
    intro alternative owned
    apply reading_finite
    intro target inside
    by_cases listed : target ∈ g.nonterminals
    · exact finite target ((edge_iff once).mpr ⟨⟨alternative, owned, inside⟩, listed⟩)
    · have empty : {sentence | sentence ∈ g.language target} = ∅ :=
        Set.eq_empty_iff_forall_notMem.mpr fun _ => language_eq_empty (alternatives_eq_nil listed)
      rw [empty]
      exact Set.finite_empty
  refine ((g.alternatives name).finite_toSet.biUnion alternatives).subset ?_
  intro sentence generates
  obtain ⟨alternative, owned, read⟩ := language_unfold generates
  exact Set.mem_biUnion owned read

theorem language_finite (wellFormed : g.WellFormed) (acyclic : ¬g.dependencyGraph.HasCycle) (name : Name) :
    {sentence | sentence ∈ g.language name}.Finite := by
  have listed := g.dependencyGraph.induction_of_acyclic acyclic
    (fun name => {sentence | sentence ∈ g.language name}.Finite) fun source _ => language_finite_of_edges wellFormed.once
  exact language_finite_of_edges wellFormed.once fun target edge => listed target (g.dependencyGraph.inside _ edge).2

namespace ProperForm

variable (proper : g.ProperForm)

include proper

private theorem longer_of_path {first last : Name} (path : Relation.TransGen g.Leads first last)
    (generates : sentence ∈ g.language last) : ∃ longer ∈ g.language first, sentence.length < longer.length := by
  induction path generalizing sentence with
  | single leads => exact proper.longer leads generates
  | tail _ leads ih =>
    obtain ⟨middle, inside, grown⟩ := proper.longer leads generates
    obtain ⟨last, found, more⟩ := ih inside
    exact ⟨last, found, Nat.lt_trans grown more⟩

private theorem unbounded_of_cycle {node : Name} (around : Relation.TransGen g.Leads node node) (bound : Nat) :
    ∃ sentence ∈ g.language node, bound ≤ sentence.length := by
  induction bound with
  | zero =>
    obtain ⟨target, ⟨alternative, owned, _⟩, _⟩ := Relation.TransGen.head'_iff.mp around
    obtain ⟨sentence, generates⟩ := proper.productive node (Or.inl (mem_nonterminals_of_alternative owned))
    exact ⟨sentence, generates, Nat.zero_le _⟩
  | succ bound ih =>
    obtain ⟨sentence, generates, long⟩ := ih
    obtain ⟨longer, found, grown⟩ := proper.longer_of_path around generates
    exact ⟨longer, found, by omega⟩

end ProperForm

theorem infinite_of_cycle (wellFormed : g.WellFormed) (nonempty : ∃ sentence, g.Generates g.start sentence)
    (cycle : g.proper.dependencyGraph.HasCycle) : {sentence | g.Generates g.start sentence}.Infinite := by
  have proper := properForm_proper wellFormed nonempty
  obtain ⟨node, around⟩ := cycle
  have edges : g.proper.dependencyGraph.Edge ≤ g.proper.Leads :=
    fun _ _ edge => ((edge_iff proper.wellFormed.once).mp edge).1
  have circle := Relation.TransGen.mono edges node node around
  obtain ⟨_, ⟨_, owned, _⟩, _⟩ := Relation.TransGen.head'_iff.mp circle
  have path := leads_of_occurs_proper wellFormed (Or.inl (mem_nonterminals_of_alternative owned))
  have unbounded : ∀ bound, ∃ sentence, g.Generates g.start sentence ∧ bound ≤ sentence.length := by
    intro bound
    obtain ⟨sentence, generates, long⟩ := proper.unbounded_of_cycle circle bound
    have started : ∃ longer ∈ g.proper.language g.proper.start, bound ≤ longer.length := by
      rcases Relation.reflTransGen_iff_eq_or_transGen.mp path with same | further
      · exact ⟨sentence, same ▸ generates, long⟩
      · obtain ⟨longer, found, grown⟩ := proper.longer_of_path further generates
        exact ⟨longer, found, by omega⟩
    obtain ⟨longer, found, enough⟩ := started
    rw [language_proper_start wellFormed] at found
    exact ⟨longer, found, enough⟩
  refine Set.Infinite.of_image List.length (Set.infinite_of_not_bddAbove ?_)
  intro bounded
  obtain ⟨bound, above⟩ := bounded
  obtain ⟨sentence, generates, long⟩ := unbounded (bound + 1)
  have below := above (Set.mem_image_of_mem List.length generates)
  omega

theorem finite_of_acyclic (wellFormed : g.WellFormed) (acyclic : ¬g.proper.dependencyGraph.HasCycle) :
    {sentence | g.Generates g.start sentence}.Finite := by
  have finite := language_finite (wellFormed_proper wellFormed) acyclic g.proper.start
  rwa [language_proper_start wellFormed] at finite

theorem isBarren_iff (wellFormed : g.WellFormed) : g.isBarren = true ↔ ¬∃ sentence, g.Generates g.start sentence := by
  rw [isBarren, decide_eq_true_iff, nonterminal_mem_productive wellFormed]
  rfl

/-- The size says how many sentences there are, whichever exact test for cycles it is found by. -/
theorem languageSizeBy_exact (wellFormed : g.WellFormed) {cyclic : DependencyGraph → Bool}
    (detects : ∀ graph, cyclic graph = true ↔ graph.HasCycle) :
    (g.languageSizeBy cyclic = .empty ↔ ¬∃ sentence, g.Generates g.start sentence) ∧
    (g.languageSizeBy cyclic = .finite ↔
      (∃ sentence, g.Generates g.start sentence) ∧ {sentence | g.Generates g.start sentence}.Finite) ∧
    (g.languageSizeBy cyclic = .infinite ↔ {sentence | g.Generates g.start sentence}.Infinite) := by
  by_cases nonempty : ∃ sentence, g.Generates g.start sentence
  · have fertile : g.isBarren = false := by
      rw [Bool.eq_false_iff, ne_eq, isBarren_iff wellFormed, not_not]
      exact nonempty
    cases test : cyclic g.proper.dependencyGraph with
    | true =>
      have infinite := infinite_of_cycle wellFormed nonempty ((detects _).mp test)
      have size : g.languageSizeBy cyclic = .infinite := by simp [languageSizeBy, fertile, test]
      simp [size, nonempty, infinite]
    | false =>
      have acyclic : ¬g.proper.dependencyGraph.HasCycle := mt (detects _).mpr (by simp [test])
      have finite := finite_of_acyclic wellFormed acyclic
      have size : g.languageSizeBy cyclic = .finite := by simp [languageSizeBy, fertile, test]
      simp [size, nonempty, finite]
  · have size : g.languageSizeBy cyclic = .empty := if_pos ((isBarren_iff wellFormed).mpr nonempty)
    have none : {sentence | g.Generates g.start sentence} = ∅ :=
      Set.eq_empty_iff_forall_notMem.mpr fun sentence generates => nonempty ⟨sentence, generates⟩
    simp [size, nonempty, none]

def paired : Grammar :=
  ⟨"S", [⟨"S", [[.terminal "a", .nonterminal "A", .terminal "b"], [.nonterminal "U"], [.nonterminal "S"]]⟩,
    ⟨"A", [[.nonterminal "S"], [.epsilon]]⟩,
    ⟨"U", [[.nonterminal "U", .terminal "u"]]⟩]⟩

theorem paired_infinite :
    paired.WellFormed ∧ paired.languageSize = .infinite ∧ {sentence | paired.Generates "S" sentence}.Infinite := by
  have wellFormed : paired.WellFormed := by decide
  have size : paired.languageSize = .infinite := by decide +kernel
  exact ⟨wellFormed, size, (languageSizeBy_exact wellFormed fun _ => DependencyGraph.isCyclic_iff).2.2.mp size⟩

end TopDownGrammar.Grammar
