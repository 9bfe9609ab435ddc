import TopDownGrammar.Grammar.Canonical
import TopDownGrammar.Proofs.GivenProductions

/-! The canonical rules of a grammar say what it consists of and nothing of the order in which it was written. What is
built from them lists everything in ascending order, and its canonical rules are its own. -/

namespace TopDownGrammar.Grammar

variable {g h : Grammar} {name : Name}

theorem canonicalRules_perm (g : Grammar) : g.canonicalRules.Perm (g.rules.map Rule.sorted) :=
  List.mergeSort_perm _ _

private theorem canonicalRules_eq_iff_perm :
    g.canonicalRules = h.canonicalRules ↔ (g.rules.map Rule.sorted).Perm (h.rules.map Rule.sorted) :=
  mergeSort_eq_iff Rule.notAfter_trans Rule.notAfter_total Rule.notAfter_antisymm

private theorem map_sorted_rules (once : g.nonterminals.Nodup) :
    g.rules.map Rule.sorted = g.nonterminals.map fun name => ⟨name, sortSequences (g.alternatives name)⟩ := by
  rw [nonterminals, List.map_map]
  apply List.map_congr_left
  intro rule member
  exact congrArg (fun alternatives => Rule.mk rule.lhs (sortSequences alternatives)) (alternatives_of_mem once member).symm

theorem canonicalRules_eq_iff (onceG : g.nonterminals.Nodup) (onceH : h.nonterminals.Nodup) :
    g.canonicalRules = h.canonicalRules ↔ (∀ name, name ∈ g.nonterminals ↔ name ∈ h.nonterminals) ∧
      ∀ name ∈ g.nonterminals, (g.alternatives name).Perm (h.alternatives name) := by
  rw [canonicalRules_eq_iff_perm, map_sorted_rules onceG, map_sorted_rules onceH]
  constructor
  · intro permuted
    have names : ∀ name, name ∈ g.nonterminals ↔ name ∈ h.nonterminals := by
      have reordered := permuted.map Rule.lhs
      simp only [List.map_map, Function.comp_def, List.map_id'] at reordered
      exact fun name => reordered.mem_iff
    refine ⟨names, ?_⟩
    intro name listed
    obtain ⟨other, _, same⟩ := List.mem_map.mp (permuted.mem_iff.mp (List.mem_map_of_mem listed))
    obtain ⟨rfl, equal⟩ := Rule.mk.inj same
    exact sortSequences_eq_iff.mp equal.symm
  · intro same
    obtain ⟨names, alternatives⟩ := same
    have rules : ∀ name ∈ g.nonterminals, Rule.mk name (sortSequences (g.alternatives name)) =
        ⟨name, sortSequences (h.alternatives name)⟩ :=
      fun name listed => congrArg (Rule.mk name) (sortSequences_eq_iff.mpr (alternatives name listed))
    rw [List.map_congr_left rules]
    exact ((List.perm_ext_iff_of_nodup onceG onceH).mpr names).map _

/-! The grammar with its rules in order. -/

/-- The same grammar with everything listed in ascending order. -/
def arranged (g : Grammar) : Grammar :=
  ⟨g.start, g.canonicalRules⟩

private theorem nonterminals_arranged_perm (g : Grammar) : g.arranged.nonterminals.Perm g.nonterminals := by
  have reordered := g.canonicalRules_perm.map Rule.lhs
  rwa [List.map_map] at reordered

private theorem origin_arranged {rule : Rule} (member : rule ∈ g.arranged.rules) : ∃ old ∈ g.rules, old.sorted = rule :=
  List.mem_map.mp (g.canonicalRules_perm.mem_iff.mp member)

private theorem alternatives_arranged_sorted {rule : Rule} (member : rule ∈ g.arranged.rules) :
    rule.alternatives.Pairwise (· ≤ ·) := by
  obtain ⟨old, _, rfl⟩ := origin_arranged member
  exact sortSequences_sorted old.alternatives

theorem wellFormed_arranged (wellFormed : g.WellFormed) : g.arranged.WellFormed := by
  have kept : ∀ rule : Rule, ∀ alternative, alternative ∈ rule.sorted.alternatives ↔ alternative ∈ rule.alternatives :=
    fun rule _ => (sortSequences_perm rule.alternatives).mem_iff
  refine ⟨wellFormed.start, ?_, ?_, ?_, ?_, g.nonterminals_arranged_perm.nodup_iff.mpr wellFormed.once⟩
  all_goals
    intro rule member
    obtain ⟨old, present, rfl⟩ := origin_arranged member
  · exact wellFormed.names old present
  · exact fun alternative inside => wellFormed.symbols old present alternative ((kept old alternative).mp inside)
  · exact fun alternative inside => wellFormed.nonempty old present alternative ((kept old alternative).mp inside)
  · obtain ⟨alternative, inside⟩ := List.exists_mem_of_ne_nil _ (wellFormed.owned old present)
    exact List.ne_nil_of_mem ((kept old alternative).mpr inside)

private theorem nonterminals_arranged_sorted (once : g.nonterminals.Nodup) : g.arranged.nonterminals.Pairwise (· < ·) := by
  have ordered := List.pairwise_mergeSort Rule.notAfter_trans Rule.notAfter_total (g.rules.map Rule.sorted)
  have different := List.pairwise_map.mp (g.nonterminals_arranged_perm.nodup_iff.mpr once)
  apply List.pairwise_map.mpr
  apply List.Pairwise.imp₂ _ ordered different
  intro first second before unequal
  exact (Rule.notAfter_iff.mp before).resolve_right fun both => unequal both.1

theorem canonicalRules_arranged (g : Grammar) : g.arranged.canonicalRules = g.canonicalRules := by
  have again : (g.rules.map Rule.sorted).map Rule.sorted = g.rules.map Rule.sorted := by
    rw [List.map_map]
    apply List.map_congr_left
    exact fun rule _ => congrArg (Rule.mk rule.lhs) (sortSequences_idem rule.alternatives)
  apply canonicalRules_eq_iff_perm.mpr
  rw [← again]
  exact g.canonicalRules_perm.map Rule.sorted

/-- Two grammars have the same canonical rules if and only if they own the same alternatives, each as often, for the
same nonterminals. What is built from the canonical rules has these for its own, lists everything in ascending order,
and is built again from its own canonical rules. -/
theorem canonicalRules_canonical (wellFormedG : g.WellFormed) (wellFormedH : h.WellFormed) :
    (g.canonicalRules = h.canonicalRules ↔ (∀ name, name ∈ g.nonterminals ↔ name ∈ h.nonterminals) ∧
      ∀ name ∈ g.nonterminals, (g.alternatives name).Perm (h.alternatives name)) ∧
    ∃ sorted, build (.nonterminal g.start) ((g.canonicalRules.flatMap Rule.productions).map Production.unchecked) =
        .ok sorted ∧
      sorted.start = g.start ∧ sorted.canonicalRules = g.canonicalRules ∧ sorted.rules = sorted.canonicalRules ∧
      sorted.nonterminals.Pairwise (· < ·) ∧ (∀ rule ∈ sorted.rules, rule.alternatives.Pairwise (· ≤ ·)) ∧
      build (.nonterminal sorted.start) ((sorted.canonicalRules.flatMap Rule.productions).map Production.unchecked) =
        .ok sorted := by
  have built := (wellFormed_arranged wellFormedG).build_productions
  have stays := g.canonicalRules_arranged
  refine ⟨canonicalRules_eq_iff wellFormedG.once wellFormedH.once, g.arranged, built, rfl, stays, stays.symm,
    nonterminals_arranged_sorted wellFormedG.once, fun rule => alternatives_arranged_sorted, ?_⟩
  rw [stays]
  exact built

def tumbled : Grammar :=
  ⟨"S", [⟨"S", [[.terminal "b"], [.nonterminal "A", .terminal "a"], [.terminal "b"], [.nonterminal "A"]]⟩,
    ⟨"A", [[.epsilon], [.terminal "a"]]⟩]⟩

def straightened : Grammar :=
  ⟨"S", [⟨"A", [[.terminal "a"], [.epsilon]]⟩,
    ⟨"S", [[.nonterminal "A"], [.nonterminal "A", .terminal "a"], [.terminal "b"], [.terminal "b"]]⟩]⟩

/-- Of the alternatives of `S` another one is given twice. -/
def doubledOtherwise : Grammar :=
  ⟨"S", [⟨"A", [[.terminal "a"], [.epsilon]]⟩,
    ⟨"S", [[.nonterminal "A"], [.nonterminal "A", .terminal "a"], [.nonterminal "A"], [.terminal "b"]]⟩]⟩

theorem tumbled_canonicalRules :
    tumbled.WellFormed ∧ straightened.WellFormed ∧ doubledOtherwise.WellFormed ∧
      tumbled.canonicalRules = straightened.canonicalRules ∧ tumbled.canonicalRules ≠ doubledOtherwise.canonicalRules := by
  have wellFormed : tumbled.WellFormed ∧ straightened.WellFormed ∧ doubledOtherwise.WellFormed := by decide
  refine ⟨wellFormed.1, wellFormed.2.1, wellFormed.2.2, ?_, ?_⟩
  · apply (canonicalRules_canonical wellFormed.1 wellFormed.2.1).1.mpr
    refine ⟨?_, by decide⟩
    intro name
    exact List.Perm.mem_iff (by decide)
  · intro same
    have permuted := ((canonicalRules_canonical wellFormed.1 wellFormed.2.2).1.mp same).2 "S" (by decide)
    exact absurd permuted (by decide)

end TopDownGrammar.Grammar
