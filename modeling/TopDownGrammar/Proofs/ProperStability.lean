import TopDownGrammar.Proofs.StartRenaming

/-! Making a proper grammar proper again. No transform changes a grammar that has the form it aims at, not even the
order of what is listed. If the empty string is a sentence it has been listed first, and then the start gets one more
name. -/

namespace TopDownGrammar.Grammar

variable {g : Grammar}

/-! The empty string is no sentence. -/

namespace ProperForm

variable (proper : g.ProperForm) (plain : [.epsilon] ∉ g.alternatives g.start)

include proper plain

theorem epsilonFree_eq_self : g.epsilonFree = g := by
  have stays : .nonterminal g.start ∉ g.nullable := by
    intro vanishes
    exact plain (proper.start_of_empty ((nonterminal_mem_nullable proper.wellFormed).mp vanishes)).2
  have within : ∀ production ∈ g.productions, production ∈ g.productions ∧ production.rhs ≠ [.epsilon] := by
    refine fun production listed => ⟨listed, fun empty => plain ?_⟩
    have owned := (mem_alternatives proper.wellFormed.once).mpr listed
    rw [empty] at owned
    exact (proper.epsilon _ _ owned List.mem_cons_self).1 ▸ owned
  rw [epsilonFree, if_neg stays, shortened, proper.flatMap_omissions within, distinct_of_nodup proper.nodup,
    ofProductions_self proper.wellFormed.owned proper.wellFormed.once]

/-- A proper grammar without the empty string is left as it is. -/
theorem proper_eq_self (nonempty : ∃ sentence, g.Generates g.start sentence) : g.proper = g := by
  have fertile : .nonterminal g.start ∈ g.productive := (nonterminal_mem_productive proper.wellFormed).mpr nonempty
  have unitFree : g.unitFree = g :=
    unitFree_of_unitless proper.wellFormed proper.nodup fun _ _ owned => proper.isUnit_eq_false owned
  have productive : g.productiveOnly = g := by
    refine productiveOnly_eq_self fertile proper.wellFormed fun production listed => allProductive_iff.mpr ?_
    intro inner inside
    have owned := (mem_alternatives proper.wellFormed.once).mpr listed
    exact (nonterminal_mem_productive proper.wellFormed).mpr (proper.productive inner (Or.inr ⟨_, _, owned, inside⟩))
  have reachable : g.reachableOnly = g := by
    refine reachableOnly_eq_self proper.wellFormed fun name listed => ?_
    exact (nonterminal_mem_reachable proper.wellFormed.once).mpr (proper.leads_of_listed listed)
  rw [Grammar.proper, proper.epsilonFree_eq_self plain, unitFree, usefulOnly, productive, reachable]

end ProperForm

/-! Where the empty string stands when a grammar is made proper. -/

private theorem first_filter {start : Name} {production : Production} {later : List Production} {keep : Production → Bool}
    (first : g.productions = production :: later) (kept : keep production = true) :
    ∃ others, (ofProductions start (g.productions.filter keep)).productions = production :: others := by
  rw [first, List.filter_cons_of_pos kept]
  exact productions_ofProductions_cons _ _ _

private theorem rules_of_first (owned : ∀ rule ∈ g.rules, rule.alternatives ≠ []) {production : Production}
    {later : List Production} (first : g.productions = production :: later) :
    ∃ rest others, g.rules = ⟨production.lhs, production.rhs :: rest⟩ :: others := by
  obtain ⟨start, rules⟩ := g
  cases rules with
  | nil => cases first
  | cons rule others =>
    obtain ⟨name, alternatives⟩ := rule
    obtain ⟨alternative, rest, rfl⟩ := List.exists_cons_of_ne_nil (owned _ List.mem_cons_self)
    obtain ⟨rfl, _⟩ := List.cons.inj first
    exact ⟨rest, others, rfl⟩

section Nullable

variable (wellFormed : g.WellFormed) (empty : g.Generates g.start [])

include wellFormed empty

private theorem first_unitFree : ∃ later,
    g.epsilonFree.unitFree.productions = ⟨g.epsilonFree.start, [.epsilon]⟩ :: later := by
  have vanishes := (nonterminal_mem_nullable wellFormed).mpr empty
  obtain ⟨names, listed⟩ : ∃ names, g.epsilonFree.nonterminals = g.freshName g.start :: names := by
    rw [epsilonFree, if_pos vanishes, nonterminals_ofProductions]
    exact ⟨_, rfl⟩
  have closed := self_mem_unitClosure (nodup_epsilonFree g) (listed ▸ List.mem_cons_self)
  obtain ⟨more, taken⟩ : ∃ more,
      g.epsilonFree.takenOver (g.freshName g.start) = ⟨g.freshName g.start, [.epsilon]⟩ :: more := by
    rw [takenOver, listed, List.filter_cons, if_pos (decide_eq_true closed), List.flatMap_cons,
      alternatives_newStart wellFormed vanishes]
    exact ⟨_, rfl⟩
  rw [unitFree_eq_takenOver, listed, List.flatMap_cons, taken, List.cons_append, distinct,
    start_epsilonFree_of_nullable vanishes]
  exact productions_ofProductions_cons _ _ _

theorem rules_proper : ∃ rest others, g.proper.rules = ⟨g.proper.start, [.epsilon] :: rest⟩ :: others := by
  obtain ⟨_, unitFree⟩ := first_unitFree wellFormed empty
  have fertile := (beforePruning_productive_iff wellFormed).mpr ⟨[], empty⟩
  obtain ⟨_, productive⟩ : ∃ later,
      g.epsilonFree.unitFree.productiveOnly.productions = ⟨g.epsilonFree.start, [.epsilon]⟩ :: later := by
    rw [productiveOnly_of_fertile fertile]
    exact first_filter unitFree rfl
  have found : .nonterminal g.epsilonFree.start ∈ g.epsilonFree.unitFree.productiveOnly.reachable := by
    rw [← start_unitFree, ← start_productiveOnly]
    exact g.epsilonFree.unitFree.productiveOnly.start_mem_reachable
  obtain ⟨_, proper⟩ : ∃ later, g.proper.productions = ⟨g.epsilonFree.start, [.epsilon]⟩ :: later :=
    first_filter productive (decide_eq_true found)
  rw [start_proper]
  exact rules_of_first (wellFormed_proper wellFormed).owned proper

end Nullable

theorem proper_idle {start : Name} (wellFormed : (idle start).WellFormed) : (idle start).proper = idle start := by
  refine proper_of_barren wellFormed ?_
  rintro ⟨sentence, generates⟩
  rw [← mem_language, language_idle] at generates
  exact Language.notMem_zero sentence generates

/-- What is proper already stays as it is, order included. If the empty string is a sentence the start changes its
name, and nothing else changes. -/
theorem proper_again (wellFormed : g.WellFormed) :
    (¬g.Generates g.start [] → g.normalization.proper.normalization.proper = g.normalization.proper) ∧
    (g.Generates g.start [] → g.normalization.proper.normalization.proper =
      g.normalization.proper.renamed g.normalization.proper.start
        (g.normalization.proper.freshName g.normalization.proper.start)) := by
  simp only [proper_normalization]
  constructor
  · intro plain
    by_cases nonempty : ∃ sentence, g.Generates g.start sentence
    · refine (properForm_proper wellFormed nonempty).proper_eq_self ?_ ?_
      · exact mt (epsilon_proper_iff wellFormed nonempty).mp plain
      · obtain ⟨sentence, generates⟩ := nonempty
        refine ⟨sentence, ?_⟩
        rwa [← mem_language, language_proper_start wellFormed]
    · have idles := proper_of_barren wellFormed nonempty
      rw [idles]
      exact proper_idle (idles ▸ wellFormed_proper wellFormed)
  · intro empty
    obtain ⟨rest, others, shape⟩ := rules_proper wellFormed empty
    exact EmptyFirst.proper_eq_renamed ⟨properForm_proper wellFormed ⟨[], empty⟩, shape⟩

theorem bracketed_proper_again :
    bracketed.WellFormed ∧ bracketed.Generates "S" [] ∧ circling.WellFormed ∧ ¬circling.Generates "S" [] ∧
      bracketed.normalization.proper.normalization.proper = bracketed.normalization.proper.renamed "S1" "S11" ∧
      circling.normalization.proper.normalization.proper = circling.normalization.proper := by
  have bracketedWell : bracketed.WellFormed := by decide
  have circlingWell : circling.WellFormed := by decide
  have empty : bracketed.Generates "S" [] := (nonterminal_mem_nullable bracketedWell).mp (by decide +kernel)
  have plain : ¬circling.Generates "S" [] := mt (nonterminal_mem_nullable circlingWell).mpr (by decide +kernel)
  have start : bracketed.normalization.proper.start = "S1" := by decide +kernel
  have fresh : bracketed.normalization.proper.freshName "S1" = "S11" := by decide +kernel
  have renamed := (proper_again bracketedWell).2 empty
  rw [start, fresh] at renamed
  exact ⟨bracketedWell, empty, circlingWell, plain, renamed, (proper_again circlingWell).1 plain⟩

end TopDownGrammar.Grammar
