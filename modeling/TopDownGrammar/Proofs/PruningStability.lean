import TopDownGrammar.Proofs.UsefulSymbols

/-! Pruning a second time. The sets are computed anew for the pruned grammar, whose fixed points are those of
another system of rules. They come out the same because what put a symbol into a set has been kept, so nothing
is left to take out. -/

namespace TopDownGrammar.Grammar

variable {g : Grammar} {name : Name}

theorem productive_productiveOnly (wellFormed : g.WellFormed) (fertile : .nonterminal g.start ∈ g.productive) :
    g.productiveOnly.productive = g.productive := by
  apply SymbolSet.ext
  intro symbol
  rw [mem_productive (wellFormed_productiveOnly wellFormed), mem_productive wellFormed]
  simp only [language_productiveOnly fertile wellFormed]

private theorem start_not_mem_productive_idle (wellFormed : (idle name).WellFormed) :
    .nonterminal name ∉ (idle name).productive := by
  rw [nonterminal_mem_productive wellFormed, language_idle]
  rintro ⟨sentence, generates⟩
  exact Language.notMem_zero sentence generates

private theorem productiveOnly_idle (wellFormed : (idle name).WellFormed) : (idle name).productiveOnly = idle name :=
  productiveOnly_of_barren (start_not_mem_productive_idle wellFormed)

theorem productiveOnly_productiveOnly (wellFormed : g.WellFormed) :
    g.productiveOnly.productiveOnly = g.productiveOnly := by
  have pruned := wellFormed_productiveOnly wellFormed
  by_cases fertile : .nonterminal g.start ∈ g.productive
  · have same := productive_productiveOnly wellFormed fertile
    apply productiveOnly_eq_self (by rwa [same, start_productiveOnly]) pruned
    intro production listed
    rw [same]
    exact ((mem_alternatives_productiveOnly fertile wellFormed.once).mp ((mem_alternatives pruned.once).mpr listed)).2
  · rw [productiveOnly_of_barren fertile] at pruned ⊢
    exact productiveOnly_idle pruned

private theorem leads_reachableOnly_iff (once : g.nonterminals.Nodup) :
    Relation.ReflTransGen g.reachableOnly.Leads g.start name ↔ Relation.ReflTransGen g.Leads g.start name := by
  refine ⟨Relation.ReflTransGen.mono ?_ _ _, leads_reachableOnly once⟩
  intro first second leads
  obtain ⟨alternative, owned, inside⟩ := leads
  exact ⟨alternative, ((mem_alternatives_reachableOnly once).mp owned).1, inside⟩

theorem reachable_reachableOnly (once : g.nonterminals.Nodup) : g.reachableOnly.reachable = g.reachable := by
  have pruned : g.reachableOnly.nonterminals.Nodup := nodup_ofProductions _ _
  have start : g.reachableOnly.start = g.start := rfl
  apply SymbolSet.ext
  intro symbol
  rw [mem_reachable pruned, mem_reachable once, start]
  apply or_congr_right
  apply exists_congr
  intro name
  apply exists_congr
  intro alternative
  rw [leads_reachableOnly_iff once, mem_alternatives_reachableOnly once]
  tauto

theorem reachableOnly_reachableOnly (wellFormed : g.WellFormed) : g.reachableOnly.reachableOnly = g.reachableOnly := by
  have pruned := wellFormed_reachableOnly wellFormed
  apply reachableOnly_eq_self pruned
  intro name listed
  obtain ⟨alternative, owned⟩ := pruned.exists_alternative listed
  rw [reachable_reachableOnly wellFormed.once, nonterminal_mem_reachable wellFormed.once]
  exact ((mem_alternatives_reachableOnly wellFormed.once).mp owned).2

/-- Taking out unreachable symbols makes no symbol unproductive. -/
theorem productiveOnly_usefulOnly (wellFormed : g.WellFormed) : g.usefulOnly.productiveOnly = g.usefulOnly := by
  have pruned := wellFormed_usefulOnly wellFormed
  by_cases fertile : .nonterminal g.start ∈ g.productive
  · apply productiveOnly_eq_self _ pruned
    · intro production listed
      apply allProductive_iff.mpr
      intro inner inside
      have owned := (mem_alternatives pruned.once).mpr listed
      exact (nonterminal_mem_productive pruned).mpr
        (nonempty_of_occurs wellFormed fertile (Or.inr ⟨_, _, owned, inside⟩))
    · rw [nonterminal_mem_productive pruned, start_usefulOnly, language_usefulOnly_start wellFormed]
      exact (nonterminal_mem_productive wellFormed).mp fertile
  · rw [usefulOnly_of_barren fertile] at pruned ⊢
    exact productiveOnly_idle pruned

/-- What has been pruned once stays as it is, order included, and the sets that the second pruning goes by are
those of the first. Only a grammar without sentences has lost its productive symbols. -/
theorem pruning_idempotent (wellFormed : g.WellFormed) :
    g.productiveOnly.productiveOnly = g.productiveOnly ∧
    g.reachableOnly.reachableOnly = g.reachableOnly ∧
    g.usefulOnly.usefulOnly = g.usefulOnly ∧
    g.reachableOnly.reachable = g.reachable ∧
    ((∃ sentence, g.Generates g.start sentence) → g.productiveOnly.productive = g.productive) := by
  refine ⟨productiveOnly_productiveOnly wellFormed, reachableOnly_reachableOnly wellFormed, ?_,
    reachable_reachableOnly wellFormed.once, ?_⟩
  · calc g.usefulOnly.usefulOnly
        = g.usefulOnly.reachableOnly := congrArg reachableOnly (productiveOnly_usefulOnly wellFormed)
      _ = g.usefulOnly := reachableOnly_reachableOnly (wellFormed_productiveOnly wellFormed)
  · intro nonempty
    exact productive_productiveOnly wellFormed ((nonterminal_mem_productive wellFormed).mpr nonempty)

/-- Only once `C` is gone does nothing lead to `B` any more, and `Z` owns no rule. -/
def entangledWeeds : Grammar :=
  ⟨"S", [⟨"S", [[.nonterminal "B", .nonterminal "C"], [.nonterminal "A", .epsilon, .nonterminal "A"],
      [.nonterminal "A", .epsilon, .nonterminal "A"]]⟩,
    ⟨"A", [[.terminal "a", .nonterminal "Z"], [.terminal "a"]]⟩, ⟨"B", [[.terminal "b", .nonterminal "S"]]⟩,
    ⟨"C", [[.nonterminal "C", .terminal "c"]]⟩]⟩

theorem entangledWeeds_pruned :
    entangledWeeds.WellFormed ∧ entangledWeeds.Generates "S" [.terminal "a", .terminal "a"] ∧
      entangledWeeds.usefulOnly.usefulOnly = entangledWeeds.usefulOnly ∧
      entangledWeeds.productiveOnly.productive = entangledWeeds.productive := by
  have wellFormed : entangledWeeds.WellFormed := by decide
  have ownsA : [.terminal "a"] ∈ entangledWeeds.alternatives "A" := by decide
  have ownsS : [.nonterminal "A", .epsilon, .nonterminal "A"] ∈ entangledWeeds.alternatives "S" := by decide
  have generates : entangledWeeds.Generates "S" [.terminal "a", .terminal "a"] := by
    refine ⟨rfl, .step (.replace [] [] ownsS) ?_⟩
    exact .step (.replace [] [.nonterminal "A"] ownsA) (.step (.replace [.terminal "a"] [] ownsA) (.refl _))
  obtain ⟨_, _, useful, _, productive⟩ := pruning_idempotent wellFormed
  exact ⟨wellFormed, generates, useful, productive ⟨_, generates⟩⟩

end TopDownGrammar.Grammar
