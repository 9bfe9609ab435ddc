import TopDownGrammar.Proofs.FactoringRuns

/-! Factoring without expansions. A symbol that is taken out stands at least twice in the grammar, and an
invented nonterminal at most once, so only symbols that were there from the beginning are taken out. Each
time there is one of them less, against one production more, and dropping a duplicate costs a production. -/

namespace TopDownGrammar.Grammar

variable {g next : Grammar} {conflict : Conflict} {name : Name} {alternatives : List Alternative}

def elsewhere (g : Grammar) (name : Name) : List Production :=
  g.productions.filter fun production => !decide (production.lhs = name)

private theorem productions_perm (owned : ∀ rule ∈ g.rules, rule.alternatives ≠ []) (once : g.nonterminals.Nodup) (name : Name) :
    g.productions.Perm ((g.alternatives name).map (Production.mk name) ++ g.elsewhere name) := by
  rw [map_mk_alternatives owned once]
  exact (List.filter_append_perm _ _).symm

private theorem elsewhere_replaceAlternatives : (g.replaceAlternatives name alternatives).elsewhere name = g.elsewhere name := by
  have own : ∀ rule : Rule, rule.lhs = name →
      rule.productions.filter (fun production => !decide (production.lhs = name)) = [] := by
    intro rule same
    refine List.filter_eq_nil_iff.mpr fun production member => ?_
    simp [lhs_of_mem_productions member, same]
  simp only [elsewhere, productions, replaceAlternatives, List.filter_flatMap]
  induction g.rules with
  | nil => rfl
  | cons rule rest ih =>
    rw [List.map_cons, List.filter_cons, List.flatMap_cons, ← ih]
    by_cases here : rule.lhs = name
    · rw [if_pos here, own rule here]
      split
      · rw [List.flatMap_cons, own ⟨name, alternatives⟩ rfl]
      · rfl
    · rw [if_neg here]
      split
      · rw [List.flatMap_cons]
      next empty =>
        have none : rule.alternatives = [] := by simpa using empty
        simp [Rule.productions, none]

private theorem productions_replaceAlternatives (once : g.nonterminals.Nodup) (listed : name ∈ g.nonterminals) :
    (g.replaceAlternatives name alternatives).productions.Perm
      (alternatives.map (Production.mk name) ++ g.elsewhere name) := by
  have owned : ∀ rule ∈ (g.replaceAlternatives name alternatives).rules, rule.alternatives ≠ [] :=
    fun rule member => (mem_replaceAlternatives.mp member).1
  have own : (g.replaceAlternatives name alternatives).alternatives name = alternatives := by
    rw [alternatives_replaceAlternatives once listed, if_pos rfl]
  have parts := productions_perm owned (nodup_replaceAlternatives once) name
  rwa [own, elsewhere_replaceAlternatives] at parts

/-- Every occurrence of a symbol that stands for more than the empty string. -/
def content (g : Grammar) : List Symbol :=
  visible g.occurrences

def remote (g : Grammar) (name : Name) : List Symbol :=
  visible ((g.elsewhere name).flatMap (·.rhs))

private theorem content_perm_of_productions {own : List Alternative}
    (parts : g.productions.Perm (own.map (Production.mk name) ++ next.elsewhere name)) :
    g.content.Perm (visible own.flatten ++ next.remote name) := by
  have joined : (own.map (Production.mk name) ++ next.elsewhere name).flatMap (·.rhs) =
      own.flatten ++ (next.elsewhere name).flatMap (·.rhs) := by
    simp [List.flatMap_map, List.flatMap_id']
  have symbols := (parts.flatMap_right (·.rhs)).filter fun symbol => !symbol.isEpsilon
  rw [joined] at symbols
  exact visible_append _ _ ▸ symbols

private theorem dropAlternative_counts (wellFormed : g.WellFormed) {position : Nat} {alternative : Alternative}
    (found : (g.alternatives name)[position]? = some alternative) :
    g.content.Perm (visible alternative ++ (g.dropAlternative name position).content) ∧
      g.productions.length = (g.dropAlternative name position).productions.length + 1 := by
  obtain ⟨inside, rfl⟩ := List.getElem?_eq_some_iff.mp found
  have listed := mem_nonterminals_of_alternative (List.getElem_mem inside)
  have before := productions_perm wellFormed.owned wellFormed.once name
  have after : (g.dropAlternative name position).productions.Perm _ :=
    productions_replaceAlternatives wellFormed.once listed
  have taken := List.getElem_cons_eraseIdx_perm inside
  constructor
  · have split : (visible (g.alternatives name).flatten).Perm
        (visible (g.alternatives name)[position] ++ visible ((g.alternatives name).eraseIdx position).flatten) := by
      rw [← visible_append]
      exact taken.symm.flatten.filter _
    have later := (content_perm_of_productions after).append_left (visible (g.alternatives name)[position])
    rw [← List.append_assoc] at later
    exact (content_perm_of_productions before).trans ((split.append_right _).trans later.symm)
  · have total := before.length_eq
    have rest := after.length_eq
    have own := taken.length_eq
    simp only [List.length_append, List.length_map, List.length_cons] at total rest own
    omega

/-- Taking out a shared front moves what follows it, and the fresh nonterminal stands for one of the two fronts. -/
private theorem content_factorOut (wellFormed : g.WellFormed) {shared : Symbol} {restA restB : List Symbol}
    (solid : shared ≠ .epsilon) (located : g.Located conflict (shared :: restA) (shared :: restB)) :
    ∃ others, g.content.Perm (shared :: shared :: others) ∧
      (g.factorOut conflict.nonterminal conflict.earlier conflict.later shared).content.Perm
        (shared :: .nonterminal (g.freshName conflict.nonterminal) :: others) := by
  obtain ⟨rest, own, kept⟩ := located.takenOut_perm shared
  have before := content_perm_of_productions
    (productions_perm wellFormed.owned wellFormed.once conflict.nonterminal)
  have after : (g.replaceAlternatives conflict.nonterminal (g.takenOut conflict shared)).content.Perm _ :=
    content_perm_of_productions (productions_replaceAlternatives wellFormed.once located.listed)
  refine ⟨(visible restA ++ visible restB) ++ (visible rest.flatten ++ g.remote conflict.nonterminal), ?_, ?_⟩
  · have fronts : (visible (g.alternatives conflict.nonterminal).flatten).Perm
        (shared :: visible restA ++ shared :: (visible restB ++ visible rest.flatten)) := by
      have symbols := own.flatten.filter fun symbol => !symbol.isEpsilon
      have cut : visible ((shared :: restA) :: (shared :: restB) :: rest).flatten =
          shared :: visible restA ++ shared :: (visible restB ++ visible rest.flatten) := by
        simp [visible_cons solid]
      exact cut ▸ symbols
    have whole := before.trans ((fronts.trans (List.perm_middle.trans (.refl _))).append_right _)
    simpa only [List.cons_append, List.append_assoc] using whole
  · have fronts : (visible (g.takenOut conflict shared).flatten).Perm
        (shared :: .nonterminal (g.freshName conflict.nonterminal) :: visible rest.flatten) := by
      have symbols := kept.flatten.filter fun symbol => !symbol.isEpsilon
      have cut : visible ([shared, .nonterminal (g.freshName conflict.nonterminal)] :: rest).flatten =
          shared :: .nonterminal (g.freshName conflict.nonterminal) :: visible rest.flatten := by
        rw [List.flatten_cons, List.cons_append, visible_cons solid]
        rfl
      exact cut ▸ symbols
    have extended : (g.factorOut conflict.nonterminal conflict.earlier conflict.later shared).content =
        (g.replaceAlternatives conflict.nonterminal (g.takenOut conflict shared)).content ++
          (visible restA ++ visible restB) := by
      simp [content, occurrences, productions, rules_factorOut located, Rule.productions]
    rw [extended]
    have whole := (after.trans (fronts.append_right _)).append_right (visible restA ++ visible restB)
    exact whole.trans ((List.perm_append_comm.cons _).cons _)

private theorem length_productions_factorOut (wellFormed : g.WellFormed) {shared : Symbol} {restA restB : List Symbol}
    (located : g.Located conflict (shared :: restA) (shared :: restB)) :
    (g.factorOut conflict.nonterminal conflict.earlier conflict.later shared).productions.length =
      g.productions.length + 1 := by
  obtain ⟨rest, own, kept⟩ := located.takenOut_perm shared
  have before := (productions_perm wellFormed.owned wellFormed.once conflict.nonterminal).length_eq
  have after : (g.replaceAlternatives conflict.nonterminal (g.takenOut conflict shared)).productions.length = _ :=
    (productions_replaceAlternatives wellFormed.once located.listed).length_eq
  have added : (g.factorOut conflict.nonterminal conflict.earlier conflict.later shared).productions.length =
      (g.replaceAlternatives conflict.nonterminal (g.takenOut conflict shared)).productions.length + 2 := by
    simp [productions, rules_factorOut located, Rule.productions]
  have ownLength := own.length_eq
  have keptLength := kept.length_eq
  simp only [List.length_append, List.length_map, List.length_cons] at before after ownLength keptLength
  omega

/-- No invented symbol stands in the grammar twice. -/
structure Sparse (g : Grammar) (invented : List Symbol) : Prop where
  wellFormed : g.WellFormed
  once : ∀ symbol ∈ invented, g.content.count symbol ≤ 1

/-- What bounds the steps that are left: occurrences of symbols that were not invented count twice. -/
def remainingSteps (g : Grammar) (invented : List Symbol) : Nat :=
  2 * g.content.countP (· ∉ invented) + g.productions.length

theorem remainingSteps_dropAlternative {invented : List Symbol} (sparse : g.Sparse invented)
    {a : Alternative} (located : g.Located conflict a a) :
    (g.dropAlternative conflict.nonterminal conflict.later).Sparse invented ∧
      (g.dropAlternative conflict.nonterminal conflict.later).remainingSteps invented < g.remainingSteps invented := by
  obtain ⟨symbols, total⟩ := dropAlternative_counts sparse.wellFormed located.later
  refine ⟨⟨wellFormed_dropAlternative sparse.wellFormed _ _, fun symbol member => ?_⟩, ?_⟩
  · have before := sparse.once symbol member
    rw [symbols.count_eq, List.count_append] at before
    omega
  · have fewer := symbols.countP_eq (· ∉ invented)
    rw [List.countP_append] at fewer
    simp only [remainingSteps]
    omega

/-- One of two equal symbols has given way to a symbol that was not there before. -/
structure Exchanged (before after others : List Symbol) (shared fresh : Symbol) : Prop where
  pair : before.Perm (shared :: shared :: others)
  changed : after.Perm (shared :: fresh :: others)
  absent : fresh ∉ before

section Exchanges

variable {before after others invented : List Symbol} {shared fresh : Symbol}

private theorem Exchanged.unlike (exchanged : Exchanged before after others shared fresh) : fresh ≠ shared ∧ fresh ∉ others := by
  have parts := mt exchanged.pair.mem_iff.mpr exchanged.absent
  simp only [List.mem_cons, not_or] at parts
  exact parts.2

private theorem Exchanged.original (exchanged : Exchanged before after others shared fresh)
    (once : ∀ symbol ∈ invented, before.count symbol ≤ 1) : shared ∉ invented := by
  intro member
  have twice := once shared member
  rw [exchanged.pair.count_eq, List.count_cons_self, List.count_cons_self] at twice
  omega

private theorem Exchanged.count_le (exchanged : Exchanged before after others shared fresh)
    (once : ∀ symbol ∈ invented, before.count symbol ≤ 1) : ∀ symbol ∈ fresh :: invented, after.count symbol ≤ 1 := by
  obtain ⟨unlike, absent⟩ := exchanged.unlike
  intro symbol member
  rw [exchanged.changed.count_eq]
  rcases List.mem_cons.mp member with rfl | old
  · simp [List.count_cons_of_ne unlike.symm, List.count_eq_zero.mpr absent]
  · have few := once symbol old
    have different : shared ≠ symbol := fun same => exchanged.original once (same ▸ old)
    rw [exchanged.pair.count_eq, List.count_cons_of_ne different, List.count_cons_of_ne different] at few
    rw [List.count_cons_of_ne different, List.count_cons]
    split
    next same => simp [← eq_of_beq same, List.count_eq_zero.mpr absent]
    next => exact few

private theorem Exchanged.countP_lt (exchanged : Exchanged before after others shared fresh)
    (once : ∀ symbol ∈ invented, before.count symbol ≤ 1) :
    after.countP (· ∉ fresh :: invented) < before.countP (· ∉ invented) := by
  have original := exchanged.original once
  have kept : others.countP (· ∉ fresh :: invented) ≤ others.countP (· ∉ invented) :=
    List.countP_mono_left fun symbol _ outside => by simp_all
  have twice : before.countP (· ∉ invented) = others.countP (· ∉ invented) + 2 := by
    rw [exchanged.pair.countP_eq, List.countP_cons_of_pos (by simpa using original),
      List.countP_cons_of_pos (by simpa using original)]
  have still : after.countP (· ∉ fresh :: invented) = others.countP (· ∉ fresh :: invented) + 1 := by
    rw [exchanged.changed.countP_eq, List.countP_cons_of_pos (by simp [original, exchanged.unlike.1.symm]),
      List.countP_cons_of_neg (by simp)]
  omega

end Exchanges

private theorem freshName_not_mem_content (g : Grammar) (base : String) : .nonterminal (g.freshName base) ∉ g.content := by
  intro member
  obtain ⟨production, present, inside⟩ := List.mem_flatMap.mp (mem_visible.mp member).1
  exact g.freshName_not_mem base (List.mem_cons_of_mem _
    (List.mem_flatMap.mpr ⟨production, present, List.mem_cons_of_mem _ inside⟩))

theorem remainingSteps_factorOut {invented : List Symbol} (sparse : g.Sparse invented) {shared : Symbol}
    {restA restB : List Symbol} (solid : shared ≠ .epsilon)
    (located : g.Located conflict (shared :: restA) (shared :: restB)) :
    (g.factorOut conflict.nonterminal conflict.earlier conflict.later shared).Sparse
        (.nonterminal (g.freshName conflict.nonterminal) :: invented) ∧
      (g.factorOut conflict.nonterminal conflict.earlier conflict.later shared).remainingSteps
        (.nonterminal (g.freshName conflict.nonterminal) :: invented) < g.remainingSteps invented := by
  obtain ⟨others, before, after⟩ := content_factorOut sparse.wellFormed solid located
  have exchanged := Exchanged.mk before after (g.freshName_not_mem_content conflict.nonterminal)
  refine ⟨⟨?_, exchanged.count_le sparse.once⟩, ?_⟩
  · exact wellFormed_factorOut sparse.wellFormed located.earlier located.later
  · have fewer := exchanged.countP_lt sparse.once
    have total := length_productions_factorOut sparse.wellFormed located
    rw [remainingSteps, remainingSteps, total]
    omega

theorem Sparse.step {invented : List Symbol} (sparse : g.Sparse invented) (stepped : g.factorStep? false = some next) :
    ∃ later, next.Sparse later ∧ next.remainingSteps later < g.remainingSteps invented := by
  obtain ⟨conflict, member, resolved⟩ := List.exists_of_findSome?_eq_some stepped
  obtain ⟨a, b, located⟩ := located_of_mem sparse.wellFormed.once (mem_conflictsToTry.mp member)
  rcases resolve_cases resolved with ⟨duplicate, rfl⟩ | ⟨shared, direct, rfl⟩ | ⟨forbidden, _⟩
  · obtain rfl := between_eq_duplicate.mp (located.kind.symm.trans duplicate)
    exact ⟨invented, remainingSteps_dropAlternative sparse located⟩
  · obtain ⟨solid, restA, restB, _, rfl, rfl⟩ := located.fronts direct
    exact ⟨_, remainingSteps_factorOut sparse solid located⟩
  · cases forbidden

/-- Without expansions factoring comes to an end of its own, and only indirect conflicts are left then. -/
theorem factor_unexpanded (wellFormed : g.WellFormed) (maxSteps : Nat) :
    (g.factor ⟨maxSteps, false⟩).steps ≤ 2 * (visible g.occurrences).length + g.productions.length ∧
      (2 * (visible g.occurrences).length + g.productions.length < maxSteps →
        ∀ conflict ∈ (g.factor ⟨maxSteps, false⟩).grammar.conflicts, conflict.kind = .indirect) := by
  have initially : g.Sparse [] := ⟨wellFormed, by simp⟩
  have bound : g.remainingSteps [] = 2 * (visible g.occurrences).length + g.productions.length := by
    simp [remainingSteps, content]
  have lowered : ∀ (g next : Grammar) (rank : Nat), (∃ invented, g.Sparse invented ∧ g.remainingSteps invented = rank) →
      g.factorStep? false = some next →
        ∃ less, less < rank ∧ ∃ invented, next.Sparse invented ∧ next.remainingSteps invented = less := by
    intro g next rank ranked stepped
    obtain ⟨invented, sparse, rfl⟩ := ranked
    obtain ⟨later, still, less⟩ := sparse.step stepped
    exact ⟨_, less, later, still, rfl⟩
  obtain ⟨rest, _, bounded, stuck⟩ := factorSteps_ranked false _ lowered ⟨[], initially, bound⟩ maxSteps
  refine ⟨Nat.le_of_add_right_le bounded, fun enough conflict member => ?_⟩
  exact indirect_of_unresolved (factorStep_eq_none.mp (stuck (Nat.le_of_lt enough)) conflict member)

/-- A duplicate, a common front, and a terminal that begins `A` as well. -/
def crowded : Grammar :=
  ⟨"S", [⟨"S", [[.terminal "a", .terminal "b"], [.terminal "a", .terminal "c"], [.nonterminal "A", .terminal "d"],
    [.terminal "a", .terminal "b"]]⟩, ⟨"A", [[.terminal "a"]]⟩]⟩

theorem crowded_unexpanded : crowded.WellFormed ∧ (crowded.factor ⟨24, false⟩).steps ≤ 23 ∧
    (crowded.factor ⟨24, false⟩).grammar.conflicts ≠ [] ∧
      ∀ conflict ∈ (crowded.factor ⟨24, false⟩).grammar.conflicts, conflict.kind = .indirect := by
  have wellFormed : crowded.WellFormed := by decide
  obtain ⟨bounded, indirect⟩ := factor_unexpanded wellFormed 24
  exact ⟨wellFormed, bounded, by decide +kernel, indirect (by decide)⟩

end TopDownGrammar.Grammar
