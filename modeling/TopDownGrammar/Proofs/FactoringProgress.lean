import Mathlib.Data.List.Chain
import TopDownGrammar.Proofs.FactoringRuns
import TopDownGrammar.Proofs.HeadSets

/-! What every step of a run does. It resolves one conflict and leaves a grammar that is not the one before. An
expansion comes last, when the alternatives in conflict neither are equal nor begin alike, and what it puts the
alternatives of a nonterminal in for is never left recursive. -/

namespace TopDownGrammar.Grammar

variable {g next : Grammar} {conflict : Conflict} {name front : Name} {a b alternative : Alternative} {rest : List Symbol}
  {expandIndirect : Bool}

def nextConflict? (g : Grammar) (expandIndirect : Bool) : Option Conflict :=
  g.conflictsToTry.find? fun conflict => (g.resolve? expandIndirect g.heads conflict).isSome

theorem factorStep_eq_some : g.factorStep? expandIndirect = some next ↔
    ∃ conflict, g.nextConflict? expandIndirect = some conflict ∧
      g.resolve? expandIndirect g.heads conflict = some next := by
  simp only [factorStep?, nextConflict?]
  induction g.conflictsToTry with
  | nil => simp
  | cons conflict later ih =>
    rw [List.findSome?_cons, List.find?_cons]
    cases resolved : g.resolve? expandIndirect g.heads conflict with
    | none => exact ih
    | some rewritten => simp [resolved]

private theorem mem_of_nextConflict (chosen : g.nextConflict? expandIndirect = some conflict) : conflict ∈ g.conflicts :=
  mem_conflictsToTry.mp (List.mem_of_find?_eq_some chosen)

/-- A conflict of another kind is tried before the indirect ones, and always resolved. -/
private theorem indirect_of_nextConflict (chosen : g.nextConflict? expandIndirect = some conflict)
    (indirect : conflict.kind = .indirect) : ∀ other ∈ g.conflicts, other.kind = .indirect := by
  intro other member
  refine Classical.byContradiction fun direct => ?_
  have tried : other ∈ g.conflicts.filter (·.kind ≠ .indirect) := List.mem_filter.mpr ⟨member, by simpa using direct⟩
  rw [nextConflict?, conflictsToTry, List.find?_append] at chosen
  cases search : (g.conflicts.filter (·.kind ≠ .indirect)).find? fun conflict =>
      (g.resolve? expandIndirect g.heads conflict).isSome with
  | none =>
    have unresolved : g.resolve? expandIndirect g.heads other = none := by
      simpa using List.find?_eq_none.mp search other tried
    exact direct (indirect_of_unresolved unresolved)
  | some found =>
    rw [search, Option.some_or, Option.some_inj] at chosen
    have kind := (List.mem_filter.mp (List.mem_of_find?_eq_some search)).2
    rw [chosen] at kind
    simp [indirect] at kind

/-! A step changes the grammar, whatever the order in which nonterminals are listed. -/

private theorem alternatives_of_agrees (once : g.nonterminals.Nodup) (agrees : g.agrees next = true)
    (listed : name ∈ g.nonterminals) : next.alternatives name = g.alternatives name := by
  obtain ⟨rule, member, rfl⟩ := List.mem_map.mp listed
  rw [((agrees_iff.mp agrees).2.2 rule member).2, alternatives_of_mem once member]

theorem dropAlternative_changes (once : g.nonterminals.Nodup) (located : g.Located conflict a b) :
    g.agrees (g.dropAlternative conflict.nonterminal conflict.later) = false := by
  refine Bool.eq_false_iff.mpr fun same => ?_
  have kept := alternatives_of_agrees once same located.listed
  rw [alternatives_dropAlternative once located.listed, if_pos rfl] at kept
  have inside := (List.getElem?_eq_some_iff.mp located.later).1
  have lengths := congrArg List.length kept
  rw [List.length_eraseIdx_of_lt inside] at lengths
  omega

theorem factorOut_changes (wellFormed : g.WellFormed) {shared : Symbol} {restA restB : List Symbol}
    (located : g.Located conflict (shared :: restA) (shared :: restB)) :
    g.agrees (g.factorOut conflict.nonterminal conflict.earlier conflict.later shared) = false := by
  refine Bool.eq_false_iff.mpr fun same => ?_
  have lengths := (agrees_iff.mp same).2.1
  have longer := congrArg List.length (nonterminals_factorOut wellFormed located)
  simp only [nonterminals, List.length_map, List.length_append, List.length_singleton] at longer
  omega

/-- Putting the alternatives of the front in its place never gives the alternative back, unless the front has itself as
an alternative, and then it is left recursive. -/
private theorem not_mem_expandFront (expandable : isExpandable g.heads alternative = true) :
    alternative ∉ g.expandFront alternative := by
  intro member
  rcases mem_expandFront.mp member with ⟨head, rest, body, rfl, owned, same⟩ | ⟨other, same⟩
  · have pieces := congrArg visible same
    rw [visible_compact, visible_append, visible_nonterminal] at pieces
    have alone : visible body = [.nonterminal head] :=
      List.append_cancel_right (pieces.symm.trans (List.singleton_append ..).symm)
    refine (isExpandable_iff (mem_nonterminals_of_alternative owned)).mp expandable (mem_heads_of_shows owned ?_)
    rw [← shows_visible (fun _ => Iff.rfl), alone, shows_singleton]
    exact Or.inl rfl
  · unfold isExpandable at expandable
    split at expandable
    next name rest => exact other name rest rfl
    next symbol rest =>
      rcases compact_eq_or (.epsilon :: symbol :: rest) with one | plain
      · cases same.trans one
      · exact epsilon_not_mem_visible _ ((same.trans plain) ▸ List.mem_cons_self)
    · cases expandable

/-- Two equal alternatives that begin with anything are in conflict as duplicates. -/
private theorem unlike_of_indirect (once : g.nonterminals.Nodup) (indirect : ∀ other ∈ g.conflicts, other.kind = .indirect)
    {i j : Nat} (atI : (g.alternatives name)[i]? = some alternative) (atJ : (g.alternatives name)[j]? = some alternative)
    {shown : Symbol} (begins : shown ∈ firstOfSequence g.first alternative) : i = j := by
  have ordered : ∀ i j : Nat, (g.alternatives name)[i]? = some alternative →
      (g.alternatives name)[j]? = some alternative → ¬i < j := by
    intro i j atI atJ below
    let shared := firstOfSequence g.first alternative ∩ firstOfSequence g.first alternative
    have common : shown ∈ shared := SymbolSet.mem_inter.mpr ⟨begins, begins⟩
    have member : ⟨name, i, j, shared, .between alternative alternative⟩ ∈ g.conflicts :=
      (mem_conflictsWith once).mpr ⟨alternative, alternative, ⟨below, atI, atJ, rfl⟩, rfl,
        List.isEmpty_eq_false_iff.mpr (List.ne_nil_of_mem common)⟩
    have kind := indirect _ member
    rw [between_eq_duplicate.mpr rfl] at kind
    cases kind
  have notBelow := ordered i j atI atJ
  have notAbove := ordered j i atJ atI
  omega

theorem expandAt_changes (wellFormed : g.WellFormed) (indirect : ∀ other ∈ g.conflicts, other.kind = .indirect)
    {position : Nat} (found : (g.alternatives name)[position]? = some alternative)
    (expandable : isExpandable g.heads alternative = true) {shown : Symbol}
    (begins : shown ∈ firstOfSequence g.first alternative) : g.agrees (g.expandAt name position) = false := by
  refine Bool.eq_false_iff.mpr fun same => ?_
  have owned := List.mem_of_getElem? found
  have still : alternative ∈ (g.expandAt name position).alternatives name := by
    rwa [alternatives_of_agrees wellFormed.once same (mem_nonterminals_of_alternative owned)]
  rcases (mem_expandAt wellFormed found alternative).mp still with given | ⟨k, apart, atK⟩
  · exact not_mem_expandFront expandable given
  · exact apart (unlike_of_indirect wellFormed.once indirect atK found begins)

/-! What is expanded. -/

private theorem listed_of_begins {shown : Symbol} (begins : shown ∈ firstOfSequence g.first (.nonterminal front :: rest)) :
    front ∈ g.nonterminals := by
  rcases mem_firstOfSequence.mp begins with ⟨here, _⟩ | ⟨vanishes, _⟩
  · exact g.first_keyed.listed here
  · exact g.first_keyed.listed vanishes

/-- A nonterminal that may be expanded comes to stand in front of nothing that is derived from it. -/
theorem not_headedBy_of_expandable (listed : front ∈ g.nonterminals)
    (expandable : isExpandable g.heads (.nonterminal front :: rest) = true) :
    ¬g.HeadedBy front (.nonterminal front) :=
  fun headed => (isExpandable_iff listed).mp expandable
    (mem_heads_of_headedBy (fun _ _ owned _ shows => mem_heads_of_shows owned shows) headed)

/-- What a step does that resolves the given conflict. -/
structure Advances (g : Grammar) (expandIndirect : Bool) (conflict : Conflict) (next : Grammar) : Prop where
  chosen : g.nextConflict? expandIndirect = some conflict
  resolved : g.resolve? expandIndirect g.heads conflict = some next
  changed : g.agrees next = false
  last : conflict.kind = .indirect → ∀ other ∈ g.conflicts, other.kind = .indirect
  expanded : conflict.kind = .indirect → ∃ position ∈ [conflict.earlier, conflict.later], ∃ alternative,
    (g.alternatives conflict.nonterminal)[position]? = some alternative ∧
    next = g.expandAt conflict.nonterminal position ∧
    ∀ front rest, alternative = .nonterminal front :: rest →
      front ∈ g.nonterminals ∧ ¬g.HeadedBy front (.nonterminal front)

theorem exists_advances (wellFormed : g.WellFormed) (stepped : g.factorStep? expandIndirect = some next) :
    ∃ conflict, g.Advances expandIndirect conflict next := by
  obtain ⟨conflict, chosen, resolved⟩ := factorStep_eq_some.mp stepped
  have member := mem_of_nextConflict chosen
  obtain ⟨a, b, located⟩ := located_of_mem wellFormed.once member
  have last := indirect_of_nextConflict chosen
  rcases resolve_cases resolved with ⟨duplicate, rfl⟩ | ⟨shared, direct, rfl⟩ | ⟨_, indirect, position, side, expandable, rfl⟩
  · refine ⟨conflict, chosen, resolved, dropAlternative_changes wellFormed.once located, last, fun indirect => ?_⟩
    cases duplicate.symm.trans indirect
  · obtain ⟨_, restA, restB, _, rfl, rfl⟩ := located.fronts direct
    refine ⟨conflict, chosen, resolved, factorOut_changes wellFormed located, last, fun indirect => ?_⟩
    cases direct.symm.trans indirect
  · obtain ⟨shown, inA, inB⟩ := lookahead_of_mem wellFormed.once member located
    obtain ⟨_, alternative, sides, found, rfl⟩ := located.side side
    have begins : shown ∈ firstOfSequence g.first ((g.alternatives conflict.nonterminal).getD position []) := by
      rcases sides with ⟨rfl, _⟩ | ⟨rfl, _⟩
      · rwa [Option.some.inj (found.symm.trans located.earlier)]
      · rwa [Option.some.inj (found.symm.trans located.later)]
    refine ⟨conflict, chosen, resolved, expandAt_changes wellFormed (last indirect) found expandable begins, last, fun _ => ?_⟩
    refine ⟨position, side, _, found, rfl, fun front rest same => ?_⟩
    rw [same] at begins expandable
    have listed := listed_of_begins begins
    exact ⟨listed, not_headedBy_of_expandable listed expandable⟩

/-- The grammars that a run goes through, from the one that it is given to the one that it ends in. -/
def stages (expandIndirect : Bool) : (budget : Nat) → Grammar → List Grammar
  | 0, g => [g]
  | budget + 1, g =>
    match g.factorStep? expandIndirect with
    | none => [g]
    | some next => g :: stages expandIndirect budget next

private theorem head_stages (expandIndirect : Bool) (budget : Nat) (g : Grammar) :
    (stages expandIndirect budget g).head? = some g := by
  cases budget with
  | zero => rfl
  | succ budget =>
    simp only [stages]
    cases g.factorStep? expandIndirect <;> rfl

private theorem length_stages (expandIndirect : Bool) (budget : Nat) (g : Grammar) :
    (stages expandIndirect budget g).length = (factorSteps expandIndirect budget g).steps + 1 := by
  induction budget, g using steps_induction expandIndirect with
  | spent g => rfl
  | stuck budget g stuck => simp [stages, stuck, factorSteps_of_stuck stuck]
  | step budget g next stepped ih => simp [stages, stepped, factorSteps_of_step stepped, ih]

private theorem getLast_stages (expandIndirect : Bool) (budget : Nat) (g : Grammar) :
    (stages expandIndirect budget g).getLast? = some (factorSteps expandIndirect budget g).grammar := by
  induction budget, g using steps_induction expandIndirect with
  | spent g => rfl
  | stuck budget g stuck => simp [stages, stuck, factorSteps_of_stuck stuck]
  | step budget g next stepped ih => simp [stages, stepped, factorSteps_of_step stepped, List.getLast?_cons, ih]

/-- Every step of a run resolves the first conflict that allows it and changes the grammar. One that expands a front is
taken only where all conflicts are indirect, and a nonterminal that it expands owns rules and is not left recursive. -/
theorem factor_advances (wellFormed : g.WellFormed) (options : FactorOptions) :
    let passed := stages options.expandIndirect options.maxSteps g
    passed.head? = some g ∧ passed.getLast? = some (g.factor options).grammar ∧
      passed.length = (g.factor options).steps + 1 ∧
      passed.IsChain fun current next => ∃ conflict, current.Advances options.expandIndirect conflict next := by
  refine ⟨head_stages _ _ _, getLast_stages _ _ _, length_stages _ _ _, ?_⟩
  generalize options.maxSteps = budget
  induction budget, g using steps_induction options.expandIndirect with
  | spent g => exact .singleton _
  | stuck budget g stuck =>
    simp only [stages, stuck]
    exact .singleton _
  | step budget g next stepped ih =>
    simp only [stages, stepped]
    obtain ⟨_, _, rewrites⟩ := rewrites_of_factorStep wellFormed.once stepped
    refine List.isChain_cons.mpr ⟨fun follower member => ?_, ih (rewrites.wellFormed wellFormed)⟩
    rw [head_stages, Option.mem_some_iff] at member
    exact exists_advances wellFormed (member ▸ stepped)

/-- The alternatives of `S` begin alike only once `A` is expanded, which leads back to itself but not in front. -/
def unfolding : Grammar :=
  ⟨"S", [⟨"S", [[.nonterminal "A", .terminal "b"], [.terminal "a", .terminal "c"]]⟩,
    ⟨"A", [[.terminal "a"], [.terminal "d", .nonterminal "A"]]⟩]⟩

theorem unfolding_advances :
    let passed := stages true 32 unfolding
    unfolding.WellFormed ∧ unfolding.conflicts.map Conflict.kind = [.indirect] ∧ passed.length = 3 ∧
      passed.head? = some unfolding ∧
      passed.IsChain fun current next => ∃ conflict, current.Advances true conflict next := by
  intro passed
  have wellFormed : unfolding.WellFormed := by decide
  obtain ⟨head, _, length, chain⟩ := factor_advances wellFormed {}
  have steps : (unfolding.factor {}).steps = 2 := by decide +kernel
  exact ⟨wellFormed, by decide +kernel, length.trans (congrArg (· + 1) steps), head, chain⟩

end TopDownGrammar.Grammar
