import TopDownGrammar.Proofs.FactoringLanguage
import TopDownGrammar.Proofs.FactoringRuns
import TopDownGrammar.Proofs.WeighingChanges

/-! What factoring steps cost. As long as a weighing is right for a grammar, every step makes the nonterminal
whose alternatives it rewrites cheaper, and a nonterminal that it invents costs less than that one did before.
Steps therefore lower a potential in which one nonterminal outweighs two that cost less. -/

namespace TopDownGrammar.Grammar

open Weighing

variable {g next : Grammar} {conflict : Conflict} {w : Weighing} {name : Name} {alternatives : List Alternative}
  {alternative : Alternative}

private theorem update_alternatives (wellFormed : g.WellFormed) (listed : name ∈ g.nonterminals) :
    (g.replaceAlternatives name alternatives).alternatives = Function.update g.alternatives name alternatives := by
  funext other
  rw [alternatives_replaceAlternatives wellFormed.once listed, Function.update_apply]

/-- The alternatives of a nonterminal may be replaced at less than it costs, which lowers the potential. -/
theorem replace_lowers (wellFormed : g.WellFormed) (weighs : w.Weighs g.alternatives) (listed : name ∈ g.nonterminals)
    (some : alternatives ≠ []) (carries : ∀ alternative ∈ alternatives, w.Carries (w.fee name) alternative)
    (cheaper : ∀ behind, w.total (w.fee name) alternatives behind < w.cost name behind) :
    ∃ w' : Weighing, w'.Weighs (g.replaceAlternatives name alternatives).alternatives ∧
      w'.potential (g.replaceAlternatives name alternatives).nonterminals < w.potential g.nonterminals := by
  refine ⟨w.lower name (w.total (w.fee name) alternatives), ?_, ?_⟩
  · rw [update_alternatives wellFormed listed]
    exact weighs.replace some carries fun behind => (cheaper behind).le
  · have falls : 0 + 3 ^ w.total (w.fee name) alternatives 0 < 3 ^ w.cost name 0 := by
      rw [Nat.zero_add]
      exact Nat.pow_lt_pow_right (by decide) (cheaper 0)
    rw [nonterminals_replaceAlternatives wellFormed.owned some]
    simpa using potential_lower_lt wellFormed.once listed 0 falls

private theorem total_expandFront_lt (wellFormed : g.WellFormed) (weighs : w.Weighs g.alternatives)
    (owned : alternative ∈ g.alternatives name) (expandable : isExpandable g.heads alternative = true) (behind : Nat) :
    w.total (w.fee name) (g.expandFront alternative) behind < w.sequenceCost alternative behind + w.fee name := by
  have positive := weighs.positive name
  cases alternative with
  | nil => cases expandable
  | cons front rest =>
    cases front with
    | nonterminal other =>
      have below : w.fee name ≤ w.fee other := (weighs.carries name _ owned).all _ List.mem_cons_self
      have covered := weighs.covers other (w.sequenceCost rest behind)
      have expanded : w.total (w.fee name) (g.expandFront (.nonterminal other :: rest)) behind ≤
          w.total (w.fee other) (g.alternatives other) (w.sequenceCost rest behind) := by
        rw [expandFront, total, total, List.map_map]
        refine List.sum_le_sum fun body member => Nat.add_le_add ?_ below
        have some : body ++ rest ≠ [] := by
          simp [(wellFormed.admissible_alternative member).nonempty]
        exact (sequenceCost_compact_le_of_some weighs.splits some behind).trans sequenceCost_append.le
      have cost : w.sequenceCost (.nonterminal other :: rest) behind = w.cost other (w.sequenceCost rest behind) := rfl
      omega
    | epsilon =>
      cases rest with
      | nil => cases expandable
      | cons symbol rest =>
        have shorter := sequenceCost_compact_le_of_some weighs.splits (List.cons_ne_nil symbol rest) behind
        have cost : w.sequenceCost (.epsilon :: symbol :: rest) behind = w.sequenceCost (symbol :: rest) behind + 1 := rfl
        have single : w.total (w.fee name) (g.expandFront (.epsilon :: symbol :: rest)) behind =
            w.sequenceCost (compact (symbol :: rest)) behind + w.fee name := rfl
        omega
    | _ => cases expandable

private theorem carries_expandFront (weighs : w.Weighs g.alternatives) (owned : alternative ∈ g.alternatives name) :
    ∀ expanded ∈ g.expandFront alternative, w.Carries (w.fee name) expanded := by
  have carries := weighs.carries name alternative owned
  have bounded : w.fee name ≤ w.terminal := (Nat.le_mul_of_pos_left _ (by decide)).trans (weighs.bounded name)
  intro expanded member
  rcases mem_expandFront.mp member with ⟨other, rest, body, rfl, inside, rfl⟩ | ⟨_, rfl⟩
  · exact (carries.replaced (weighs.carries other body inside)).compacted bounded
  · exact carries.compacted bounded

theorem merge_lowers (wellFormed : g.WellFormed) (weighs : w.Weighs g.alternatives) {a : Alternative}
    (located : g.Located conflict a a) :
    ∃ w' : Weighing, w'.Weighs (g.dropAlternative conflict.nonterminal conflict.later).alternatives ∧
      w'.potential (g.dropAlternative conflict.nonterminal conflict.later).nonterminals < w.potential g.nonterminals := by
  obtain ⟨inside, found⟩ := List.getElem?_eq_some_iff.mp located.later
  refine replace_lowers wellFormed weighs located.listed ?_ ?_ ?_
  · exact List.ne_nil_of_mem (List.mem_eraseIdx_iff_getElem?.mpr ⟨_, Nat.ne_of_lt located.ordered, located.earlier⟩)
  · exact fun alternative member => weighs.carries _ alternative (List.mem_of_mem_eraseIdx member)
  · intro behind
    have taken := (total_perm (List.getElem_cons_eraseIdx_perm inside)).trans_le (weighs.covers _ behind)
    have positive := weighs.positive conflict.nonterminal
    rw [total_cons] at taken
    omega

theorem expand_lowers (wellFormed : g.WellFormed) (weighs : w.Weighs g.alternatives) {position other : Nat}
    {kept : Alternative} (apart : other ≠ position) (still : (g.alternatives name)[other]? = some kept)
    (found : (g.alternatives name)[position]? = some alternative) (expandable : isExpandable g.heads alternative = true) :
    ∃ w' : Weighing, w'.Weighs (g.expandAt name position).alternatives ∧
      w'.potential (g.expandAt name position).nonterminals < w.potential g.nonterminals := by
  obtain ⟨inside, rfl⟩ := List.getElem?_eq_some_iff.mp found
  have owned := List.getElem_mem inside
  have front : (g.alternatives name).getD position [] = (g.alternatives name)[position] := by
    simp [List.getD_eq_getElem?_getD, found]
  refine replace_lowers wellFormed weighs (mem_nonterminals_of_alternative owned) ?_ ?_ ?_
  · have present := (mem_expandAt wellFormed found kept).mpr (Or.inr ⟨other, apart, still⟩)
    rw [alternatives_expandAt wellFormed.once (mem_nonterminals_of_alternative owned), if_pos rfl] at present
    exact List.ne_nil_of_mem present
  · intro expanded member
    rw [mem_distinct, front, List.mem_append, List.mem_append] at member
    rcases member with (before | replaced) | after
    · exact weighs.carries _ _ (List.mem_of_mem_take before)
    · exact carries_expandFront weighs owned expanded replaced
    · exact weighs.carries _ _ (List.mem_of_mem_drop after)
  · intro behind
    have whole : g.alternatives name = (g.alternatives name).take position ++
        (g.alternatives name)[position] :: (g.alternatives name).drop (position + 1) := by
      rw [← List.drop_eq_getElem_cons inside, List.take_append_drop]
    have covered := weighs.covers name behind
    rw [whole, total_append, total_cons] at covered
    have cheaper := total_expandFront_lt wellFormed weighs owned expandable behind
    refine (total_sublist (distinct_sublist _)).trans_lt ?_
    rw [total_append, total_append, front]
    omega

private theorem update_factorOut (wellFormed : g.WellFormed) {shared : Symbol} {restA restB : List Symbol}
    (located : g.Located conflict (shared :: restA) (shared :: restB)) :
    (g.factorOut conflict.nonterminal conflict.earlier conflict.later shared).alternatives =
      Function.update (Function.update g.alternatives (g.freshName conflict.nonterminal) [compact restA, compact restB])
        conflict.nonterminal (g.takenOut conflict shared) := by
  have apart := fresh_ne_nonterminal wellFormed located
  funext other
  rw [alternatives_factorOut wellFormed located.listed, Function.update_apply, Function.update_apply]
  simp only [List.getD_eq_getElem?_getD, located.earlier, located.later]
  by_cases here : other = conflict.nonterminal
  · subst here
    rw [if_neg apart, if_pos rfl, if_pos rfl]
    rfl
  · rw [if_neg here, if_neg here]
    rfl

/-- Taking out a shared front lowers the potential, though it adds a nonterminal. -/
theorem factor_lowers (wellFormed : g.WellFormed) (weighs : w.Weighs g.alternatives) {shared : Symbol}
    {restA restB : List Symbol} (solid : shared ≠ .epsilon) (different : restA ≠ restB)
    (located : g.Located conflict (shared :: restA) (shared :: restB)) :
    ∃ w' : Weighing, w'.Weighs (g.factorOut conflict.nonterminal conflict.earlier conflict.later shared).alternatives ∧
      w'.potential (g.factorOut conflict.nonterminal conflict.earlier conflict.later shared).nonterminals <
        w.potential g.nonterminals := by
  obtain ⟨others, own, kept⟩ := located.takenOut_perm shared
  have unlisted := freshName_not_listed wellFormed conflict.nonterminal
  have both : Shared g.alternatives conflict.nonterminal (g.freshName conflict.nonterminal) shared restA restB others
      (g.takenOut conflict shared) :=
    ⟨solid, different, fun _ _ member => freshName_not_mem_alternative _ member,
      fresh_ne_nonterminal wellFormed located, own, kept⟩
  have right := both.factored_weighs weighs
  have falls := both.potential_lt weighs wellFormed.once located.listed unlisted
  rw [← update_factorOut wellFormed located] at right
  rw [← nonterminals_factorOut wellFormed located] at falls
  exact ⟨_, right, falls⟩

theorem resolve_lowers {expandIndirect : Bool} (wellFormed : g.WellFormed) (weighs : w.Weighs g.alternatives)
    {a b : Alternative} (located : g.Located conflict a b)
    (resolved : g.resolve? expandIndirect g.heads conflict = some next) :
    ∃ w' : Weighing, w'.Weighs next.alternatives ∧ w'.potential next.nonterminals < w.potential g.nonterminals := by
  rcases resolve_cases resolved with ⟨duplicate, rfl⟩ | ⟨shared, direct, rfl⟩ | ⟨_, _, position, side, expandable, rfl⟩
  · obtain rfl := between_eq_duplicate.mp (located.kind.symm.trans duplicate)
    exact merge_lowers wellFormed weighs located
  · obtain ⟨solid, restA, restB, different, rfl, rfl⟩ := located.fronts direct
    exact factor_lowers wellFormed weighs solid different located
  · obtain ⟨other, alternative, sides, found, rfl⟩ := located.side side
    rcases sides with ⟨rfl, rfl⟩ | ⟨rfl, rfl⟩
    · exact expand_lowers wellFormed weighs (Nat.ne_of_gt located.ordered) located.later found expandable
    · exact expand_lowers wellFormed weighs (Nat.ne_of_lt located.ordered) located.earlier found expandable

/-- Some weighing is right for the grammar and gives its nonterminals this potential. -/
structure Costs (g : Grammar) (rank : Nat) : Prop where
  wellFormed : g.WellFormed
  weighed : ∃ w : Weighing, w.Weighs g.alternatives ∧ w.potential g.nonterminals = rank

theorem Costs.step {expandIndirect : Bool} {rank : Nat} (costs : g.Costs rank)
    (stepped : g.factorStep? expandIndirect = some next) : ∃ less, less < rank ∧ next.Costs less := by
  obtain ⟨wellFormed, w, weighs, rfl⟩ := costs
  obtain ⟨conflict, member, resolved⟩ := List.exists_of_findSome?_eq_some stepped
  obtain ⟨a, b, located⟩ := located_of_mem wellFormed.once (mem_conflictsToTry.mp member)
  obtain ⟨w', right, falls⟩ := resolve_lowers wellFormed weighs located resolved
  exact ⟨_, falls, (rewrites_of_resolve located resolved).wellFormed wellFormed, w', right, rfl⟩

end TopDownGrammar.Grammar
