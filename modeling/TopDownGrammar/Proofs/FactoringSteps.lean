import TopDownGrammar.Proofs.Conflicts
import TopDownGrammar.Proofs.FreshNames

/-! The grammar after a factoring step. Only the alternatives of one nonterminal change, a fresh
nonterminal may be added at the end, and nothing that a well-formed grammar keeps to is lost. For each
rewrite it is said where the new alternatives come from and which of the old ones are still there. -/

namespace TopDownGrammar.Grammar

variable {g next : Grammar} {conflict : Conflict} {name other : Name} {alternatives : List Alternative}

theorem mem_replaceAlternatives {rule : Rule} :
    rule ∈ (g.replaceAlternatives name alternatives).rules ↔ rule.alternatives ≠ [] ∧
      ((rule.lhs ≠ name ∧ rule ∈ g.rules) ∨ (name ∈ g.nonterminals ∧ rule = ⟨name, alternatives⟩)) := by
  simp only [replaceAlternatives, List.mem_filter, List.mem_map, Bool.not_eq_true', List.isEmpty_eq_false_iff]
  constructor
  · intro found
    obtain ⟨⟨old, member, rfl⟩, nonempty⟩ := found
    refine ⟨nonempty, ?_⟩
    split
    next same => exact Or.inr ⟨List.mem_map.mpr ⟨old, member, same⟩, rfl⟩
    next different => exact Or.inl ⟨different, member⟩
  · rintro ⟨nonempty, ⟨different, member⟩ | ⟨listed, rfl⟩⟩
    · exact ⟨⟨rule, member, if_neg different⟩, nonempty⟩
    · obtain ⟨old, member, same⟩ := List.mem_map.mp listed
      exact ⟨⟨old, member, if_pos same⟩, nonempty⟩

private theorem map_lhs_replaced (g : Grammar) (name : Name) (alternatives : List Alternative) :
    (g.rules.map fun rule => if rule.lhs = name then ⟨name, alternatives⟩ else rule).map Rule.lhs = g.nonterminals := by
  rw [nonterminals, List.map_map]
  apply List.map_congr_left
  intro rule _
  simp only [Function.comp_apply]
  split
  next same => exact same.symm
  next => rfl

theorem nodup_replaceAlternatives (once : g.nonterminals.Nodup) :
    (g.replaceAlternatives name alternatives).nonterminals.Nodup := by
  refine List.Nodup.sublist ?_ once
  rw [← map_lhs_replaced g name alternatives]
  exact List.filter_sublist.map _

/-- No nonterminal is lost unless it is left without alternatives. -/
theorem nonterminals_replaceAlternatives (owned : ∀ rule ∈ g.rules, rule.alternatives ≠ []) (some : alternatives ≠ []) :
    (g.replaceAlternatives name alternatives).nonterminals = g.nonterminals := by
  rw [← map_lhs_replaced g name alternatives, replaceAlternatives, nonterminals, List.filter_eq_self.mpr]
  intro rule member
  obtain ⟨old, present, rfl⟩ := List.mem_map.mp member
  split
  · simpa using some
  · simpa using owned old present

theorem alternatives_replaceAlternatives (once : g.nonterminals.Nodup) (listed : name ∈ g.nonterminals) :
    (g.replaceAlternatives name alternatives).alternatives other =
      if other = name then alternatives else g.alternatives other := by
  rcases (g.replaceAlternatives name alternatives).alternatives_eq_or_nil other with
    ⟨rule, member, rfl, equal⟩ | ⟨absent, equal⟩
  · rw [equal]
    obtain ⟨_, ⟨different, old⟩ | ⟨_, rfl⟩⟩ := mem_replaceAlternatives.mp member
    · rw [if_neg different, alternatives_of_mem once old]
    · exact (if_pos rfl).symm
  · have dropped : ∀ rule : Rule, rule.lhs = other → rule.alternatives ≠ [] →
        rule ∉ (g.replaceAlternatives name alternatives).rules :=
      fun rule same _ member => absent (List.mem_map.mpr ⟨rule, member, same⟩)
    rw [equal]
    split
    next same =>
      refine Classical.byContradiction fun some => ?_
      exact dropped ⟨name, alternatives⟩ same.symm (Ne.symm some)
        (mem_replaceAlternatives.mpr ⟨Ne.symm some, Or.inr ⟨listed, rfl⟩⟩)
    next different =>
      rcases g.alternatives_eq_or_nil other with ⟨rule, member, rfl, old⟩ | ⟨_, old⟩
      · refine Classical.byContradiction fun some => ?_
        rw [old] at some
        exact dropped rule rfl (Ne.symm some) (mem_replaceAlternatives.mpr ⟨Ne.symm some, Or.inl ⟨different, member⟩⟩)
      · exact old.symm

private theorem alternatives_snoc {start : Name} {rules : List Rule} {rule : Rule}
    (unlisted : rule.lhs ∉ rules.map Rule.lhs) :
    (Grammar.mk start (rules ++ [rule])).alternatives other =
      if other = rule.lhs then rule.alternatives else (Grammar.mk start rules).alternatives other := by
  simp only [Grammar.alternatives, List.find?_append]
  by_cases same : other = rule.lhs
  · subst same
    have missing : rules.find? (fun entry => decide (entry.lhs = rule.lhs)) = none := by
      apply List.find?_eq_none.mpr
      intro entry member equal
      exact unlisted (List.mem_map.mpr ⟨entry, member, of_decide_eq_true equal⟩)
    simp [missing]
  · simp [same, Ne.symm same]

theorem Located.listed {a b : Alternative} (located : g.Located conflict a b) :
    conflict.nonterminal ∈ g.nonterminals :=
  mem_nonterminals_of_alternative (List.mem_of_getElem? located.earlier)

theorem alternatives_dropAlternative (once : g.nonterminals.Nodup) (listed : name ∈ g.nonterminals) (position : Nat) :
    (g.dropAlternative name position).alternatives other =
      if other = name then (g.alternatives name).eraseIdx position else g.alternatives other :=
  alternatives_replaceAlternatives once listed

theorem alternatives_expandAt (once : g.nonterminals.Nodup) (listed : name ∈ g.nonterminals) (position : Nat) :
    (g.expandAt name position).alternatives other =
      if other = name then
        distinct ((g.alternatives name).take position ++ g.expandFront ((g.alternatives name).getD position []) ++
          (g.alternatives name).drop (position + 1))
      else g.alternatives other :=
  alternatives_replaceAlternatives once listed

private theorem fresh_not_replaced (wellFormed : g.WellFormed) (listed : name ∈ g.nonterminals) :
    g.freshName name ∉ (g.replaceAlternatives name alternatives).rules.map Rule.lhs := by
  intro present
  obtain ⟨rule, member, same⟩ := List.mem_map.mp present
  obtain ⟨_, ⟨_, old⟩ | ⟨_, rfl⟩⟩ := mem_replaceAlternatives.mp member
  · exact freshName_not_listed wellFormed name (List.mem_map.mpr ⟨rule, old, same⟩)
  · have equal : name = g.freshName name := same
    exact freshName_not_listed wellFormed name (equal ▸ listed)

theorem alternatives_factorOut (wellFormed : g.WellFormed) (listed : name ∈ g.nonterminals) (i j : Nat)
    (shared : Symbol) :
    (g.factorOut name i j shared).alternatives other =
      if other = g.freshName name then
        [compact ((g.alternatives name).getD i []).tail, compact ((g.alternatives name).getD j []).tail]
      else if other = name then ((g.alternatives name).set i [shared, .nonterminal (g.freshName name)]).eraseIdx j
      else g.alternatives other := by
  unfold factorOut
  rw [alternatives_snoc (fresh_not_replaced wellFormed listed)]
  exact if_congr Iff.rfl rfl (alternatives_replaceAlternatives wellFormed.once listed)

/-- A step rewrites the alternatives of one nonterminal and may add a fresh one. All others keep theirs. -/
theorem Rewrites.alternatives_elsewhere (rewrites : g.Rewrites conflict next) (wellFormed : g.WellFormed)
    (elsewhere : name ≠ conflict.nonterminal) (known : name ≠ g.freshName conflict.nonterminal) :
    next.alternatives name = g.alternatives name := by
  cases rewrites with
  | merge located => rw [alternatives_dropAlternative wellFormed.once located.listed, if_neg elsewhere]
  | factor visible located => rw [alternatives_factorOut wellFormed located.listed, if_neg known, if_neg elsewhere]
  | expand located => rw [alternatives_expandAt wellFormed.once located.listed, if_neg elsewhere]

/-- A duplicate is dropped and its twin stays, so there are the same alternatives as before. -/
theorem mem_alternatives_merge {a alternative : Alternative} (wellFormed : g.WellFormed) (located : g.Located conflict a a) :
    alternative ∈ (g.dropAlternative conflict.nonterminal conflict.later).alternatives name ↔
      alternative ∈ g.alternatives name := by
  rw [alternatives_dropAlternative wellFormed.once located.listed]
  split
  next here =>
    subst here
    refine ⟨List.mem_of_mem_eraseIdx, ?_⟩
    intro member
    obtain ⟨k, found⟩ := List.mem_iff_getElem?.mp member
    by_cases dropped : k = conflict.later
    · obtain rfl : a = alternative := Option.some.inj ((dropped ▸ located.later).symm.trans found)
      exact List.mem_eraseIdx_iff_getElem?.mpr ⟨_, Nat.ne_of_lt located.ordered, located.earlier⟩
    · exact List.mem_eraseIdx_iff_getElem?.mpr ⟨k, dropped, found⟩
  next => exact Iff.rfl

/-- What an alternative becomes: one of the alternatives of its front goes in the place of the front, and if no
nonterminal is in front its empty strings are dropped. -/
theorem mem_expandFront {alternative expanded : Alternative} :
    expanded ∈ g.expandFront alternative ↔
      (∃ front rest body, alternative = .nonterminal front :: rest ∧ body ∈ g.alternatives front ∧
        expanded = compact (body ++ rest)) ∨
      (∀ front rest, alternative ≠ .nonterminal front :: rest) ∧ expanded = compact alternative := by
  unfold expandFront
  split
  next front rest =>
    constructor
    · intro member
      obtain ⟨body, owned, rfl⟩ := List.mem_map.mp member
      exact Or.inl ⟨front, rest, body, rfl, owned, rfl⟩
    · intro found
      rcases found with ⟨_, _, body, same, owned, rfl⟩ | ⟨other, _⟩
      · cases same
        exact List.mem_map.mpr ⟨body, owned, rfl⟩
      · exact absurd rfl (other front rest)
  next plain =>
    rw [List.mem_singleton]
    constructor
    · exact fun same => Or.inr ⟨plain, same⟩
    · intro found
      rcases found with ⟨front, rest, _, same, _⟩ | ⟨_, same⟩
      · exact absurd same (plain front rest)
      · exact same

section Expand

variable {position : Nat} {alternative kept expanded : Alternative} (wellFormed : g.WellFormed)
  (found : (g.alternatives name)[position]? = some alternative)

include wellFormed found

theorem mem_expandAt (expanded : Alternative) :
    expanded ∈ (g.expandAt name position).alternatives name ↔
      expanded ∈ g.expandFront alternative ∨ ∃ k, k ≠ position ∧ (g.alternatives name)[k]? = some expanded := by
  have listed := mem_nonterminals_of_alternative (List.mem_of_getElem? found)
  rw [alternatives_expandAt wellFormed.once listed, if_pos rfl, mem_distinct, List.mem_append, List.mem_append,
    List.getD_eq_getElem?_getD, found, Option.getD_some]
  constructor
  · intro found
    rcases found with (before | inside) | after
    · obtain ⟨k, below, same⟩ := List.mem_take_iff_getElem.mp before
      refine Or.inr ⟨k, by omega, ?_⟩
      rw [← same]
      exact List.getElem?_eq_getElem _
    · exact Or.inl inside
    · obtain ⟨k, inside, same⟩ := List.mem_drop_iff_getElem.mp after
      refine Or.inr ⟨position + 1 + k, by omega, ?_⟩
      rw [← same]
      exact List.getElem?_eq_getElem _
  · intro found
    rcases found with inside | ⟨k, apart, at_k⟩
    · exact Or.inl (Or.inr inside)
    · rcases Nat.lt_or_gt_of_ne apart with earlier | later
      · refine Or.inl (Or.inl (List.mem_iff_getElem?.mpr ⟨k, ?_⟩))
        rw [List.getElem?_take_of_lt earlier, at_k]
      · refine Or.inr (List.mem_iff_getElem?.mpr ⟨k - (position + 1), ?_⟩)
        rw [List.getElem?_drop, ← at_k]
        congr 1
        omega

theorem alternatives_expandAt_of_ne (different : other ≠ name) :
    (g.expandAt name position).alternatives other = g.alternatives other := by
  have listed := mem_nonterminals_of_alternative (List.mem_of_getElem? found)
  rw [alternatives_expandAt wellFormed.once listed, if_neg different]

/-- What stands in the grammar after an expansion stood there before, or the expanded alternative became it. -/
theorem origin_expandAt (owned : expanded ∈ (g.expandAt name position).alternatives other) :
    expanded ∈ g.alternatives other ∨ other = name ∧ expanded ∈ g.expandFront alternative := by
  by_cases here : other = name
  · subst here
    rcases (mem_expandAt wellFormed found expanded).mp owned with inside | ⟨k, _, at_k⟩
    · exact Or.inr ⟨rfl, inside⟩
    · exact Or.inl (List.mem_of_getElem? at_k)
  · exact Or.inl (alternatives_expandAt_of_ne wellFormed found here ▸ owned)

theorem kept_expandAt (owned : kept ∈ g.alternatives other) :
    kept ∈ (g.expandAt name position).alternatives other ∨ other = name ∧ kept = alternative := by
  by_cases here : other = name
  · subst here
    obtain ⟨k, at_k⟩ := List.mem_iff_getElem?.mp owned
    by_cases replaced : k = position
    · exact Or.inr ⟨rfl, Option.some.inj ((replaced ▸ at_k).symm.trans found)⟩
    · exact Or.inl ((mem_expandAt wellFormed found kept).mpr (Or.inr ⟨k, replaced, at_k⟩))
  · exact Or.inl ((alternatives_expandAt_of_ne wellFormed found here).symm ▸ owned)

end Expand

section Factor

variable {shared : Symbol} {restA restB rest : List Symbol} {alternative : Alternative} (wellFormed : g.WellFormed)
  (located : g.Located conflict (shared :: restA) (shared :: restB))

include wellFormed located

private theorem factored_alternatives (name : Name) :
    (g.factorOut conflict.nonterminal conflict.earlier conflict.later shared).alternatives name =
      if name = g.freshName conflict.nonterminal then [compact restA, compact restB]
      else if name = conflict.nonterminal then
        ((g.alternatives conflict.nonterminal).set conflict.earlier
          [shared, .nonterminal (g.freshName conflict.nonterminal)]).eraseIdx conflict.later
      else g.alternatives name := by
  rw [alternatives_factorOut wellFormed located.listed]
  simp only [List.getD_eq_getElem?_getD, located.earlier, located.later, Option.getD_some, List.tail_cons]

theorem fresh_ne_nonterminal : conflict.nonterminal ≠ g.freshName conflict.nonterminal :=
  ne_freshName wellFormed located.listed conflict.nonterminal

theorem factored_mem :
    [shared, .nonterminal (g.freshName conflict.nonterminal)] ∈
      (g.factorOut conflict.nonterminal conflict.earlier conflict.later shared).alternatives conflict.nonterminal := by
  rw [factored_alternatives wellFormed located, if_neg (fresh_ne_nonterminal wellFormed located), if_pos rfl]
  have inside := (List.getElem?_eq_some_iff.mp located.earlier).1
  exact List.mem_eraseIdx_iff_getElem?.mpr
    ⟨conflict.earlier, Nat.ne_of_lt located.ordered, List.getElem?_set_self inside⟩

theorem remainder_mem (either : rest = restA ∨ rest = restB) :
    compact rest ∈ (g.factorOut conflict.nonterminal conflict.earlier conflict.later shared).alternatives
      (g.freshName conflict.nonterminal) := by
  rw [factored_alternatives wellFormed located, if_pos rfl]
  rcases either with rfl | rfl <;> simp

/-- What stands in the grammar after factoring is a remainder, stood there before, or holds the shared symbol. -/
theorem origin_factorOut
    (owned : alternative ∈
      (g.factorOut conflict.nonterminal conflict.earlier conflict.later shared).alternatives name) :
    (name = g.freshName conflict.nonterminal ∧ (alternative = compact restA ∨ alternative = compact restB)) ∨
      alternative ∈ g.alternatives name ∨
      (name = conflict.nonterminal ∧ alternative = [shared, .nonterminal (g.freshName conflict.nonterminal)]) := by
  rw [factored_alternatives wellFormed located] at owned
  split at owned
  next fresh =>
    simp only [List.mem_cons, List.not_mem_nil, or_false] at owned
    exact Or.inl ⟨fresh, owned⟩
  next =>
    split at owned
    next here =>
      subst here
      rcases List.mem_or_eq_of_mem_set (List.mem_of_mem_eraseIdx owned) with old | joined
      · exact Or.inr (Or.inl old)
      · exact Or.inr (Or.inr ⟨rfl, joined⟩)
    next => exact Or.inr (Or.inl owned)

theorem kept_factorOut (owned : alternative ∈ g.alternatives name) :
    alternative ∈ (g.factorOut conflict.nonterminal conflict.earlier conflict.later shared).alternatives name ∨
      (name = conflict.nonterminal ∧ (alternative = shared :: restA ∨ alternative = shared :: restB)) := by
  have known := ne_freshName wellFormed (mem_nonterminals_of_alternative owned) conflict.nonterminal
  rw [factored_alternatives wellFormed located, if_neg known]
  split
  next here =>
    subst here
    obtain ⟨k, found⟩ := List.mem_iff_getElem?.mp owned
    by_cases first : k = conflict.earlier
    · exact Or.inr ⟨rfl, Or.inl (Option.some.inj ((first ▸ found).symm.trans located.earlier))⟩
    · by_cases second : k = conflict.later
      · exact Or.inr ⟨rfl, Or.inr (Option.some.inj ((second ▸ found).symm.trans located.later))⟩
      · refine Or.inl (List.mem_eraseIdx_iff_getElem?.mpr ⟨k, second, ?_⟩)
        rw [List.getElem?_set_ne (Ne.symm first), found]
  next => exact Or.inl owned

end Factor

private theorem wellFormed_replaceAlternatives (wellFormed : g.WellFormed)
    (admissible : ∀ alternative ∈ alternatives, Admissible ⟨name, alternative⟩) :
    (g.replaceAlternatives name alternatives).WellFormed := by
  refine ⟨wellFormed.start, ?_, ?_, ?_, ?_, nodup_replaceAlternatives wellFormed.once⟩
  all_goals
    intro rule member
    obtain ⟨some, ⟨_, old⟩ | ⟨listed, rfl⟩⟩ := mem_replaceAlternatives.mp member
  · exact wellFormed.names rule old
  · obtain ⟨old, present, same⟩ := List.mem_map.mp listed
    exact same ▸ wellFormed.names old present
  · exact wellFormed.symbols rule old
  · exact fun alternative present => (admissible alternative present).symbols
  · exact wellFormed.nonempty rule old
  · exact fun alternative present => (admissible alternative present).nonempty
  · exact some
  · exact some

private theorem wellFormed_snoc {rule : Rule} (wellFormed : g.WellFormed) (unlisted : rule.lhs ∉ g.nonterminals)
    (some : rule.alternatives ≠ [])
    (admissible : ∀ alternative ∈ rule.alternatives, Admissible ⟨rule.lhs, alternative⟩) :
    (Grammar.mk g.start (g.rules ++ [rule])).WellFormed := by
  refine ⟨wellFormed.start, ?_, ?_, ?_, ?_, ?_⟩
  rotate_right
  · rw [nonterminals, List.map_append]
    refine List.nodup_append.mpr ⟨wellFormed.once, by simp, ?_⟩
    rintro one listed two member rfl
    have same : one = rule.lhs := List.mem_singleton.mp member
    exact unlisted (same ▸ listed)
  all_goals
    intro entry member
    rcases List.mem_append.mp member with old | new
    on_goal 2 => obtain rfl := List.mem_singleton.mp new
  · exact wellFormed.names entry old
  · obtain ⟨alternative, present⟩ := List.exists_mem_of_ne_nil _ some
    exact (admissible alternative present).lhs
  · exact wellFormed.symbols entry old
  · exact fun alternative present => (admissible alternative present).symbols
  · exact wellFormed.nonempty entry old
  · exact fun alternative present => (admissible alternative present).nonempty
  · exact wellFormed.owned entry old
  · exact some

private theorem admissible_compact {symbols : List Symbol} (named : isName name = true)
    (checked : ∀ symbol ∈ symbols, symbol.check = .ok ()) : Admissible ⟨name, compact symbols⟩ := by
  refine ⟨named, ?_, written_ne_nil _⟩
  intro symbol member
  rcases mem_written member with rfl | inside
  · rfl
  · exact checked symbol (mem_visible.mp inside).1

private theorem admissible_expandFront (wellFormed : g.WellFormed) {alternative expanded : Alternative}
    (admissible : Admissible ⟨name, alternative⟩) (member : expanded ∈ g.expandFront alternative) :
    Admissible ⟨name, expanded⟩ := by
  rcases mem_expandFront.mp member with ⟨front, rest, body, rfl, owned, rfl⟩ | ⟨_, rfl⟩
  · apply admissible_compact admissible.lhs
    intro symbol present
    rcases List.mem_append.mp present with inBody | inRest
    · exact (wellFormed.admissible_alternative owned).symbols symbol inBody
    · exact admissible.symbols symbol (List.mem_cons_of_mem _ inRest)
  · exact admissible_compact admissible.lhs admissible.symbols

theorem wellFormed_dropAlternative (wellFormed : g.WellFormed) (name : Name) (position : Nat) :
    (g.dropAlternative name position).WellFormed :=
  wellFormed_replaceAlternatives wellFormed fun _ member =>
    wellFormed.admissible_alternative (List.mem_of_mem_eraseIdx member)

theorem wellFormed_expandAt (wellFormed : g.WellFormed) {position : Nat} {alternative : Alternative}
    (found : (g.alternatives name)[position]? = some alternative) : (g.expandAt name position).WellFormed := by
  refine wellFormed_replaceAlternatives wellFormed ?_
  intro expanded member
  rw [mem_distinct, List.mem_append, List.mem_append] at member
  rcases member with (before | inside) | after
  · exact wellFormed.admissible_alternative (List.mem_of_mem_take before)
  · rw [List.getD_eq_getElem?_getD, found] at inside
    exact admissible_expandFront wellFormed (wellFormed.admissible_alternative (List.mem_of_getElem? found)) inside
  · exact wellFormed.admissible_alternative (List.mem_of_mem_drop after)

theorem wellFormed_factorOut (wellFormed : g.WellFormed) {i j : Nat} {shared : Symbol} {restA restB : List Symbol}
    (foundA : (g.alternatives name)[i]? = some (shared :: restA))
    (foundB : (g.alternatives name)[j]? = some (shared :: restB)) : (g.factorOut name i j shared).WellFormed := by
  have first := wellFormed.admissible_alternative (List.mem_of_getElem? foundA)
  have second := wellFormed.admissible_alternative (List.mem_of_getElem? foundB)
  have named := isName_freshName g first.lhs
  have listed := mem_nonterminals_of_alternative (List.mem_of_getElem? foundA)
  refine wellFormed_snoc (g := g.replaceAlternatives _ _) ?_ (fresh_not_replaced wellFormed listed) (by simp) ?_
  · refine wellFormed_replaceAlternatives wellFormed ?_
    intro alternative member
    rcases List.mem_or_eq_of_mem_set (List.mem_of_mem_eraseIdx member) with owned | rfl
    · exact wellFormed.admissible_alternative owned
    · refine ⟨first.lhs, ?_, by simp⟩
      intro symbol inside
      simp only [List.mem_cons, List.not_mem_nil, or_false] at inside
      rcases inside with rfl | rfl
      · exact first.symbols _ List.mem_cons_self
      · simp [Symbol.check, named]
  · intro alternative member
    simp only [List.getD_eq_getElem?_getD, foundA, foundB, Option.getD_some, List.tail_cons, List.mem_cons,
      List.not_mem_nil, or_false] at member
    rcases member with rfl | rfl
    · exact admissible_compact named fun symbol inside => first.symbols symbol (List.mem_cons_of_mem _ inside)
    · exact admissible_compact named fun symbol inside => second.symbols symbol (List.mem_cons_of_mem _ inside)

theorem Rewrites.wellFormed (rewrites : g.Rewrites conflict next) (wellFormed : g.WellFormed) : next.WellFormed := by
  cases rewrites with
  | merge located => exact wellFormed_dropAlternative wellFormed _ _
  | factor visible located => exact wellFormed_factorOut wellFormed located.earlier located.later
  | expand located sides found expandable => exact wellFormed_expandAt wellFormed found

end TopDownGrammar.Grammar
