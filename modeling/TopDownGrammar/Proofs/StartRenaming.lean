import TopDownGrammar.Proofs.ProperForm
import TopDownGrammar.Proofs.UsefulProductions

/-! The new start of a proper grammar. If the empty string is a sentence, making the grammar proper again brings one
more start in: it takes over the alternatives of the one before, to which nothing leads then, and stands in its
place. What the grammar had for its start before has gone by then, so the start has changed its name only. -/

namespace TopDownGrammar

def Symbol.renamed (old new : Name) : Symbol → Symbol
  | .nonterminal name => .nonterminal (if name = old then new else name)
  | symbol => symbol

private theorem map_renamed {old new : Name} {symbols : List Symbol} (absent : .nonterminal old ∉ symbols) :
    symbols.map (Symbol.renamed old new) = symbols := by
  refine (List.map_congr_left fun symbol member => ?_).trans (List.map_id _)
  cases symbol with
  | nonterminal name =>
    have other : name ≠ old := fun same => absent (same ▸ member)
    simp [Symbol.renamed, other]
  | _ => rfl

private theorem map_map_renamed {old new : Name} {alternatives : List Alternative}
    (absent : ∀ alternative ∈ alternatives, .nonterminal old ∉ alternative) :
    alternatives.map (·.map (Symbol.renamed old new)) = alternatives :=
  (List.map_congr_left fun alternative member => map_renamed (absent alternative member)).trans (List.map_id _)

namespace Grammar

/-- The grammar when one nonterminal goes by another name, wherever it stands. -/
def renamed (g : Grammar) (old new : Name) : Grammar where
  start := if g.start = old then new else g.start
  rules := g.rules.map fun rule =>
    ⟨if rule.lhs = old then new else rule.lhs, rule.alternatives.map (·.map (Symbol.renamed old new))⟩

variable {g : Grammar} {name : Name} {alternative : Alternative}

namespace ProperForm

variable (proper : g.ProperForm)

include proper

theorem nodup : g.productions.Nodup := by
  refine nodup_flatMap_productions proper.wellFormed.once fun rule member => ?_
  rw [← alternatives_of_mem proper.wellFormed.once member]
  exact proper.once rule.lhs

theorem isUnit_eq_false (owned : alternative ∈ g.alternatives name) : isUnit alternative = false := by
  refine Bool.eq_false_iff.mpr fun unit => ?_
  obtain ⟨other, same⟩ := isUnit_iff.mp unit
  exact proper.noUnit name alternative owned other same

private theorem omissions_eq (owned : alternative ∈ g.alternatives name) (plain : alternative ≠ [.epsilon]) :
    omissions g.nullable alternative = [alternative] := by
  have solid := proper.solid owned plain
  refine omissions_of_solid (proper.wellFormed.admissible_alternative owned).nonempty ?_ ?_
  · exact fun inside => solid _ inside Language.nil_mem_one
  · intro symbol inside vanishes
    obtain ⟨inner, rfl, empty⟩ := (mem_nullable proper.wellFormed symbol).mp vanishes
    exact solid _ inside empty

/-- Nothing can be left out of the productions of a proper grammar but the empty string. -/
theorem flatMap_omissions {productions : List Production}
    (within : ∀ production ∈ productions, production ∈ g.productions ∧ production.rhs ≠ [.epsilon]) :
    (productions.flatMap fun production =>
      (omissions g.nullable production.rhs).map (Production.mk production.lhs)) = productions := by
  refine (List.flatMap_congr fun production member => ?_).trans (List.flatMap_singleton' productions)
  obtain ⟨listed, plain⟩ := within production member
  rw [proper.omissions_eq ((mem_alternatives proper.wellFormed.once).mpr listed) plain]
  rfl

theorem leads_of_listed (listed : name ∈ g.nonterminals) : Relation.ReflTransGen g.Leads g.start name := by
  obtain ⟨before, after, derives⟩ := proper.reached name (Or.inl listed)
  exact leads_of_derives proper.wellFormed.once derives

end ProperForm

/-- A proper grammar whose start comes first among the nonterminals, and the empty string first among its
alternatives. -/
structure EmptyFirst (g : Grammar) (rest : List Alternative) (others : List Rule) : Prop extends g.ProperForm where
  shape : g.rules = ⟨g.start, [.epsilon] :: rest⟩ :: others

namespace EmptyFirst

variable {rest : List Alternative} {others : List Rule} (form : g.EmptyFirst rest others)

include form

private theorem alternatives_start : g.alternatives g.start = [.epsilon] :: rest := by
  have member : ⟨g.start, [.epsilon] :: rest⟩ ∈ g.rules := form.shape ▸ List.mem_cons_self
  exact alternatives_of_mem form.wellFormed.once member

private theorem alternatives_other {rule : Rule} (member : rule ∈ others) :
    g.alternatives rule.lhs = rule.alternatives :=
  alternatives_of_mem form.wellFormed.once (form.shape ▸ List.mem_cons_of_mem _ member)

private theorem start_not_mem (owned : alternative ∈ g.alternatives name) : .nonterminal g.start ∉ alternative :=
  form.apart (form.alternatives_start ▸ List.mem_cons_self) name alternative owned

private theorem vanishes : .nonterminal g.start ∈ g.nullable := by
  refine (nonterminal_mem_nullable form.wellFormed).mpr (nil_mem_language ?_)
  rw [form.alternatives_start]
  exact List.mem_cons_self

private theorem productions_eq :
    g.productions = ⟨g.start, [.epsilon]⟩ :: (Rule.mk g.start rest :: others).flatMap Rule.productions := by
  rw [productions, form.shape]
  rfl

private theorem shortened_eq : g.shortened = (Rule.mk g.start rest :: others).flatMap Rule.productions := by
  have listed := form.productions_eq
  obtain ⟨first, once⟩ := List.nodup_cons.mp (listed ▸ form.nodup)
  have within : ∀ production ∈ (Rule.mk g.start rest :: others).flatMap Rule.productions,
      production ∈ g.productions ∧ production.rhs ≠ [.epsilon] := by
    intro production member
    have present : production ∈ g.productions := listed ▸ List.mem_cons_of_mem _ member
    refine ⟨present, fun empty => first ?_⟩
    have owned := (mem_alternatives form.wellFormed.once).mpr present
    have owner := (form.epsilon _ _ owned (empty ▸ List.mem_cons_self)).1
    have same : production = ⟨g.start, [.epsilon]⟩ := by rw [← owner, ← empty]
    exact same ▸ member
  have none : omissions g.nullable [.epsilon] = [] := rfl
  rw [shortened, listed, List.flatMap_cons, none, List.map_nil, List.nil_append, form.flatMap_omissions within,
    distinct_of_nodup once]

private theorem once_old (alternatives : List Alternative) :
    ((Rule.mk (g.freshName g.start) alternatives :: Rule.mk g.start rest :: others).map (·.lhs)).Nodup := by
  have once := form.wellFormed.once
  have fresh := freshName_not_listed form.wellFormed g.start
  rw [nonterminals, form.shape] at once fresh
  exact List.nodup_cons.mpr ⟨fresh, once⟩

private theorem lhs_ne_start {rule : Rule} (member : rule ∈ others) : rule.lhs ≠ g.start := by
  have once := form.wellFormed.once
  rw [nonterminals, form.shape] at once
  exact fun same => (List.nodup_cons.mp once).1 (List.mem_map.mpr ⟨rule, member, same⟩)

private theorem epsilonFree_eq : g.epsilonFree = .ofProductions (g.freshName g.start)
    ((Rule.mk (g.freshName g.start) [[.nonterminal g.start], [.epsilon]] ::
      Rule.mk g.start rest :: others).flatMap Rule.productions) := by
  rw [epsilonFree, if_pos form.vanishes, form.shortened_eq]
  rfl

/-- The start is no longer listed if it had the empty string only. -/
private theorem nonterminals_epsilonFree : g.epsilonFree.nonterminals =
    g.freshName g.start :: ((Rule.mk g.start rest :: others).filter (!·.alternatives.isEmpty)).map (·.lhs) := by
  rw [form.epsilonFree_eq]
  exact congrArg (List.map (·.lhs)) (group_blocks (form.once_old _))

private theorem alternatives_epsilonFree {rule : Rule} (member : rule ∈ Rule.mk g.start rest :: others) :
    g.epsilonFree.alternatives rule.lhs = rule.alternatives := by
  rw [form.epsilonFree_eq]
  exact alternatives_blocks (form.once_old _) _ (List.mem_cons_of_mem _ member)

private theorem alternative_of_old {rule : Rule} (member : rule ∈ Rule.mk g.start rest :: others)
    (owned : alternative ∈ rule.alternatives) : alternative ∈ g.alternatives rule.lhs := by
  rcases List.mem_cons.mp member with rfl | later
  · rw [form.alternatives_start]
    exact List.mem_cons_of_mem _ owned
  · rwa [form.alternatives_other later]

private theorem takenOver_old {rule : Rule} (member : rule ∈ Rule.mk g.start rest :: others)
    (listed : rule.lhs ∈ g.epsilonFree.nonterminals) : g.epsilonFree.takenOver rule.lhs = rule.productions := by
  have same := form.alternatives_epsilonFree member
  rw [takenOver_of_unitless (nodup_epsilonFree g) listed, same]
  · rfl
  · intro alternative owned
    rw [same] at owned
    exact form.isUnit_eq_false (form.alternative_of_old member owned)

/-- From the new start units lead to the old one, and from there no further. -/
private theorem mem_unitClosure_newStart (listed : name ∈ g.epsilonFree.nonterminals) :
    .nonterminal name ∈ g.epsilonFree.unitClosure (g.freshName g.start) ↔
      name = g.freshName g.start ∨ name = g.start := by
  have once := nodup_epsilonFree g
  have units := alternatives_newStart form.wellFormed form.vanishes
  have first : Rule.mk g.start rest ∈ Rule.mk g.start rest :: others := List.mem_cons_self
  have known : g.freshName g.start ∈ g.epsilonFree.nonterminals := form.nonterminals_epsilonFree ▸ List.mem_cons_self
  rw [mem_unitClosure once known]
  constructor
  · intro path
    rcases Relation.ReflTransGen.cases_head path with same | ⟨middle, ⟨unit, _⟩, onwards⟩
    · exact Or.inl same.symm
    · obtain rfl : middle = g.start := by simpa [units] using unit
      rcases Relation.ReflTransGen.cases_head onwards with same | ⟨_, ⟨further, _⟩, _⟩
      · exact Or.inr same.symm
      · rw [form.alternatives_epsilonFree first] at further
        cases form.isUnit_eq_false (form.alternative_of_old first further)
  · rintro (rfl | rfl)
    · exact .refl
    · exact .single ⟨by simp [units], listed⟩

private theorem followed_newStart :
    g.epsilonFree.nonterminals.filter (.nonterminal · ∈ g.epsilonFree.unitClosure (g.freshName g.start)) =
      g.freshName g.start :: g.epsilonFree.nonterminals.filter (· = g.start) := by
  have followed : g.epsilonFree.nonterminals.filter
      (.nonterminal · ∈ g.epsilonFree.unitClosure (g.freshName g.start)) =
      g.epsilonFree.nonterminals.filter fun name => name = g.freshName g.start ∨ name = g.start :=
    List.filter_congr fun name listed => by simp only [form.mem_unitClosure_newStart listed]
  obtain ⟨later, names⟩ : ∃ later, g.epsilonFree.nonterminals = g.freshName g.start :: later :=
    ⟨_, form.nonterminals_epsilonFree⟩
  obtain ⟨fresh, _⟩ := List.nodup_cons.mp (names ▸ nodup_epsilonFree g)
  rw [followed, names, List.filter_cons_of_pos (by simp),
    List.filter_cons_of_neg (by simpa using g.freshName_ne_start g.start)]
  refine congrArg _ (List.filter_congr fun name member => ?_)
  have known : name ≠ g.freshName g.start := fun same => fresh (same ▸ member)
  simp only [known, false_or]

private theorem takenOver_newStart :
    g.epsilonFree.takenOver (g.freshName g.start) =
      (Rule.mk (g.freshName g.start) ([.epsilon] :: rest)).productions := by
  have units := alternatives_newStart form.wellFormed form.vanishes
  have first : Rule.mk g.start rest ∈ Rule.mk g.start rest :: others := List.mem_cons_self
  have old : g.epsilonFree.alternatives g.start = rest := form.alternatives_epsilonFree first
  have unitless : rest.filter (!isUnit ·) = rest := by
    refine List.filter_eq_self.mpr fun alternative owned => ?_
    rw [form.isUnit_eq_false (form.alternative_of_old first owned)]
    rfl
  rw [takenOver, form.followed_newStart, List.filter_eq, List.flatMap_cons, units]
  by_cases listed : g.start ∈ g.epsilonFree.nonterminals
  · rw [List.count_eq_one_of_mem (nodup_epsilonFree g) listed, List.replicate_one, List.flatMap_singleton, old,
      unitless]
    rfl
  · have none : rest = [] := old.symm.trans (alternatives_eq_nil listed)
    rw [List.count_eq_zero_of_not_mem listed, none]
    rfl

private theorem nodup_old {rule : Rule} (member : rule ∈ Rule.mk g.start rest :: others) :
    rule.alternatives.Nodup := by
  rcases List.mem_cons.mp member with rfl | later
  · exact (List.nodup_cons.mp (form.alternatives_start ▸ form.once g.start)).2
  · exact form.alternatives_other later ▸ form.once rule.lhs

/-- The new start has taken over what the old one has. -/
private theorem unitFree_eq : g.epsilonFree.unitFree = .ofProductions (g.freshName g.start)
    ((Rule.mk (g.freshName g.start) ([.epsilon] :: rest) ::
      Rule.mk g.start rest :: others).flatMap Rule.productions) := by
  have taken : g.epsilonFree.nonterminals.flatMap g.epsilonFree.takenOver =
      (Rule.mk (g.freshName g.start) ([.epsilon] :: rest) :: Rule.mk g.start rest :: others).flatMap
        Rule.productions := by
    have names := form.nonterminals_epsilonFree
    rw [List.flatMap_cons, ← flatMap_productions_filter (_ :: others), names, List.flatMap_cons,
      form.takenOver_newStart, List.flatMap_map]
    refine congrArg _ (List.flatMap_congr fun rule member => ?_)
    refine form.takenOver_old (List.mem_filter.mp member).1 ?_
    exact names ▸ List.mem_cons_of_mem _ (List.mem_map_of_mem member)
  have once : ((Rule.mk (g.freshName g.start) ([.epsilon] :: rest) :: Rule.mk g.start rest :: others).flatMap
      Rule.productions).Nodup := by
    refine nodup_flatMap_productions (form.once_old _) fun rule member => ?_
    rcases List.mem_cons.mp member with rfl | old
    · exact form.alternatives_start ▸ form.once g.start
    · exact form.nodup_old old
  rw [unitFree_eq_takenOver, taken, distinct_of_nodup once, start_epsilonFree_of_nullable form.vanishes]

private theorem productions_unitFree : g.epsilonFree.unitFree.productions =
    (Rule.mk (g.freshName g.start) ([.epsilon] :: rest) :: Rule.mk g.start rest :: others).flatMap Rule.productions := by
  rw [form.unitFree_eq, productions_blocks (form.once_old _)]

private theorem start_unitFree_eq : g.epsilonFree.unitFree.start = g.freshName g.start := by
  rw [form.unitFree_eq]
  rfl

private theorem origin_unitFree (owned : alternative ∈ g.epsilonFree.unitFree.alternatives name) :
    ∃ owner, alternative ∈ g.alternatives owner := by
  rw [form.unitFree_eq, mem_alternatives_ofProductions] at owned
  obtain ⟨rule, member, inside⟩ := List.mem_flatMap.mp owned
  obtain ⟨_, held, same⟩ := List.mem_map.mp inside
  obtain ⟨_, rfl⟩ := Production.mk.inj same
  rcases List.mem_cons.mp member with rfl | old
  · exact ⟨g.start, form.alternatives_start ▸ held⟩
  · exact ⟨rule.lhs, form.alternative_of_old old held⟩

private theorem kept_newStart (owned : alternative ∈ g.alternatives g.start) :
    alternative ∈ g.epsilonFree.unitFree.alternatives (g.freshName g.start) := by
  rw [form.alternatives_start] at owned
  rw [form.unitFree_eq, mem_alternatives_ofProductions]
  exact List.mem_flatMap.mpr ⟨_, List.mem_cons_self, List.mem_map_of_mem owned⟩

private theorem kept_other (owned : alternative ∈ g.alternatives name) (other : name ≠ g.start) :
    alternative ∈ g.epsilonFree.unitFree.alternatives name := by
  have listed := production_of_alternative owned
  rw [form.productions_eq] at listed
  rw [form.unitFree_eq, mem_alternatives_ofProductions]
  rcases List.mem_cons.mp listed with same | old
  · exact absurd (Production.mk.inj same).1 other
  · exact List.mem_append_right _ old

private theorem productiveOnly_unitFree : g.epsilonFree.unitFree.productiveOnly = g.epsilonFree.unitFree := by
  have wellFormed := wellFormed_beforePruning form.wellFormed
  have empty : g.Generates g.start [] := (nonterminal_mem_nullable form.wellFormed).mp form.vanishes
  have fertile := (beforePruning_productive_iff form.wellFormed).mpr ⟨[], empty⟩
  refine productiveOnly_eq_self fertile wellFormed fun production listed => allProductive_iff.mpr fun inner inside => ?_
  obtain ⟨owner, owned⟩ := form.origin_unitFree ((mem_alternatives wellFormed.once).mpr listed)
  obtain ⟨sentence, generates⟩ := form.productive inner (Or.inr ⟨owner, _, owned, inside⟩)
  have known : inner ≠ g.freshName g.start := fun same => freshName_not_mem_alternative _ owned (same ▸ inside)
  have visible : sentence ≠ [] := by
    rintro rfl
    obtain ⟨rfl, _⟩ := form.start_of_empty generates
    exact form.start_not_mem owned inside
  refine (nonterminal_mem_productive wellFormed).mpr ⟨sentence, ?_⟩
  rw [language_unitFree (nodup_epsilonFree g)]
  exact (mem_language_epsilonFree form.wellFormed known).mpr ⟨generates, visible⟩

/-- The new start leads wherever the old one did, but not to the old one. -/
private theorem leads_unitFree (path : Relation.ReflTransGen g.Leads g.start name) :
    name = g.start ∨ Relation.ReflTransGen g.epsilonFree.unitFree.Leads (g.freshName g.start) name := by
  induction path with
  | refl => exact Or.inl rfl
  | @tail middle name _ leads ih =>
    obtain ⟨alternative, owned, inside⟩ := leads
    by_cases first : middle = g.start
    · subst first
      exact Or.inr (.single ⟨alternative, form.kept_newStart owned, inside⟩)
    · have reached := ih.resolve_left first
      exact Or.inr (reached.tail ⟨alternative, form.kept_other owned first, inside⟩)

private theorem start_not_reachable : .nonterminal g.start ∉ g.epsilonFree.unitFree.reachable := by
  have once := (wellFormed_beforePruning form.wellFormed).once
  intro found
  rcases (mem_reachable once _).mp found with same | ⟨owner, alternative, owned, _, inside⟩
  · rw [form.start_unitFree_eq] at same
    exact g.freshName_ne_start g.start (Symbol.nonterminal.inj same).symm
  · obtain ⟨_, held⟩ := form.origin_unitFree owned
    exact form.start_not_mem held inside

private theorem others_reachable {rule : Rule} (member : rule ∈ others) :
    .nonterminal rule.lhs ∈ g.epsilonFree.unitFree.reachable := by
  have once := (wellFormed_beforePruning form.wellFormed).once
  have listed : rule.lhs ∈ g.nonterminals := List.mem_map_of_mem (form.shape ▸ List.mem_cons_of_mem _ member)
  rw [nonterminal_mem_reachable once, form.start_unitFree_eq]
  exact (form.leads_unitFree (form.leads_of_listed listed)).resolve_left (form.lhs_ne_start member)

private theorem start_reachable : .nonterminal (g.freshName g.start) ∈ g.epsilonFree.unitFree.reachable := by
  rw [← form.start_unitFree_eq]
  exact g.epsilonFree.unitFree.start_mem_reachable

/-- The old start goes, and the new one stands in its place. -/
private theorem reachable_productions :
    g.epsilonFree.unitFree.productions.filter (.nonterminal ·.lhs ∈ g.epsilonFree.unitFree.reachable) =
      (Rule.mk (g.freshName g.start) ([.epsilon] :: rest) :: others).flatMap Rule.productions := by
  let keep (name : Name) : Bool := .nonterminal name ∈ g.epsilonFree.unitFree.reachable
  have first : keep (g.freshName g.start) = true := decide_eq_true form.start_reachable
  have second : ¬keep g.start = true := by simpa [keep] using form.start_not_reachable
  have all : ∀ rule ∈ others, keep rule.lhs = true :=
    fun rule member => decide_eq_true (form.others_reachable member)
  rw [form.productions_unitFree, filter_flatMap_productions _ keep, List.filter_cons, if_pos first, List.filter_cons,
    if_neg second, List.filter_eq_self.mpr all]

private theorem proper_eq : g.proper =
    ⟨g.freshName g.start, ⟨g.freshName g.start, [.epsilon] :: rest⟩ :: others⟩ := by
  have owned : ∀ rule ∈ Rule.mk (g.freshName g.start) ([.epsilon] :: rest) :: others, rule.alternatives ≠ [] := by
    intro rule member
    rcases List.mem_cons.mp member with rfl | old
    · exact List.cons_ne_nil _ _
    · exact form.wellFormed.owned rule (form.shape ▸ List.mem_cons_of_mem _ old)
  have once : ((Rule.mk (g.freshName g.start) ([.epsilon] :: rest) :: others).map (·.lhs)).Nodup :=
    (form.once_old _).sublist (((List.sublist_cons_self _ others).cons_cons _).map _)
  rw [Grammar.proper, usefulOnly, form.productiveOnly_unitFree, reachableOnly]
  simp only [form.reachable_productions, form.start_unitFree_eq]
  exact congrArg (Grammar.mk _) (group_productions once owned)

/-- The name of the start is all that a proper grammar with the empty string does not keep. -/
theorem proper_eq_renamed : g.proper = g.renamed g.start (g.freshName g.start) := by
  have first : ([.epsilon] :: rest).map (·.map (Symbol.renamed g.start (g.freshName g.start))) = [.epsilon] :: rest :=
    map_map_renamed fun alternative owned => form.start_not_mem (form.alternatives_start ▸ owned)
  have later : ∀ rule ∈ others, Rule.mk (if rule.lhs = g.start then g.freshName g.start else rule.lhs)
      (rule.alternatives.map (·.map (Symbol.renamed g.start (g.freshName g.start)))) = rule := by
    intro rule member
    rw [if_neg (form.lhs_ne_start member), map_map_renamed]
    exact fun alternative owned => form.start_not_mem (form.alternatives_other member ▸ owned)
  rw [form.proper_eq, renamed, form.shape, if_pos rfl, List.map_cons, if_pos rfl, first]
  exact congrArg _ (congrArg _ ((List.map_congr_left later).trans (List.map_id _)).symm)

end EmptyFirst

end Grammar

end TopDownGrammar
