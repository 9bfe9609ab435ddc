import TopDownGrammar.Proofs.Rules
import TopDownGrammar.Proofs.Saturations
import TopDownGrammar.Proper

/-! What a nonterminal reaches by alternatives that are a single nonterminal. The closures of all nonterminals grow
together: each merge of a production puts one set into every set that the production extends. A run of merges never
goes beyond what is reached, and where no merge changes anything all of it is there, so the order does not count. -/

namespace TopDownGrammar.Grammar

variable {g : Grammar} {names : List Name} {name other : Name} {symbol : Symbol} {production : Production}
  {closures later : SetFamily}

/-- The second nonterminal owns a rule and is an alternative of the first. -/
def UnitLeads (g : Grammar) (first second : Name) : Prop :=
  [.nonterminal second] ∈ g.alternatives first ∧ second ∈ g.nonterminals

def unitSeed (g : Grammar) : SetFamily :=
  .tabulate g.nonterminals fun name => {.nonterminal name}

/-- One production is merged into the closures. -/
def Merges (g : Grammar) (closures later : SetFamily) : Prop :=
  ∃ production ∈ g.productions, later = mergeUnit closures production

private theorem mergeUnit_keyed (keyed : closures.Keyed names) : (mergeUnit closures production).Keyed names := by
  unfold mergeUnit
  split
  · split
    · exact keyed
    · rw [keyed.map_eq]
      exact SetFamily.keyed_tabulate _ _
  · exact keyed

theorem mem_mergeUnit (keyed : closures.Keyed names) (listed : name ∈ names) :
    symbol ∈ (mergeUnit closures production).get name ↔ symbol ∈ closures.get name ∨
      ∃ target, production.rhs = [.nonterminal target] ∧ .nonterminal production.lhs ∈ closures.get name ∧
        symbol ∈ closures.get target := by
  unfold mergeUnit
  split
  next target single =>
    have only : (∃ other, production.rhs = [.nonterminal other] ∧ .nonterminal production.lhs ∈ closures.get name ∧
        symbol ∈ closures.get other) ↔ .nonterminal production.lhs ∈ closures.get name ∧ symbol ∈ closures.get target := by
      simp [single]
    rw [only]
    split
    next missing => simp [SetFamily.get, missing]
    next reached found =>
      have target_reached : closures.get target = reached := by rw [SetFamily.get, found, Option.getD_some]
      rw [keyed.map_eq, SetFamily.get_tabulate listed, target_reached]
      split
      next inside => simp [inside]
      next outside => simp [outside]
  next other =>
    refine (or_iff_left ?_).symm
    rintro ⟨target, single, _⟩
    exact other target single

namespace Merges

private theorem keyed (merges : g.Merges closures later) (before : closures.Keyed names) : later.Keyed names := by
  obtain ⟨production, _, rfl⟩ := merges
  exact mergeUnit_keyed before

private theorem grown (merges : g.Merges closures later) (before : closures.Keyed names) (listed : name ∈ names) :
    ∀ symbol ∈ closures.get name, symbol ∈ later.get name := by
  obtain ⟨production, _, rfl⟩ := merges
  exact fun symbol member => (mem_mergeUnit before listed).mpr (Or.inl member)

end Merges

private theorem grown_of_merges (path : Relation.ReflTransGen g.Merges closures later) (before : closures.Keyed names) :
    later.Keyed names ∧ ∀ name ∈ names, ∀ symbol ∈ closures.get name, symbol ∈ later.get name := by
  induction path with
  | refl => exact ⟨before, fun _ _ _ member => member⟩
  | tail _ merges ih =>
    obtain ⟨keyed, kept⟩ := ih
    exact ⟨merges.keyed keyed, fun name listed symbol member => merges.grown keyed listed symbol (kept name listed symbol member)⟩

private theorem merges_foldl {productions : List Production} (within : ∀ production ∈ productions, production ∈ g.productions) :
    Relation.ReflTransGen g.Merges closures (productions.foldl mergeUnit closures) := by
  induction productions generalizing closures with
  | nil => exact .refl
  | cons production rest ih =>
    obtain ⟨here, later⟩ := List.forall_mem_cons.mp within
    exact .head ⟨production, here, rfl⟩ (ih later)

/-- If merging some productions one after the other changes nothing, then merging none of them does. -/
private theorem eq_of_foldl {productions : List Production} (keyed : closures.Keyed names)
    (within : ∀ production ∈ productions, production ∈ g.productions)
    (same : productions.foldl mergeUnit closures = closures) :
    ∀ production ∈ productions, mergeUnit closures production = closures := by
  induction productions with
  | nil => exact fun _ member => absurd member List.not_mem_nil
  | cons production rest ih =>
    obtain ⟨here, later⟩ := List.forall_mem_cons.mp within
    rw [List.foldl_cons] at same
    have merges : g.Merges closures (mergeUnit closures production) := ⟨production, here, rfl⟩
    have unchanged : mergeUnit closures production = closures := by
      apply (merges.keyed keyed).ext keyed
      intro name listed symbol
      have onwards := (grown_of_merges (merges_foldl later) (merges.keyed keyed)).2 name listed symbol
      exact ⟨fun member => same ▸ onwards member, merges.grown keyed listed symbol⟩
    rw [unchanged] at same
    exact List.forall_mem_cons.mpr ⟨unchanged, ih later same⟩

theorem merges_mergeUnits (g : Grammar) (closures : SetFamily) :
    Relation.ReflTransGen g.Merges closures (g.mergeUnits closures) :=
  merges_foldl fun _ => id

/-- Closures on the way: each nonterminal has a set, with itself in it and nothing that it does not reach. -/
structure Merged (g : Grammar) (closures : SetFamily) : Prop where
  keyed : closures.Keyed g.nonterminals
  own : ∀ name ∈ g.nonterminals, .nonterminal name ∈ closures.get name
  reached : ∀ name ∈ g.nonterminals, ∀ symbol ∈ closures.get name,
    ∃ other, symbol = .nonterminal other ∧ Relation.ReflTransGen g.UnitLeads name other

private theorem merged_unitSeed (g : Grammar) : g.Merged g.unitSeed := by
  refine ⟨SetFamily.keyed_tabulate _ _, ?_, ?_⟩
  · intro name listed
    rw [unitSeed, SetFamily.get_tabulate listed]
    exact SymbolSet.mem_singleton.mpr rfl
  · intro name listed symbol member
    rw [unitSeed, SetFamily.get_tabulate listed] at member
    exact ⟨name, SymbolSet.mem_singleton.mp member, .refl⟩

namespace Merged

private theorem step (once : g.nonterminals.Nodup) (merged : g.Merged closures) (merges : g.Merges closures later) :
    g.Merged later := by
  refine ⟨merges.keyed merged.keyed, ?_, ?_⟩
  · exact fun name listed => merges.grown merged.keyed listed _ (merged.own name listed)
  · intro name listed symbol member
    obtain ⟨⟨owner, rhs⟩, present, rfl⟩ := merges
    rcases (mem_mergeUnit merged.keyed listed).mp member with old | ⟨target, rfl, inside, new⟩
    · exact merged.reached name listed symbol old
    · have known := merged.keyed.listed new
      obtain ⟨_, same, front⟩ := merged.reached name listed _ inside
      obtain rfl := Symbol.nonterminal.inj same
      obtain ⟨last, rfl, back⟩ := merged.reached target known symbol new
      exact ⟨last, rfl, front.trans (.head ⟨(mem_alternatives once).mpr present, known⟩ back)⟩

private theorem run (once : g.nonterminals.Nodup) (merged : g.Merged closures)
    (path : Relation.ReflTransGen g.Merges closures later) : g.Merged later := by
  induction path with
  | refl => exact merged
  | tail _ merges ih => exact ih.step once merges

/-- Where merging changes nothing more, each set holds all that its nonterminal reaches. -/
theorem mem_iff_of_rest (merged : g.Merged closures)
    (rest : ∀ production ∈ g.productions, mergeUnit closures production = closures) (listed : name ∈ g.nonterminals) :
    symbol ∈ closures.get name ↔ ∃ other, symbol = .nonterminal other ∧ Relation.ReflTransGen g.UnitLeads name other := by
  refine ⟨merged.reached name listed symbol, ?_⟩
  rintro ⟨other, rfl, path⟩
  induction path with
  | refl => exact merged.own name listed
  | tail _ leads ih =>
    rw [← rest _ (production_of_alternative leads.1), mem_mergeUnit merged.keyed listed]
    exact Or.inr ⟨_, rfl, ih, merged.own _ leads.2⟩

private theorem inside (merged : g.Merged closures) (name : Name) :
    ∀ symbol ∈ closures.get name, symbol ∈ g.nonterminals.map Symbol.nonterminal := by
  intro symbol member
  have listed := merged.keyed.listed member
  obtain ⟨other, rfl, path⟩ := merged.reached name listed symbol member
  refine List.mem_map_of_mem ?_
  rcases path.cases_tail with rfl | ⟨_, _, leads⟩
  · exact listed
  · exact leads.2

end Merged

theorem merged_unitClosures (once : g.nonterminals.Nodup) : g.Merged g.unitClosures :=
  settle_keeps g.Merged (fun closures merged => merged.run once (g.merges_mergeUnits closures)) g.merged_unitSeed

/-- Every round of merges but the last adds a nonterminal to some set, so there are rounds enough. -/
theorem mergeUnits_unitClosures (once : g.nonterminals.Nodup) : g.mergeUnits g.unitClosures = g.unitClosures := by
  apply round_settle g.Merged (SetFamily.size g.nonterminals)
  · exact fun closures merged => merged.run once (g.merges_mergeUnits closures)
  · intro closures merged moved
    obtain ⟨keyed, kept⟩ := grown_of_merges (g.merges_mergeUnits closures) merged.keyed
    exact merged.keyed.size_lt keyed kept moved
  · exact fun closures merged => SetFamily.size_le merged.inside
  · exact g.merged_unitSeed
  · simp [nonterminals]

theorem unitClosures_rest (once : g.nonterminals.Nodup) :
    ∀ production ∈ g.productions, mergeUnit g.unitClosures production = g.unitClosures :=
  eq_of_foldl (merged_unitClosures once).keyed (fun _ => id) (mergeUnits_unitClosures once)

/-- One after the other, in whatever order and however often, the productions merge into the same closures. -/
theorem unitClosures_of_rest (once : g.nonterminals.Nodup) (path : Relation.ReflTransGen g.Merges g.unitSeed closures)
    (rest : ∀ later, g.Merges closures later → later = closures) : closures = g.unitClosures := by
  have merged := (merged_unitSeed g).run once path
  have settled := merged_unitClosures once
  apply merged.keyed.ext settled.keyed
  intro name listed symbol
  rw [merged.mem_iff_of_rest (fun production member => rest _ ⟨production, member, rfl⟩) listed,
    settled.mem_iff_of_rest (unitClosures_rest once) listed]

def unitClosure (g : Grammar) (name : Name) : SymbolSet :=
  g.unitClosures.get name

theorem self_mem_unitClosure (once : g.nonterminals.Nodup) (listed : name ∈ g.nonterminals) :
    .nonterminal name ∈ g.unitClosure name :=
  (merged_unitClosures once).own name listed

theorem mem_unitClosure_iff (once : g.nonterminals.Nodup) (listed : name ∈ g.nonterminals) :
    symbol ∈ g.unitClosure name ↔ ∃ other, symbol = .nonterminal other ∧ Relation.ReflTransGen g.UnitLeads name other :=
  Merged.mem_iff_of_rest (merged_unitClosures once) (unitClosures_rest once) listed

theorem mem_unitClosure (once : g.nonterminals.Nodup) (listed : name ∈ g.nonterminals) :
    .nonterminal other ∈ g.unitClosure name ↔ Relation.ReflTransGen g.UnitLeads name other := by
  rw [mem_unitClosure_iff once listed]
  constructor
  · rintro ⟨_, same, path⟩
    exact Symbol.nonterminal.inj same ▸ path
  · exact fun path => ⟨other, rfl, path⟩

end TopDownGrammar.Grammar
