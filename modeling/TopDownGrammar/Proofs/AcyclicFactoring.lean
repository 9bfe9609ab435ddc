import Mathlib.Data.Finset.Card
import TopDownGrammar.Proofs.Cycles
import TopDownGrammar.Proofs.FactoringCosts
import TopDownGrammar.Proofs.FactoringRuns
import TopDownGrammar.Proofs.HeadSets
import TopDownGrammar.Proofs.Weighings

/-! Factoring a grammar in which no nonterminal leads back to itself. Such a grammar has a weighing, and no other has one:
fees grow with the number of nonterminals that lead to a nonterminal, and costs are those of the alternatives, counted
through as many layers as there are nonterminals. The potential of the weighing bounds the steps, and no step can be
missing at the end: fronts are never left recursive, so two alternatives that share a lookahead either begin alike or one
of them can be expanded. -/

namespace TopDownGrammar.Grammar

open Relation Weighing

variable {g : Grammar} {w : Weighing} {name other : Name} {alternative : Alternative} {layers : Nat}

/-- No nonterminal leads back to itself. -/
def Acyclic (g : Grammar) : Prop :=
  ∀ name, ¬TransGen g.Leads name name

private theorem Leads.listed (leads : g.Leads name other) : name ∈ g.nonterminals := by
  obtain ⟨_, owned, _⟩ := leads
  exact mem_nonterminals_of_alternative owned

private theorem acyclic_of_graph (once : g.nonterminals.Nodup) (acyclic : ¬g.dependencyGraph.HasCycle) : g.Acyclic := by
  have edges : ∀ {first last}, TransGen g.Leads first last → last ∈ g.nonterminals →
      TransGen g.dependencyGraph.Edge first last := by
    intro first last path
    induction path with
    | single leads => exact fun listed => .single ((edge_iff once).mpr ⟨leads, listed⟩)
    | tail _ leads ih => exact fun listed => (ih leads.listed).tail ((edge_iff once).mpr ⟨leads, listed⟩)
  intro name around
  obtain ⟨_, leads, _⟩ := TransGen.head'_iff.mp around
  exact acyclic ⟨name, edges around leads.listed⟩

open Classical in
noncomputable def ancestors (g : Grammar) (name : Name) : Finset Name :=
  g.nonterminals.toFinset.filter fun other => TransGen g.Leads other name

noncomputable def depth (g : Grammar) (name : Name) : Nat :=
  (g.ancestors name).card

private theorem mem_ancestors : other ∈ g.ancestors name ↔ TransGen g.Leads other name := by
  classical
  rw [ancestors, Finset.mem_filter, List.mem_toFinset, and_iff_right_iff_imp]
  intro path
  obtain ⟨_, leads, _⟩ := TransGen.head'_iff.mp path
  exact leads.listed

private theorem depth_lt (acyclic : g.Acyclic) (leads : g.Leads name other) : g.depth name < g.depth other := by
  refine Finset.card_lt_card (Finset.ssubset_iff_subset_ne.mpr ⟨fun before member => ?_, fun same => ?_⟩)
  · exact mem_ancestors.mpr ((mem_ancestors.mp member).tail leads)
  · exact acyclic name (mem_ancestors.mp (same ▸ mem_ancestors.mpr (.single leads)))

private theorem depth_le (g : Grammar) (name : Name) : g.depth name ≤ g.nonterminals.length := by
  classical
  exact (Finset.card_filter_le _ _).trans (List.toFinset_card_le _)

private theorem depth_lt_length (acyclic : g.Acyclic) (listed : name ∈ g.nonterminals) :
    g.depth name < g.nonterminals.length := by
  classical
  have fewer : g.ancestors name ⊂ g.nonterminals.toFinset :=
    Finset.filter_ssubset.mpr ⟨name, List.mem_toFinset.mpr listed, acyclic name⟩
  exact (Finset.card_lt_card fewer).trans_le (List.toFinset_card_le _)

/-- Costs that look through so many layers of alternatives. What lies deeper costs a fee. -/
noncomputable def layered (g : Grammar) : (layers : Nat) → Weighing
  | 0 => ⟨fun name behind => behind + 4 ^ g.depth name, fun name => 4 ^ g.depth name, 4 ^ (g.nonterminals.length + 1)⟩
  | layers + 1 =>
    let inner := g.layered layers
    { inner with cost := fun name =>
        if g.alternatives name = [] then inner.cost name else inner.total (inner.fee name) (g.alternatives name) }

@[simp] private theorem fee_layered : (g.layered layers).fee name = 4 ^ g.depth name := by
  induction layers with
  | zero => rfl
  | succ layers ih => exact ih

@[simp] private theorem terminal_layered : (g.layered layers).terminal = 4 ^ (g.nonterminals.length + 1) := by
  induction layers with
  | zero => rfl
  | succ layers ih => exact ih

private theorem four_fees (g : Grammar) (name : Name) : 4 * 4 ^ g.depth name = 4 ^ (g.depth name + 1) := by
  rw [Nat.pow_succ, Nat.mul_comm]

private theorem carries_layered (acyclic : g.Acyclic) (owned : alternative ∈ g.alternatives name) :
    (g.layered layers).Carries (4 ^ g.depth name) alternative := by
  have high : ∀ symbol ∈ alternative, 4 * 4 ^ g.depth name ≤ (g.layered layers).symbolFee symbol := by
    intro symbol member
    rw [four_fees]
    cases symbol with
    | nonterminal other =>
      rw [symbolFee, fee_layered]
      exact Nat.pow_le_pow_right (by decide) (depth_lt acyclic ⟨alternative, owned, member⟩)
    | _ =>
      change _ ≤ (g.layered layers).terminal
      rw [terminal_layered]
      exact Nat.pow_le_pow_right (by decide) (Nat.succ_le_succ (g.depth_le name))
  refine ⟨fun symbol member => ?_, List.pairwise_of_forall_mem_list fun symbol member _ _ => high symbol member⟩
  exact (Nat.le_mul_of_pos_left _ (by decide)).trans (high symbol member)

private theorem splits_layered (acyclic : g.Acyclic) (name : Name) :
    Splits ((g.layered layers).fee name) 0 ((g.layered layers).cost name) := by
  induction layers generalizing name with
  | zero => exact .shift _ (Nat.le_refl _)
  | succ layers ih =>
    simp only [layered]
    split
    · exact ih name
    next some =>
      refine splits_total ih some fun alternative owned => ?_
      rw [fee_layered]
      exact carries_layered acyclic owned

private theorem sequenceCost_congr {w' : Weighing} {symbols : List Symbol}
    (same : ∀ symbol ∈ symbols, w.symbolCost symbol = w'.symbolCost symbol) (behind : Nat) :
    w.sequenceCost symbols behind = w'.sequenceCost symbols behind := by
  induction symbols with
  | nil => rfl
  | cons symbol rest ih =>
    rw [sequenceCost_cons, sequenceCost_cons, same symbol List.mem_cons_self,
      ih fun other member => same other (List.mem_cons_of_mem _ member)]

/-- Once all layers below a nonterminal are counted, another one changes nothing. -/
private theorem cost_layered_succ (acyclic : g.Acyclic) (name : Name) (enough : g.nonterminals.length ≤ g.depth name + layers) :
    (g.layered (layers + 1)).cost name = (g.layered layers).cost name := by
  by_cases none : g.alternatives name = []
  · exact if_pos none
  induction layers generalizing name with
  | zero =>
    have below := depth_lt_length acyclic (mem_nonterminals_of_alternative (List.head_mem none))
    omega
  | succ layers ih =>
    have deeper : ∀ other, g.Leads name other → (g.layered (layers + 1)).cost other = (g.layered layers).cost other := by
      intro other leads
      have below := depth_lt acyclic leads
      by_cases bottom : g.alternatives other = []
      · exact if_pos bottom
      · exact ih other (by omega) bottom
    have outer : (g.layered (layers + 2)).cost name =
        (g.layered (layers + 1)).total ((g.layered (layers + 1)).fee name) (g.alternatives name) := if_neg none
    have inner : (g.layered (layers + 1)).cost name =
        (g.layered layers).total ((g.layered layers).fee name) (g.alternatives name) := if_neg none
    rw [outer, inner, fee_layered, fee_layered]
    funext behind
    refine congrArg List.sum (List.map_congr_left fun alternative owned => congrArg (· + _) ?_)
    refine sequenceCost_congr (fun symbol member => ?_) behind
    cases symbol with
    | nonterminal other => exact deeper other ⟨alternative, owned, member⟩
    | _ => rfl

/-- Counted through all layers, the costs are right. -/
theorem weighs_layered (acyclic : g.Acyclic) : (g.layered g.nonterminals.length).Weighs g.alternatives := by
  refine ⟨fun name => ?_, fun name => ?_, splits_layered acyclic, fun name alternative owned => ?_, fun name behind => ?_⟩
  · rw [fee_layered]
    exact Nat.pow_pos (by decide)
  · rw [fee_layered, terminal_layered, four_fees]
    exact Nat.pow_le_pow_right (by decide) (Nat.succ_le_succ (g.depth_le name))
  · rw [fee_layered]
    exact carries_layered acyclic owned
  · by_cases none : g.alternatives name = []
    · simp [none, total]
    · have all : (g.layered (g.nonterminals.length + 1)).cost name = _ := if_neg none
      rw [← cost_layered_succ acyclic name (Nat.le_add_left _ _), all]

theorem cost_lt_of_leads (weighs : w.Weighs g.alternatives) (leads : g.Leads name other) :
    w.cost other 0 < w.cost name 0 := by
  obtain ⟨alternative, owned, inside⟩ := leads
  obtain ⟨before, after, rfl⟩ := List.mem_iff_append.mp inside
  have free : ∀ symbols : List Symbol, Splits 0 0 (w.sequenceCost symbols) :=
    fun symbols => splits_sequence weighs.splits fun _ _ => Nat.zero_le _
  have held : w.cost other 0 ≤ w.sequenceCost (before ++ .nonterminal other :: after) 0 := by
    rw [sequenceCost_append, sequenceCost_cons]
    exact ((weighs.splits other).mono (Nat.zero_le _)).trans ((free before).grows _)
  have paid : w.sequenceCost (before ++ .nonterminal other :: after) 0 + w.fee name ≤
      w.total (w.fee name) (g.alternatives name) 0 := by
    have part : w.total (w.fee name) [before ++ .nonterminal other :: after] 0 ≤
        w.total (w.fee name) (g.alternatives name) 0 := total_sublist (List.singleton_sublist.mpr owned)
    simpa [total] using part
  have covers := weighs.covers name 0
  have positive := weighs.positive name
  omega

private theorem acyclic_of_weighs (weighs : w.Weighs g.alternatives) : g.Acyclic := by
  have falls : ∀ {first last}, TransGen g.Leads first last → w.cost last 0 < w.cost first 0 := by
    intro first last path
    induction path with
    | single leads => exact cost_lt_of_leads weighs leads
    | tail _ leads ih => exact (cost_lt_of_leads weighs leads).trans ih
  exact fun name around => Nat.lt_irrefl _ (falls around)

theorem path_of_mem_heads {head : Name} (member : .nonterminal head ∈ g.heads.get name) :
    TransGen g.Leads name head := by
  refine g.growHeads_draws.settle_induction
    (fun name shown => ∀ head, shown = .nonterminal head → TransGen g.Leads name head) ?_ ?_ name _ member head rfl
  · exact fun name shown member => absurd member SetFamily.not_mem_tabulate_empty
  · intro heads known name shown drawn head same
    obtain ⟨alternative, owned, inside⟩ := drawn
    rcases mem_alternativeHeads.mp inside with shows | ⟨_, vanishes⟩
    · rcases shows.origin with vanishes | ⟨symbol, occurs, here⟩
      · cases same.symm.trans vanishes
      · cases symbol with
        | nonterminal other =>
          have leads : g.Leads name other := ⟨alternative, owned, occurs⟩
          rcases here with itself | old
          · obtain rfl := Symbol.nonterminal.inj (same.symm.trans itself)
            exact .single leads
          · exact .head leads (known other shown old head same)
        | epsilon => cases same.symm.trans here
        | _ => exact here.elim
    · cases same.symm.trans vanishes

/-- Without cycles no conflict is left over that no step resolves. -/
theorem conflictFree_of_stuck (wellFormed : g.WellFormed) (acyclic : g.Acyclic) (stuck : g.factorStep? true = none) :
    g.isConflictFree = true := by
  refine List.isEmpty_iff.mpr (List.eq_nil_iff_forall_not_mem.mpr fun conflict member => ?_)
  obtain ⟨a, b, located⟩ := located_of_mem wellFormed.once member
  have around : ∀ alternative, ¬g.SelfHeaded alternative := by
    intro alternative headed
    obtain ⟨front, _, set, _, found, inside⟩ := headed
    exact acyclic front (path_of_mem_heads (by simpa [SetFamily.get, found] using inside))
  rcases selfHeaded_of_unresolved wellFormed member located (factorStep_eq_none.mp stuck conflict member) with
    headed | headed
  · exact around a headed
  · exact around b headed

/-- Factoring with expansions comes to an end of its own on every grammar whose dependency graph has no cycle,
and the grammar that it ends in is free of conflicts. -/
theorem factor_complete (wellFormed : g.WellFormed) (acyclic : ¬g.dependencyGraph.HasCycle) :
    ∃ bound, ∀ maxSteps, bound ≤ maxSteps →
      let outcome := g.factor ⟨maxSteps, true⟩
      outcome.conflictFree = true ∧ outcome.grammar.isConflictFree = true ∧ outcome.steps ≤ bound := by
  have weighs := weighs_layered (acyclic_of_graph wellFormed.once acyclic)
  refine ⟨(g.layered g.nonterminals.length).potential g.nonterminals, fun maxSteps enough => ?_⟩
  obtain ⟨rest, ⟨stillWellFormed, w, right, _⟩, bounded, stuck⟩ :=
    factorSteps_ranked true Costs (fun _ _ _ => Costs.step) ⟨wellFormed, _, weighs, rfl⟩ maxSteps
  have free := conflictFree_of_stuck stillWellFormed (acyclic_of_weighs right) (stuck enough)
  exact ⟨(conflictFree_factorSteps true maxSteps g).trans free, free, Nat.le_of_add_right_le bounded⟩

/-- The alternatives of `S` meet in `A`, and again in what `A` is factored into. -/
def branching : Grammar :=
  ⟨"S", [⟨"S", [[.nonterminal "A", .terminal "c"], [.nonterminal "B", .terminal "d"]]⟩,
    ⟨"A", [[.terminal "a", .nonterminal "B"], [.terminal "a", .terminal "b"], [.epsilon]]⟩,
    ⟨"B", [[.terminal "a"], [.terminal "b"]]⟩]⟩

theorem branching_completes : branching.WellFormed ∧ ¬branching.dependencyGraph.HasCycle ∧
    branching.isConflictFree = false ∧ ∃ bound, ∀ maxSteps, bound ≤ maxSteps →
      let outcome := branching.factor ⟨maxSteps, true⟩
      outcome.conflictFree = true ∧ outcome.grammar.isConflictFree = true ∧ outcome.steps ≤ bound := by
  have wellFormed : branching.WellFormed := by decide
  have acyclic : ¬branching.dependencyGraph.HasCycle := by
    rw [← DependencyGraph.isCyclic_iff]
    decide +kernel
  exact ⟨wellFormed, acyclic, by decide +kernel, factor_complete wellFormed acyclic⟩

end TopDownGrammar.Grammar
