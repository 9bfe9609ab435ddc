import Mathlib.Order.WellFoundedSet
import TopDownGrammar.Analysis
import TopDownGrammar.Proofs.ClosureSets

/-! Cycles of the dependency graph. The test for them is exact, and a graph without any lets facts
about its nodes be shown along the edges, because it has finitely many nodes. -/

namespace TopDownGrammar

namespace DependencyGraph

variable {graph : DependencyGraph}

def Edge (graph : DependencyGraph) (source target : Name) : Prop :=
  (source, target) ∈ graph.edges

/-- An edge from a node to itself is a cycle as well. -/
def HasCycle (graph : DependencyGraph) : Prop :=
  ∃ node, Relation.TransGen graph.Edge node node

private theorem mem_closure {first last : Name} :
    .nonterminal last ∈ graph.closure first ↔ Relation.ReflTransGen graph.Edge first last := by
  apply SymbolSet.mem_saturate_reached graph.nodes
  · intro set symbol
    rw [targets, List.mem_map]
    constructor
    · intro found
      obtain ⟨⟨source, target⟩, kept, rfl⟩ := found
      obtain ⟨member, present⟩ := List.mem_filter.mp kept
      exact ⟨source, target, rfl, of_decide_eq_true present, member⟩
    · intro found
      obtain ⟨source, target, rfl, present, member⟩ := found
      exact ⟨(source, target), List.mem_filter.mpr ⟨member, decide_eq_true present⟩, rfl⟩
  · exact fun source target edge => (graph.inside _ edge).2
  · exact le_refl _

theorem isCyclic_iff : graph.isCyclic = true ↔ graph.HasCycle := by
  rw [isCyclic, List.any_eq_true]
  constructor
  · intro found
    obtain ⟨⟨source, target⟩, edge, close⟩ := found
    exact ⟨source, Relation.TransGen.head' edge (mem_closure.mp (of_decide_eq_true close))⟩
  · intro cycle
    obtain ⟨node, around⟩ := cycle
    obtain ⟨target, edge, path⟩ := Relation.TransGen.head'_iff.mp around
    exact ⟨(node, target), edge, decide_eq_true (mem_closure.mpr path)⟩

/-- Without cycles, what passes from the targets of all edges to their source holds of every node. -/
theorem induction_of_acyclic (acyclic : ¬graph.HasCycle) (holds : Name → Prop)
    (kept : ∀ source ∈ graph.nodes, (∀ target, graph.Edge source target → holds target) → holds source) :
    ∀ node ∈ graph.nodes, holds node := by
  let below (target source : Name) : Prop := Relation.TransGen graph.Edge source target
  have strict : IsStrictOrder Name below :=
    { irrefl := fun node around => acyclic ⟨node, around⟩
      trans := fun _ _ _ first second => second.trans first }
  have founded : {node | node ∈ graph.nodes}.WellFoundedOn below := graph.nodes.finite_toSet.wellFoundedOn
  intro node member
  apply founded.induction member
  intro source listed earlier
  apply kept source listed
  intro target edge
  exact earlier target (graph.inside _ edge).2 (.single edge)

end DependencyGraph

namespace Grammar

variable {g : Grammar}

theorem edge_iff (once : g.nonterminals.Nodup) {source target : Name} :
    g.dependencyGraph.Edge source target ↔ g.Leads source target ∧ target ∈ g.nonterminals := by
  simp only [DependencyGraph.Edge, dependencyGraph, mem_distinct, List.mem_flatMap, mem_dependencies]
  constructor
  · intro found
    obtain ⟨production, member, rfl, inside, owned⟩ := found
    exact ⟨⟨_, (mem_alternatives once).mpr member, inside⟩, owned⟩
  · intro found
    obtain ⟨⟨alternative, held, inside⟩, owned⟩ := found
    exact ⟨⟨source, alternative⟩, production_of_alternative held, rfl, inside, owned⟩

end Grammar

end TopDownGrammar
