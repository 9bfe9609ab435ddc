import TopDownGrammar.Factoring
import TopDownGrammar.Proper

/-! All that is to be known about a grammar before a parser is made from it, the size of its language included. In a
proper grammar every symbol is useful and every step either adds symbols or puts a terminal in place, so the language is
infinite exactly when some nonterminal can come back. -/

namespace TopDownGrammar

structure DependencyGraph where
  nodes : List Name
  edges : List (Name × Name)
  inside : ∀ edge ∈ edges, edge.1 ∈ nodes ∧ edge.2 ∈ nodes

namespace DependencyGraph

def targets (graph : DependencyGraph) (set : SymbolSet) : List Symbol :=
  (graph.edges.filter (.nonterminal ·.1 ∈ set)).map (.nonterminal ·.2)

/-- A node and all that edges lead to from there. -/
def closure (graph : DependencyGraph) (node : Name) : SymbolSet :=
  .saturate graph.targets graph.nodes.length {.nonterminal node}

/-- From the target of some edge there is a way back to its source. -/
def isCyclic (graph : DependencyGraph) : Bool :=
  graph.edges.any fun (source, target) => .nonterminal source ∈ graph.closure target

end DependencyGraph

inductive LanguageSize where
  | empty
  | finite
  | infinite
deriving DecidableEq, Repr

namespace Grammar

/-- The nonterminals that a production leads to, those without rules left out. -/
def dependencies (g : Grammar) (production : Production) : List (Name × Name) :=
  production.rhs.filterMap fun
    | .nonterminal name => if g.owns name then some (production.lhs, name) else none
    | _ => none

theorem mem_dependencies {g : Grammar} {production : Production} {edge : Name × Name} :
    edge ∈ g.dependencies production ↔
      edge.1 = production.lhs ∧ .nonterminal edge.2 ∈ production.rhs ∧ edge.2 ∈ g.nonterminals := by
  obtain ⟨source, target⟩ := edge
  rw [dependencies, List.mem_filterMap]
  constructor
  · intro found
    obtain ⟨symbol, member, drawn⟩ := found
    split at drawn
    next name =>
      split at drawn
      next owned =>
        obtain ⟨rfl, rfl⟩ := Prod.mk.inj (Option.some.inj drawn)
        exact ⟨rfl, member, owns_iff.1 owned⟩
      next => cases drawn
    next => cases drawn
  · intro found
    obtain ⟨rfl, member, owned⟩ := found
    exact ⟨_, member, if_pos (owns_iff.2 owned)⟩

/-- An edge leads from a nonterminal to each one that stands in its alternatives. -/
def dependencyGraph (g : Grammar) : DependencyGraph where
  nodes := g.nonterminals
  edges := distinct (g.productions.flatMap g.dependencies)
  inside := by
    intro edge member
    obtain ⟨production, present, found⟩ := List.mem_flatMap.1 (mem_distinct.1 member)
    obtain ⟨source, _, owned⟩ := mem_dependencies.1 found
    exact ⟨source ▸ lhs_mem_nonterminals present, owned⟩

/-- The size by any test for cycles. -/
def languageSizeBy (cyclic : DependencyGraph → Bool) (g : Grammar) : LanguageSize :=
  if g.isBarren then .empty
  else if cyclic g.proper.dependencyGraph then .infinite
  else .finite

def languageSize (g : Grammar) : LanguageSize :=
  g.languageSizeBy DependencyGraph.isCyclic

def isInfinite (g : Grammar) : Bool :=
  g.languageSize = .infinite

end Grammar

structure Analysis where
  first : SetFamily
  follow : SetFamily
  heads : SetFamily
  conflicts : List Conflict
  size : LanguageSize

def Analysis.isConflictFree (analysis : Analysis) : Bool :=
  analysis.conflicts.isEmpty

def Grammar.analysis (g : Grammar) : Analysis :=
  let first := g.first
  { first, follow := g.followWith first, heads := g.heads
    conflicts := g.conflictsWith first, size := g.languageSize }

end TopDownGrammar
