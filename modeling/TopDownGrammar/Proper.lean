import TopDownGrammar.Closure

/-! The proper form of a grammar: no alternatives that derive the empty string, but for one on a start of its own, none
that is a single nonterminal, and no symbols that take no part in the derivation of a terminal string. -/

namespace TopDownGrammar

/-- Puts a symbol behind every sequence, and if it is nullable keeps the sequences without it too. -/
def extendAll (nullable : SymbolSet) (partials : List Alternative) (symbol : Symbol) : List Alternative :=
  let kept := partials.map (· ++ [symbol])
  if symbol ∈ nullable then kept ++ partials else kept

/-- Every way to leave out some of the nullable symbols of a sequence, the one that keeps them
all first. The empty string is left out always, and nothing at all is no alternative. -/
def omissions (nullable : SymbolSet) (symbols : List Symbol) : List Alternative :=
  ((visible symbols).foldl (extendAll nullable) [[]]).filter (!·.isEmpty)

namespace Grammar

def shortened (g : Grammar) : List Production :=
  let nullable := g.nullable
  distinct (g.productions.flatMap fun production =>
    (omissions nullable production.rhs).map (Production.mk production.lhs))

/-- If the start is nullable a new start takes its place, with the old one and the empty string
as its alternatives. -/
def epsilonFree (g : Grammar) : Grammar :=
  if .nonterminal g.start ∈ g.nullable then
    .ofProductions (g.freshName g.start)
      (⟨g.freshName g.start, [.nonterminal g.start]⟩ :: ⟨g.freshName g.start, [.epsilon]⟩ :: g.shortened)
  else .ofProductions g.start g.shortened

/-- Where the right-hand side is a single nonterminal, all that reach the left-hand side reach what that one reaches.
One that owns no rule derives nothing and is not followed. -/
def mergeUnit (closures : SetFamily) (production : Production) : SetFamily :=
  match production.rhs with
  | [.nonterminal target] =>
    match closures.get? target with
    | none => closures
    | some reached => closures.map fun set => if .nonterminal production.lhs ∈ set then set ∪ reached else set
  | _ => closures

def mergeUnits (g : Grammar) (closures : SetFamily) : SetFamily :=
  g.productions.foldl mergeUnit closures

/-- For each nonterminal itself and all that it reaches by alternatives that are a single nonterminal. -/
def unitClosures (g : Grammar) : SetFamily :=
  settle g.mergeUnits (g.rules.length * g.rules.length)
    (.tabulate g.nonterminals fun name => {.nonterminal name})

/-- Each nonterminal takes over the other alternatives of all that it reaches. A nonterminal
that is left with none is no longer listed. -/
def unitFree (g : Grammar) : Grammar :=
  let closures := g.unitClosures
  let taken := g.nonterminals.flatMap fun name =>
    let closure := closures.get name
    (g.nonterminals.filter (.nonterminal · ∈ closure)).flatMap fun other =>
      ((g.alternatives other).filter (!isUnit ·)).map (Production.mk name)
  .ofProductions g.start (distinct taken)

/-- Keeps the alternatives whose nonterminals are all productive. A grammar of the empty
language becomes the single rule `S -> S` over its start. -/
def productiveOnly (g : Grammar) : Grammar :=
  let productive := g.productive
  if .nonterminal g.start ∈ productive then
    .ofProductions g.start (g.productions.filter (allProductive productive ·.rhs))
  else .ofProductions g.start [⟨g.start, [.nonterminal g.start]⟩]

def reachableOnly (g : Grammar) : Grammar :=
  let reachable := g.reachable
  .ofProductions g.start (g.productions.filter (.nonterminal ·.lhs ∈ reachable))

/-- Unproductive symbols go first, because without them fewer symbols are reachable. -/
def usefulOnly (g : Grammar) : Grammar :=
  g.productiveOnly.reachableOnly

end Grammar

/-- The grammars met on the way to the proper form, in order, each with the set that the step
to it goes by. -/
structure Normalization where
  nullable : SymbolSet
  epsilonFree : Grammar
  unitClosures : SetFamily
  unitFree : Grammar
  productive : SymbolSet
  productiveOnly : Grammar
  reachable : SymbolSet
  proper : Grammar

namespace Grammar

def normalization (g : Grammar) : Normalization :=
  let epsilonFree := g.epsilonFree
  let unitFree := epsilonFree.unitFree
  let productiveOnly := unitFree.productiveOnly
  { nullable := g.nullable, epsilonFree
    unitClosures := epsilonFree.unitClosures, unitFree
    productive := unitFree.productive, productiveOnly
    reachable := productiveOnly.reachable, proper := productiveOnly.reachableOnly }

def proper (g : Grammar) : Grammar :=
  g.epsilonFree.unitFree.usefulOnly

theorem proper_normalization (g : Grammar) : g.normalization.proper = g.proper := rfl

end Grammar

end TopDownGrammar
