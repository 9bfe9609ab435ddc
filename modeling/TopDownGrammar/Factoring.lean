import TopDownGrammar.Lookahead

/-! Left factoring. Two alternatives of one nonterminal that a parser which looks at one symbol cannot tell apart are in
conflict, and conflicts are resolved one at a time until none is left, none can be resolved, or the steps allowed are used
up. A duplicate is dropped, a common symbol in front is taken out, and an indirect conflict has the symbol in front of one
alternative expanded, unless that is a left recursive nonterminal: to put such a one into itself only makes the grammar
grow. -/

namespace TopDownGrammar

inductive ConflictKind where
  /-- The alternatives are equal. -/
  | duplicate
  /-- The alternatives differ and begin with the same symbol. -/
  | direct (shared : Symbol)
  /-- The common lookahead shows only once a symbol in front is expanded. -/
  | indirect
deriving DecidableEq, Repr

def ConflictKind.between (a b : Alternative) : ConflictKind :=
  if a = b then .duplicate
  else match a, b with
    | x :: _, y :: _ => if x = y ∧ x ≠ .epsilon then .direct x else .indirect
    | _, _ => .indirect

/-- The alternatives are named by their positions. -/
structure Conflict where
  nonterminal : Name
  earlier : Nat
  later : Nat
  lookahead : SymbolSet
  kind : ConflictKind
deriving DecidableEq

/-- Every entry paired with every later one. -/
def laterPairs : List α → List (α × α)
  | [] => []
  | head :: rest => rest.map (head, ·) ++ laterPairs rest

/-- The conflicts among the alternatives of one nonterminal, by position. -/
def Rule.conflicts (first : SetFamily) (rule : Rule) : List Conflict :=
  let seen := rule.alternatives.zipIdx.map fun (alternative, position) =>
    (position, alternative, firstOfSequence first alternative)
  (laterPairs seen).filterMap fun ((i, a, firstA), (j, b, firstB)) =>
    let lookahead := firstA ∩ firstB
    if lookahead.isEmpty then none
    else some ⟨rule.lhs, i, j, lookahead, .between a b⟩

/-- Whether the symbol in front may be expanded: a nonterminal unless it is left recursive, the
empty string if something stands behind it. -/
def isExpandable (heads : SetFamily) : Alternative → Bool
  | .nonterminal name :: _ =>
    match heads.get? name with
    | none => true
    | some set => .nonterminal name ∉ set
  | .epsilon :: _ :: _ => true
  | _ => false

structure FactorOptions where
  maxSteps : Nat := 32
  /-- Whether indirect conflicts are resolved or left in place. -/
  expandIndirect : Bool := true
deriving DecidableEq, Repr

structure FactorOutcome where
  grammar : Grammar
  steps : Nat
  conflictFree : Bool
deriving DecidableEq

namespace Grammar

/-- The conflicts that the given FIRST sets show, the nonterminals in the order of the grammar. -/
def conflictsWith (g : Grammar) (first : SetFamily) : List Conflict :=
  g.rules.flatMap (Rule.conflicts first)

def conflicts (g : Grammar) : List Conflict :=
  g.conflictsWith g.first

def isConflictFree (g : Grammar) : Bool :=
  g.conflicts.isEmpty

/-- What an alternative becomes when the symbol in front is expanded once. -/
def expandFront (g : Grammar) : Alternative → List Alternative
  | .nonterminal name :: rest => (g.alternatives name).map fun body => compact (body ++ rest)
  | alternative => [compact alternative]

def dropAlternative (g : Grammar) (name : Name) (position : Nat) : Grammar :=
  g.replaceAlternatives name ((g.alternatives name).eraseIdx position)

/-- Turns `A -> x a | x b` into `A -> x B` and `B -> a | b`, where `B` is new. -/
def factorOut (g : Grammar) (name : Name) (earlier later : Nat) (shared : Symbol) : Grammar :=
  let alternatives := g.alternatives name
  let fresh := g.freshName name
  let remainder (position : Nat) : Alternative := compact (alternatives.getD position []).tail
  let shortened := (alternatives.set earlier [shared, .nonterminal fresh]).eraseIdx later
  let rest := g.replaceAlternatives name shortened
  ⟨rest.start, rest.rules ++ [⟨fresh, [remainder earlier, remainder later]⟩]⟩

/-- Puts what an alternative becomes in its place, each alternative kept once. -/
def expandAt (g : Grammar) (name : Name) (position : Nat) : Grammar :=
  let alternatives := g.alternatives name
  let expanded := g.expandFront (alternatives.getD position [])
  g.replaceAlternatives name
    (distinct (alternatives.take position ++ expanded ++ alternatives.drop (position + 1)))

/-- The grammar after a step against the conflict, if there is one that may be taken. Of the two
sides of an indirect conflict the earlier is expanded if it can be. -/
def resolve? (g : Grammar) (expandIndirect : Bool) (heads : SetFamily) (conflict : Conflict) : Option Grammar :=
  match conflict.kind with
  | .duplicate => some (g.dropAlternative conflict.nonterminal conflict.later)
  | .direct shared => some (g.factorOut conflict.nonterminal conflict.earlier conflict.later shared)
  | .indirect =>
    let expandable (position : Nat) : Bool :=
      isExpandable heads ((g.alternatives conflict.nonterminal).getD position [])
    if expandIndirect then
      ([conflict.earlier, conflict.later].find? expandable).map (g.expandAt conflict.nonterminal)
    else none

/-- The conflicts in the order in which they are tried, the indirect ones last. -/
def conflictsToTry (g : Grammar) : List Conflict :=
  let found := g.conflicts
  found.filter (·.kind ≠ .indirect) ++ found.filter (·.kind = .indirect)

def factorStep? (g : Grammar) (expandIndirect : Bool) : Option Grammar :=
  let heads := g.heads
  g.conflictsToTry.findSome? (g.resolve? expandIndirect heads)

/-- Takes steps until no conflict is left, none can be resolved, or the budget is used up. -/
def factorSteps (expandIndirect : Bool) : (budget : Nat) → Grammar → FactorOutcome
  | 0, g => ⟨g, 0, g.isConflictFree⟩
  | budget + 1, g =>
    if g.conflicts.isEmpty then ⟨g, 0, true⟩
    else match g.factorStep? expandIndirect with
      | none => ⟨g, 0, g.isConflictFree⟩
      | some next =>
        let outcome := factorSteps expandIndirect budget next
        { outcome with steps := outcome.steps + 1 }

def factor (g : Grammar) (options : FactorOptions) : FactorOutcome :=
  factorSteps options.expandIndirect options.maxSteps g

end Grammar

end TopDownGrammar
