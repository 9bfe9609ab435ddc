import TopDownGrammar.Closure

/-! What a parser sees that looks at one symbol. FIRST sets hold the terminals that the strings of a nonterminal begin
with, and `.epsilon` when the empty string is one of them. FOLLOW sets hold the terminals that can stand right behind a
nonterminal, and `.endOfInput` when it can stand at the end. Head sets hold the nonterminals that can come to stand in
front when a nonterminal is expanded, and one whose own set holds it is left recursive. -/

namespace TopDownGrammar

/-- The FIRST set of a sequence, given those of the nonterminals. A nonterminal without a set
derives nothing, so what stands behind it does not count. -/
def firstOfSequence (first : SetFamily) : List Symbol → SymbolSet
  | [] => {.epsilon}
  | .epsilon :: rest => firstOfSequence first rest
  | .nonterminal name :: rest =>
    match first.get? name with
    | none => ∅
    | some set => if .epsilon ∈ set then set.erase .epsilon ∪ firstOfSequence first rest else set
  | symbol :: _ => {symbol}

/-- What the occurrences of `name` in a right-hand side give to its FOLLOW set: what the symbols
behind an occurrence begin with, and what follows the left-hand side, `outer`, when they can
vanish. -/
def followers (first : SetFamily) (name : Name) (outer : SymbolSet) : List Symbol → SymbolSet
  | [] => ∅
  | symbol :: rest =>
    if symbol = .nonterminal name then
      let behind := firstOfSequence first rest
      let here := if .epsilon ∈ behind then behind.erase .epsilon ∪ outer else behind
      here ∪ followers first name outer rest
    else followers first name outer rest

/-- The nonterminals that a sequence can begin with, given those of each nonterminal, and
`.epsilon` when all its symbols can vanish. -/
def headsOf (heads : SetFamily) : List Symbol → SymbolSet
  | [] => {.epsilon}
  | .epsilon :: rest => headsOf heads rest
  | .nonterminal name :: rest =>
    match heads.get? name with
    | none => {.nonterminal name}
    | some set =>
      let behind := if .epsilon ∈ set then set.erase .epsilon ∪ headsOf heads rest else set
      behind.insert (.nonterminal name)
  | _ :: _ => ∅

/-- An alternative with `.epsilon` in front gives `.epsilon` to the set whatever stands behind. -/
def alternativeHeads (heads : SetFamily) (alternative : Alternative) : SymbolSet :=
  if alternative.head? = some .epsilon then (headsOf heads alternative).insert .epsilon
  else headsOf heads alternative

namespace Grammar

/-- Adds to the set of each nonterminal what its alternatives begin with. -/
def growFirst (g : Grammar) (first : SetFamily) : SetFamily :=
  .tabulate g.nonterminals fun name =>
    (g.alternatives name).foldl (fun set alternative => set ∪ firstOfSequence first alternative) (first.get name)

/-- The sets hold terminals of the grammar and `.epsilon` only, which bounds their growth. -/
def first (g : Grammar) : SetFamily :=
  settle g.growFirst (g.rules.length * (g.occurrences.length + 1)) (.tabulate g.nonterminals fun _ => ∅)

/-- The nonterminals with a FOLLOW set: the start has one even if it owns no rule. -/
def followKeys (g : Grammar) : List Name :=
  if g.owns g.start then g.nonterminals else g.nonterminals ++ [g.start]

def growFollow (g : Grammar) (first follow : SetFamily) : SetFamily :=
  .tabulate g.followKeys fun name =>
    g.productions.foldl (fun set production =>
      set ∪ followers first name (follow.get production.lhs) production.rhs) (follow.get name)

/-- The FOLLOW sets that belong to the given FIRST sets, whatever these hold. -/
def followWith (g : Grammar) (first : SetFamily) : SetFamily :=
  settle (g.growFollow first)
    (g.followKeys.length * (g.occurrences.length + first.members.length + 1))
    (.tabulate g.followKeys fun name => if name = g.start then {.endOfInput} else ∅)

def follow (g : Grammar) : SetFamily :=
  g.followWith g.first

def growHeads (g : Grammar) (heads : SetFamily) : SetFamily :=
  .tabulate g.nonterminals fun name =>
    (g.alternatives name).foldl (fun set alternative => set ∪ alternativeHeads heads alternative) (heads.get name)

def heads (g : Grammar) : SetFamily :=
  settle g.growHeads (g.rules.length * (g.occurrences.length + 1)) (.tabulate g.nonterminals fun _ => ∅)

end Grammar

end TopDownGrammar
