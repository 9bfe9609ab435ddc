import TopDownGrammar.Grammar.Basic

/-! Least fixed points by repeated rounds, and the sets of symbols that are closed under the productions: the nonterminals
that derive a terminal string, those that derive the empty string, and the symbols met in derivations from the start. A
round only ever adds, so a value that can grow at most `bound` times is settled after that many rounds. -/

namespace TopDownGrammar

/-- Applies `round` until the value stays as it is, at most `bound` times. -/
def settle [DecidableEq α] (round : α → α) : (bound : Nat) → α → α
  | 0, value => value
  | bound + 1, value =>
    let next := round value
    if next = value then value else settle round bound next

theorem settle_keeps [DecidableEq α] {round : α → α} (holds : α → Prop)
    (kept : ∀ value, holds value → holds (round value)) {bound : Nat} {value : α} (initially : holds value) :
    holds (settle round bound value) := by
  induction bound generalizing value with
  | zero => exact initially
  | succ bound ih =>
    simp only [settle]
    split
    next => exact initially
    next => exact ih (kept value initially)

/-- A rank that every change raises and that `limit` caps leaves only so many rounds. -/
theorem round_settle [DecidableEq α] {round : α → α} (inside : α → Prop) (rank : α → Nat) {limit : Nat}
    (kept : ∀ value, inside value → inside (round value))
    (raised : ∀ value, inside value → round value ≠ value → rank value < rank (round value))
    (capped : ∀ value, inside value → rank value ≤ limit)
    {bound : Nat} {value : α} (initially : inside value) (enough : limit ≤ rank value + bound) :
    round (settle round bound value) = settle round bound value := by
  induction bound generalizing value with
  | zero =>
    refine Decidable.byContradiction fun moved => ?_
    have above := raised value initially moved
    have below := capped _ (kept value initially)
    simp only [settle] at *
    omega
  | succ bound ih =>
    simp only [settle]
    split
    next stays => exact stays
    next moved =>
      have above := raised value initially moved
      exact ih (kept value initially) (by omega)

/-- The least set that holds `seed` and all that `infer` draws from it. -/
def SymbolSet.saturate (infer : SymbolSet → List Symbol) (bound : Nat) (seed : SymbolSet) : SymbolSet :=
  settle (fun set => set.insertAll (infer set)) bound seed

def allProductive (productive : SymbolSet) (symbols : List Symbol) : Bool :=
  symbols.all fun symbol => !symbol.isNonterminal || symbol ∈ productive

/-- Every symbol of the sequence is the empty string or in the set. -/
def allNullable (nullable : SymbolSet) (symbols : List Symbol) : Bool :=
  symbols.all fun symbol => symbol.isEpsilon || symbol ∈ nullable

namespace Grammar

/-- The left-hand sides of the productions that pass a test on their right-hand sides. -/
def ownersOf (g : Grammar) (test : Alternative → Bool) : List Symbol :=
  (g.productions.filter (test ·.rhs)).map (.nonterminal ·.lhs)

def productive (g : Grammar) : SymbolSet :=
  .saturate (fun set => g.ownersOf (allProductive set)) g.rules.length ∅

def nullable (g : Grammar) : SymbolSet :=
  .saturate (fun set => g.ownersOf (allNullable set)) g.rules.length ∅

/-- The start is reachable even if it owns no rule. -/
def reachable (g : Grammar) : SymbolSet :=
  .saturate (fun set => (g.productions.filter (.nonterminal ·.lhs ∈ set)).flatMap (·.rhs))
    g.occurrences.length {.nonterminal g.start}

def isBarren (g : Grammar) : Bool :=
  .nonterminal g.start ∉ g.productive

end Grammar

end TopDownGrammar
