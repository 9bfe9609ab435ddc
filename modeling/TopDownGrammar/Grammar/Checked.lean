import TopDownGrammar.Grammar.Basic

/-! Grammars from productions made by hand, whose symbols have to be checked first, and what every grammar keeps to that
was built from checked productions or read from text. -/

namespace TopDownGrammar

/-- A production whose left-hand side is a nonterminal and whose symbols can all stand in
one. The left-hand side is looked at first, then the right-hand side from left to right. -/
def checkProduction (lhs : Symbol) (rhs : List Symbol) : Except SymbolError Production := do
  let name ← lhs.nameOf
  rhs.forM Symbol.check
  return ⟨name, written rhs⟩

def Production.unchecked (production : Production) : Symbol × List Symbol :=
  (.nonterminal production.lhs, production.rhs)

theorem check_ne_endOfInput {symbol : Symbol} (checked : symbol.check = .ok ()) : symbol ≠ .endOfInput := by
  intro same
  subst same
  cases checked

/-- Refuses the first symbol that is out of place, beginning with the start. -/
def Grammar.build (start : Symbol) (productions : List (Symbol × List Symbol)) : Except SymbolError Grammar := do
  let name ← start.nameOf
  let checked ← productions.mapM fun (lhs, rhs) => checkProduction lhs rhs
  return .ofProductions name checked

namespace Grammar

structure WellFormed (g : Grammar) : Prop where
  start : isName g.start = true
  names : ∀ rule ∈ g.rules, isName rule.lhs = true
  symbols : ∀ rule ∈ g.rules, ∀ alternative ∈ rule.alternatives, ∀ symbol ∈ alternative, symbol.check = .ok ()
  nonempty : ∀ rule ∈ g.rules, ∀ alternative ∈ rule.alternatives, alternative ≠ []
  owned : ∀ rule ∈ g.rules, rule.alternatives ≠ []
  once : g.nonterminals.Nodup

theorem wellFormed_iff {g : Grammar} : g.WellFormed ↔
    isName g.start = true ∧ (∀ rule ∈ g.rules, isName rule.lhs = true ∧ rule.alternatives ≠ [] ∧
      ∀ alternative ∈ rule.alternatives, alternative ≠ [] ∧ ∀ symbol ∈ alternative, symbol.check = .ok ()) ∧
    g.nonterminals.Nodup := by
  constructor
  · intro found
    obtain ⟨start, names, symbols, nonempty, owned, once⟩ := found
    exact ⟨start, fun rule member => ⟨names rule member, owned rule member, fun alternative inside =>
      ⟨nonempty rule member alternative inside, symbols rule member alternative inside⟩⟩, once⟩
  · intro found
    obtain ⟨start, rules, once⟩ := found
    exact ⟨start, fun rule member => (rules rule member).1,
      fun rule member alternative inside => ((rules rule member).2.2 alternative inside).2,
      fun rule member alternative inside => ((rules rule member).2.2 alternative inside).1,
      fun rule member => (rules rule member).2.1, once⟩

/-- What well-formedness asks of one production. -/
structure Admissible (production : Production) : Prop where
  lhs : isName production.lhs = true
  symbols : ∀ symbol ∈ production.rhs, symbol.check = .ok ()
  nonempty : production.rhs ≠ []

end Grammar

end TopDownGrammar
