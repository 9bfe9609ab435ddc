import TopDownGrammar.SymbolSet

/-! Context-free grammars. The alternatives of a nonterminal stand together, in the order in
which they were given, and the nonterminals in the order in which they first owned one. Both
orders are shown by everything that lists a grammar. -/

namespace TopDownGrammar

/-- A right-hand side. The empty string is written `[.epsilon]`, never as no symbols. -/
abbrev Alternative := List Symbol

def written (symbols : List Symbol) : Alternative :=
  if symbols.isEmpty then [.epsilon] else symbols

/-- The symbols of a sequence that stand for more than the empty string. -/
def visible (symbols : List Symbol) : List Symbol :=
  symbols.filter (!·.isEpsilon)

def compact (symbols : List Symbol) : Alternative :=
  written (visible symbols)

@[simp] theorem visible_nil : visible [] = [] := rfl

@[simp] theorem visible_append (first second : List Symbol) :
    visible (first ++ second) = visible first ++ visible second := List.filter_append ..

@[simp] theorem visible_epsilon (rest : List Symbol) : visible (.epsilon :: rest) = visible rest := rfl

@[simp] theorem visible_nonterminal (name : Name) (rest : List Symbol) :
    visible (.nonterminal name :: rest) = .nonterminal name :: visible rest := rfl

theorem visible_cons {symbol : Symbol} (solid : symbol ≠ .epsilon) (rest : List Symbol) :
    visible (symbol :: rest) = symbol :: visible rest := by
  cases symbol with
  | epsilon => exact absurd rfl solid
  | _ => rfl

theorem mem_visible {symbols : List Symbol} {symbol : Symbol} :
    symbol ∈ visible symbols ↔ symbol ∈ symbols ∧ symbol ≠ .epsilon := by
  cases symbol <;> simp [visible, Symbol.isEpsilon]

theorem epsilon_not_mem_visible (symbols : List Symbol) : .epsilon ∉ visible symbols := by
  simp [mem_visible]

theorem visible_of_plain {symbols : List Symbol} (plain : .epsilon ∉ symbols) : visible symbols = symbols := by
  apply List.filter_eq_self.mpr
  intro symbol member
  cases symbol with
  | epsilon => exact absurd member plain
  | _ => rfl

@[simp] theorem visible_visible (symbols : List Symbol) : visible (visible symbols) = visible symbols :=
  visible_of_plain (epsilon_not_mem_visible symbols)

theorem mem_written {symbols : List Symbol} {symbol : Symbol} (member : symbol ∈ written symbols) :
    symbol = .epsilon ∨ symbol ∈ symbols := by
  unfold written at member
  split at member
  · exact Or.inl (List.mem_singleton.mp member)
  · exact Or.inr member

theorem written_ne_nil (symbols : List Symbol) : written symbols ≠ [] := by
  unfold written
  split
  · simp
  next nonempty => simpa using nonempty

@[simp] theorem visible_written (symbols : List Symbol) : visible (written symbols) = visible symbols := by
  unfold written
  split
  next empty => simp [List.isEmpty_iff.mp empty]
  next => rfl

@[simp] theorem visible_compact (symbols : List Symbol) : visible (compact symbols) = visible symbols := by
  rw [compact, visible_written, visible_of_plain (epsilon_not_mem_visible symbols)]

theorem compact_eq_or (symbols : List Symbol) : compact symbols = [.epsilon] ∨ compact symbols = visible symbols := by
  unfold compact written
  split
  · exact Or.inl rfl
  · exact Or.inr rfl

def isUnit : Alternative → Bool
  | [.nonterminal _] => true
  | _ => false

structure Production where
  lhs : Name
  rhs : Alternative
deriving DecidableEq, Repr

structure Rule where
  lhs : Name
  alternatives : List Alternative
deriving DecidableEq, Repr

def Rule.productions (rule : Rule) : List Production :=
  rule.alternatives.map fun alternative => ⟨rule.lhs, alternative⟩

/-- The start need not own a rule. -/
structure Grammar where
  start : Name
  rules : List Rule
deriving DecidableEq, Repr

/-- The entries of a list without their later repetitions. -/
def distinct [DecidableEq α] : List α → List α
  | [] => []
  | head :: rest => head :: (distinct rest).filter (· ≠ head)

theorem mem_distinct [DecidableEq α] {entries : List α} {entry : α} :
    entry ∈ distinct entries ↔ entry ∈ entries := by
  induction entries with
  | nil => simp [distinct]
  | cons head rest ih =>
    by_cases same : entry = head <;> simp [distinct, ih, same]

theorem nodup_distinct [DecidableEq α] (entries : List α) : (distinct entries).Nodup := by
  induction entries with
  | nil => simp [distinct]
  | cons head rest ih => exact List.nodup_cons.2 ⟨by simp, ih.filter _⟩

/-- Brings the productions of each left-hand side together. -/
def group (productions : List Production) : List Rule :=
  (distinct (productions.map (·.lhs))).map fun name =>
    ⟨name, (productions.filter (·.lhs = name)).map (·.rhs)⟩

namespace Grammar

def ofProductions (start : Name) (productions : List Production) : Grammar :=
  ⟨start, group productions⟩

/-- The nonterminals that own an alternative. -/
def nonterminals (g : Grammar) : List Name :=
  g.rules.map (·.lhs)

def owns (g : Grammar) (name : Name) : Bool :=
  g.rules.any (·.lhs = name)

theorem owns_iff {g : Grammar} {name : Name} : g.owns name = true ↔ name ∈ g.nonterminals := by
  simp [owns, nonterminals]

/-- A nonterminal without rules has no alternatives. -/
def alternatives (g : Grammar) (name : Name) : List Alternative :=
  match g.rules.find? (·.lhs = name) with
  | some rule => rule.alternatives
  | none => []

theorem nonterminals_ofProductions (start : Name) (productions : List Production) :
    (ofProductions start productions).nonterminals = distinct (productions.map (·.lhs)) := by
  simp [nonterminals, ofProductions, group, Function.comp_def]

theorem alternatives_ofProductions (start : Name) (productions : List Production) (name : Name) :
    (ofProductions start productions).alternatives name =
      (productions.filter (·.lhs = name)).map (·.rhs) := by
  simp only [alternatives, ofProductions, group, List.find?_map, Function.comp_def]
  cases search : (distinct (productions.map (·.lhs))).find? (fun other => decide (other = name)) with
  | some other =>
    have same : other = name := by simpa using List.find?_some search
    simp [same]
  | none =>
    have absent := List.find?_eq_none.1 search
    simp only [mem_distinct, List.mem_map, decide_eq_true_eq, forall_exists_index, and_imp] at absent
    simp only [Option.map_none]
    refine (List.map_eq_nil_iff.2 (List.filter_eq_nil_iff.2 fun production present same => ?_)).symm
    exact absent _ production present rfl (of_decide_eq_true same)

def ownsSymbol (g : Grammar) : Symbol → Bool
  | .nonterminal name => g.owns name
  | _ => false

/-- What can take the place of a symbol. Only nonterminals are ever replaced. -/
def expansions (g : Grammar) : Symbol → List Alternative
  | .nonterminal name => g.alternatives name
  | _ => []

def productions (g : Grammar) : List Production :=
  g.rules.flatMap Rule.productions

theorem lhs_mem_nonterminals {g : Grammar} {production : Production} (member : production ∈ g.productions) :
    production.lhs ∈ g.nonterminals := by
  obtain ⟨rule, present, inside⟩ := List.mem_flatMap.1 member
  obtain ⟨_, _, rfl⟩ := List.mem_map.1 inside
  exact List.mem_map.2 ⟨rule, present, rfl⟩

def occurrences (g : Grammar) : List Symbol :=
  g.productions.flatMap (·.rhs)

def terminals (g : Grammar) : List Symbol :=
  distinct (g.occurrences.filter Symbol.isTerminal)

def symbols (g : Grammar) : List Symbol :=
  .nonterminal g.start :: g.productions.flatMap fun production => .nonterminal production.lhs :: production.rhs

/-- The name `base` followed by the least positive number that makes it new to the grammar.
One of the numbers tried is free because there is one more of them than symbols. -/
def freshName (g : Grammar) (base : String) : Name :=
  let used := g.symbols
  let free (number : Nat) : Bool := !used.contains (.nonterminal (base ++ number.repr))
  base ++ (((List.range' 1 (used.length + 1)).find? free).getD 0).repr

/-- Puts `alternatives` in the place of those that a nonterminal owns. One that is left with
none is no longer listed. -/
def replaceAlternatives (g : Grammar) (name : Name) (alternatives : List Alternative) : Grammar :=
  let replaced := g.rules.map fun rule => if rule.lhs = name then ⟨name, alternatives⟩ else rule
  ⟨g.start, replaced.filter (!·.alternatives.isEmpty)⟩

/-- The same start, and the same alternatives in the same order for every nonterminal. The
order of the nonterminals does not count. -/
def agrees (g h : Grammar) : Bool :=
  g.start = h.start && g.rules.length = h.rules.length &&
    g.rules.all fun rule => h.owns rule.lhs && h.alternatives rule.lhs = rule.alternatives

end Grammar

end TopDownGrammar
