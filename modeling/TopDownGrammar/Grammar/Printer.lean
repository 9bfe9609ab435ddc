import TopDownGrammar.Grammar.Basic

/-! The text of a grammar, one line `A -> x y | z` for each nonterminal. The line of the start
comes first, because a reader takes the start from the first line. -/

namespace TopDownGrammar

def Rule.text (rule : Rule) : String :=
  let alternative (symbols : Alternative) : String :=
    String.join (symbols.map fun symbol => " " ++ symbol.text)
  rule.lhs ++ " ->" ++ " |".intercalate (rule.alternatives.map alternative)

def Grammar.text (g : Grammar) : String :=
  "\n".intercalate ((g.rules.filter (·.lhs = g.start) ++ g.rules.filter (·.lhs ≠ g.start)).map Rule.text)

/-! The text as characters. -/

variable {symbols : List Symbol} {alternatives : List Alternative} {c : Char}

/-- The text of an alternative, each symbol behind a blank. -/
def spaced (symbols : List Symbol) : List Char :=
  symbols.flatMap fun symbol => ' ' :: symbol.text.toList

/-- The text of alternatives, which is what stands behind the arrow of their rule. -/
def barred (alternatives : List Alternative) : List Char :=
  [' ', '|'].intercalate (alternatives.map spaced)

theorem toList_text (rule : Rule) :
    rule.text.toList = (rule.lhs.toList ++ [' ']) ++ '-' :: '>' :: barred rule.alternatives := by
  have parts : (rule.alternatives.map fun symbols => String.join (symbols.map fun symbol => " " ++ symbol.text)).map
      String.toList = rule.alternatives.map spaced := by
    rw [List.map_map]
    apply List.map_congr_left
    intro symbols _
    simp [spaced, String.toList_join, List.flatMap_map]
  simp [Rule.text, barred, String.toList_intercalate, ← parts]

theorem barred_cons_cons (first second : Alternative) (rest : List Alternative) :
    barred (first :: second :: rest) = (spaced first ++ [' ']) ++ '|' :: barred (second :: rest) := by
  simp [barred, List.intercalate_cons_cons]

theorem bar_mem_spaced : '|' ∈ spaced symbols ↔ ∃ symbol ∈ symbols, '|' ∈ symbol.text.toList := by
  simp [spaced]

theorem mem_barred {c : Char} (member : c ∈ barred alternatives) :
    c = ' ' ∨ c = '|' ∨ ∃ alternative ∈ alternatives, ∃ symbol ∈ alternative, c ∈ symbol.text.toList := by
  have inSpaced : ∀ symbols, c ∈ spaced symbols → c = ' ' ∨ ∃ symbol ∈ symbols, c ∈ symbol.text.toList := by
    intro symbols inside
    obtain ⟨symbol, present, here⟩ := List.mem_flatMap.mp inside
    exact (List.mem_cons.mp here).imp_right fun later => ⟨symbol, present, later⟩
  induction alternatives with
  | nil => cases member
  | cons first rest ih =>
    have own : c ∈ spaced first → c = ' ' ∨ c = '|' ∨
        ∃ alternative ∈ first :: rest, ∃ symbol ∈ alternative, c ∈ symbol.text.toList := by
      intro inside
      exact (inSpaced first inside).imp_right fun found => Or.inr ⟨first, List.mem_cons_self, found⟩
    cases rest with
    | nil => exact own (by simpa [barred] using member)
    | cons second rest =>
      rw [barred_cons_cons, List.append_assoc] at member
      rcases List.mem_append.mp member with inside | later
      · exact own inside
      · rcases List.mem_cons.mp later with rfl | later
        · exact Or.inl rfl
        · rcases List.mem_cons.mp later with rfl | later
          · exact Or.inr (Or.inl rfl)
          · obtain blank | bar | ⟨alternative, present, found⟩ := ih later
            · exact Or.inl blank
            · exact Or.inr (Or.inl bar)
            · exact Or.inr (Or.inr ⟨alternative, List.mem_cons_of_mem _ present, found⟩)

end TopDownGrammar
