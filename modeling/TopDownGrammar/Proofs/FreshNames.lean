import TopDownGrammar.Proofs.Rules
import TopDownGrammar.Proofs.SymbolTexts

/-! The name that a transform invents. Different numbers give different names, so among one more
number than there are symbols one is free, and the least free one is taken. -/

namespace TopDownGrammar.Grammar

variable {g : Grammar} {name : Name} {base : String}

private theorem repr_injective {m n : Nat} (same : m.repr = n.repr) : m = n := by
  have digits := congrArg (fun text : String => Nat.ofDigitChars 10 text.toList 0) same
  simpa only [Nat.toList_repr, Nat.ofDigitChars_ten_toDigits] using digits

theorem numbered_injective (base : String) {m n : Nat} (same : base ++ m.repr = base ++ n.repr) : m = n := by
  have letters := congrArg String.toList same
  simp only [String.toList_append] at letters
  exact repr_injective (String.toList_inj.mp (List.append_cancel_left letters))

private theorem some_number_free (g : Grammar) (base : String) :
    ∃ number ∈ List.range' 1 (g.symbols.length + 1), .nonterminal (base ++ number.repr) ∉ g.symbols := by
  refine Classical.byContradiction fun taken => ?_
  let candidates := (List.range' 1 (g.symbols.length + 1)).map fun number =>
    Symbol.nonterminal (base ++ number.repr)
  have distinct : candidates.Nodup := by
    refine List.Nodup.map ?_ List.nodup_range'
    intro m n same
    exact numbered_injective base (Symbol.nonterminal.inj same)
  have covered : candidates ⊆ g.symbols := by
    intro symbol member
    obtain ⟨number, listed, rfl⟩ := List.mem_map.mp member
    exact Classical.byContradiction fun free => taken ⟨number, listed, free⟩
  have bounded := distinct.length_le_of_subset covered
  simp only [candidates, List.length_map, List.length_range'] at bounded
  omega

/-- The number taken is positive and free, and every positive number before it is not. It is met after at most one
try more than there are symbols. -/
theorem freshName_number (g : Grammar) (base : String) :
    ∃ number, 0 < number ∧ number ≤ g.symbols.length + 1 ∧ g.freshName base = base ++ number.repr ∧
      .nonterminal (base ++ number.repr) ∉ g.symbols ∧
      ∀ smaller, 0 < smaller → smaller < number → .nonterminal (base ++ smaller.repr) ∈ g.symbols := by
  obtain ⟨candidate, listed, free⟩ := some_number_free g base
  let test (number : Nat) : Bool := !g.symbols.contains (.nonterminal (base ++ number.repr))
  cases search : (List.range' 1 (g.symbols.length + 1)).find? test with
  | none =>
    have refused := List.find?_eq_none.mp search candidate listed
    exact absurd (by simpa [test] using free) refused
  | some number =>
    obtain ⟨passed, inside, earlier⟩ := List.find?_range'_eq_some.mp search
    obtain ⟨positive, bounded⟩ := List.mem_range'_1.mp inside
    refine ⟨number, positive, by omega, ?_, by simpa [test] using passed, ?_⟩
    · change base ++ (((List.range' 1 (g.symbols.length + 1)).find? test).getD 0).repr = _
      rw [search]
      rfl
    · intro smaller above below
      simpa [test] using earlier smaller above below

theorem freshName_not_mem (g : Grammar) (base : String) : .nonterminal (g.freshName base) ∉ g.symbols := by
  obtain ⟨number, _, _, same, free, _⟩ := g.freshName_number base
  rw [same]
  exact free

theorem freshName_ne_start (g : Grammar) (base : String) : g.freshName base ≠ g.start := by
  intro same
  exact g.freshName_not_mem base (same ▸ List.mem_cons_self)

theorem freshName_not_listed (wellFormed : g.WellFormed) (base : String) : g.freshName base ∉ g.nonterminals :=
  fun listed => g.freshName_not_mem base (lhs_mem_symbols listed wellFormed.owned)

theorem ne_freshName (wellFormed : g.WellFormed) (listed : name ∈ g.nonterminals) (base : String) :
    name ≠ g.freshName base :=
  fun same => freshName_not_listed wellFormed base (same ▸ listed)

theorem freshName_not_mem_alternative (base : String) {alternative : Alternative}
    (owned : alternative ∈ g.alternatives name) : .nonterminal (g.freshName base) ∉ alternative :=
  fun present => g.freshName_not_mem base (mem_symbols_of_alternative owned present)

private theorem isName_numbered (named : isName base = true) (number : Nat) : isName (base ++ number.repr) = true := by
  unfold isName at named ⊢
  rw [String.toList_append, Nat.toList_repr]
  cases letters : base.toList with
  | nil => rw [letters] at named; cases named
  | cons letter digits =>
    simp only [letters, Bool.and_eq_true, List.all_eq_true, List.cons_append] at named ⊢
    refine ⟨named.1, ?_⟩
    intro digit member
    rcases List.mem_append.mp member with old | new
    · exact named.2 digit old
    · exact Nat.isDigit_of_mem_toDigits (by decide) (by decide) new

theorem isName_freshName (g : Grammar) (named : isName base = true) : isName (g.freshName base) = true := by
  obtain ⟨number, _, _, same, _⟩ := g.freshName_number base
  rw [same]
  exact isName_numbered named number

def Mentions (g : Grammar) (name : Name) : Prop :=
  name = g.start ∨ name ∈ g.nonterminals ∨ .nonterminal name ∈ g.occurrences

private theorem mentions_iff (wellFormed : g.WellFormed) : g.Mentions name ↔ .nonterminal name ∈ g.symbols := by
  constructor
  · rintro (rfl | listed | occurs)
    · exact List.mem_cons_self
    · exact lhs_mem_symbols listed wellFormed.owned
    · obtain ⟨production, present, inside⟩ := List.mem_flatMap.mp occurs
      exact List.mem_cons_of_mem _ (List.mem_flatMap.mpr ⟨production, present, List.mem_cons_of_mem _ inside⟩)
  · intro member
    rcases List.mem_cons.mp member with same | later
    · exact Or.inl (Symbol.nonterminal.inj same)
    · obtain ⟨production, present, inside⟩ := List.mem_flatMap.mp later
      rcases List.mem_cons.mp inside with same | occurs
      · exact Or.inr (Or.inl (Symbol.nonterminal.inj same ▸ lhs_mem_nonterminals present))
      · exact Or.inr (Or.inr (List.mem_flatMap.mpr ⟨production, present, occurs⟩))

/-- The name invented is the base with the least positive number behind it that the grammar does not have there
yet, and it is a name if the base is. The numbers are tried in order, and the search for it ends. -/
theorem freshName_least (wellFormed : g.WellFormed) (named : isName base = true) :
    ∃ number, 0 < number ∧ number ≤ g.symbols.length + 1 ∧ g.freshName base = base ++ number.repr ∧
      (Symbol.nonterminal (g.freshName base)).check = .ok () ∧ ¬g.Mentions (g.freshName base) ∧
      ∀ smaller, 0 < smaller → smaller < number → g.Mentions (base ++ smaller.repr) := by
  obtain ⟨number, positive, bounded, same, free, earlier⟩ := g.freshName_number base
  refine ⟨number, positive, bounded, same, ?_, ?_, ?_⟩
  · exact Symbol.check_nonterminal.mpr (isName_freshName g named)
  · rw [same, mentions_iff wellFormed]
    exact free
  · intro smaller above below
    exact (mentions_iff wellFormed).mpr (earlier smaller above below)

def crowdedNames : Grammar :=
  ⟨"S1", [⟨"S2", [[.nonterminal "S3", .terminal "s4"], [.epsilon]]⟩, ⟨"S11", [[.nonterminal "S", .nonterminal "S5"]]⟩]⟩

/-- `S1` is only the start and `S3` only on a right-hand side. `S11` is `S` with eleven and `S1` with one. -/
theorem crowdedNames_freshName :
    crowdedNames.WellFormed ∧ isName "S" = true ∧ isName "S1" = true ∧ crowdedNames.freshName "S" = "S4" ∧
      ¬crowdedNames.Mentions "S4" ∧ crowdedNames.Mentions "S3" ∧ ¬crowdedNames.Mentions "S12" := by
  have wellFormed : crowdedNames.WellFormed := by decide
  have answer : crowdedNames.freshName "S" = "S4" := by decide +kernel
  have other : crowdedNames.freshName "S1" = "S12" := by decide +kernel
  obtain ⟨number, _, _, same, _, free, earlier⟩ := freshName_least wellFormed (by decide : isName "S" = true)
  obtain ⟨_, _, _, _, _, freeOther, _⟩ := freshName_least wellFormed (by decide : isName "S1" = true)
  rw [answer] at same free
  rw [other] at freeOther
  obtain rfl : 4 = number := numbered_injective "S" same
  exact ⟨wellFormed, by decide, by decide, answer, free, earlier 3 (by decide) (by decide), freeOther⟩

end TopDownGrammar.Grammar
