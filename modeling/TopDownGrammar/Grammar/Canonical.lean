import TopDownGrammar.Grammar.Basic

/-! The rules of a grammar in an order of their own, for comparing grammars that were written down in different orders.
Symbols, sequences of symbols and rules are each ordered totally, so that a sorted list is determined by its entries,
repetitions included. -/

namespace TopDownGrammar

/-- Ascending, repetitions kept. -/
def sortSequences (sequences : List (List Symbol)) : List (List Symbol) :=
  sequences.mergeSort fun a b => !decide (b < a)

def Rule.notAfter (first second : Rule) : Bool :=
  first.lhs < second.lhs ||
    (first.lhs = second.lhs && !decide (second.alternatives < first.alternatives))

def Rule.sorted (rule : Rule) : Rule :=
  { rule with alternatives := sortSequences rule.alternatives }

def Grammar.canonicalRules (g : Grammar) : List Rule :=
  (g.rules.map Rule.sorted).mergeSort Rule.notAfter

/-- Sorting by a total order brings two lists together if and only if one is a reordering of the other. -/
theorem mergeSort_eq_iff {α : Type} {le : α → α → Bool} (trans : ∀ a b c, le a b = true → le b c = true → le a c = true)
    (total : ∀ a b, (le a b || le b a) = true) (antisymm : ∀ a b, le a b = true → le b a = true → a = b)
    {first second : List α} : first.mergeSort le = second.mergeSort le ↔ first.Perm second := by
  have reordered := List.mergeSort_perm first le
  have other := List.mergeSort_perm second le
  constructor
  · intro same
    exact reordered.symm.trans (same ▸ other)
  · intro permuted
    have sorted := List.pairwise_mergeSort trans total
    exact List.Perm.eq_of_pairwise (fun a b _ _ => antisymm a b) (sorted first) (sorted second)
      (reordered.trans (permuted.trans other.symm))

section Sequences

variable {α : Type} [LT α] {a b c : List α}

private theorem not_decide_lt_iff [DecidableEq α] [DecidableLT α] : (!decide (b < a)) = true ↔ a ≤ b := by
  rw [Bool.not_eq_true', decide_eq_false_iff_not, List.not_lt]

/-- A total order of the entries makes one of the sequences, a shorter one before those that it begins. -/
theorem sequence_le_trans [Trans (fun a b : α => a < b) (fun a b : α => a < b) (fun a b : α => a < b)]
    [Std.Trichotomous fun a b : List α => a < b] (first : a ≤ b) (second : b ≤ c) : a ≤ c := by
  apply List.not_lt.mp
  intro below
  by_cases earlier : a < b
  · exact List.not_lt.mpr second (List.lt_trans below earlier)
  · exact List.not_lt.mpr second (Std.Trichotomous.trichotomous a b earlier (List.not_lt.mpr first) ▸ below)

end Sequences

variable {sequences others : List (List Symbol)} {first second : Rule}

theorem sortSequences_perm (sequences : List (List Symbol)) : (sortSequences sequences).Perm sequences :=
  List.mergeSort_perm _ _

private theorem sequences_trans (a b c : List Symbol) (first : (!decide (b < a)) = true)
    (second : (!decide (c < b)) = true) : (!decide (c < a)) = true :=
  not_decide_lt_iff.mpr (sequence_le_trans (not_decide_lt_iff.mp first) (not_decide_lt_iff.mp second))

private theorem sequences_total (a b : List Symbol) : (!decide (b < a) || !decide (a < b)) = true := by
  rw [Bool.or_eq_true, not_decide_lt_iff, not_decide_lt_iff]
  exact List.le_total a b

theorem sortSequences_eq_iff : sortSequences sequences = sortSequences others ↔ sequences.Perm others := by
  apply mergeSort_eq_iff sequences_trans sequences_total
  intro a b first second
  exact List.le_antisymm (not_decide_lt_iff.mp first) (not_decide_lt_iff.mp second)

theorem sortSequences_sorted (sequences : List (List Symbol)) : (sortSequences sequences).Pairwise (· ≤ ·) :=
  (List.pairwise_mergeSort sequences_trans sequences_total sequences).imp not_decide_lt_iff.mp

theorem sortSequences_idem (sequences : List (List Symbol)) :
    sortSequences (sortSequences sequences) = sortSequences sequences :=
  sortSequences_eq_iff.mpr (sortSequences_perm sequences)

theorem Rule.notAfter_iff : first.notAfter second = true ↔
    first.lhs < second.lhs ∨ first.lhs = second.lhs ∧ first.alternatives ≤ second.alternatives := by
  rw [notAfter, Bool.or_eq_true, Bool.and_eq_true, not_decide_lt_iff, decide_eq_true_eq, decide_eq_true_eq]

theorem Rule.notAfter_trans (first second third : Rule) (before : first.notAfter second = true)
    (after : second.notAfter third = true) : first.notAfter third = true := by
  rw [notAfter_iff] at before after ⊢
  rcases before with below | ⟨same, ordered⟩
  · rcases after with later | ⟨equal, _⟩
    · exact Or.inl (String.lt_trans below later)
    · exact Or.inl (equal ▸ below)
  · rcases after with later | ⟨equal, further⟩
    · exact Or.inl (same ▸ later)
    · exact Or.inr ⟨same.trans equal, sequence_le_trans ordered further⟩

theorem Rule.notAfter_total (first second : Rule) : (first.notAfter second || second.notAfter first) = true := by
  rw [Bool.or_eq_true, notAfter_iff, notAfter_iff]
  by_cases below : first.lhs < second.lhs
  · exact Or.inl (Or.inl below)
  · by_cases above : second.lhs < first.lhs
    · exact Or.inr (Or.inl above)
    · have same := Std.Trichotomous.trichotomous first.lhs second.lhs below above
      rcases List.le_total first.alternatives second.alternatives with ordered | ordered
      · exact Or.inl (Or.inr ⟨same, ordered⟩)
      · exact Or.inr (Or.inr ⟨same.symm, ordered⟩)

theorem Rule.notAfter_antisymm (first second : Rule) (before : first.notAfter second = true)
    (after : second.notAfter first = true) : first = second := by
  rw [notAfter_iff] at before after
  rcases before with below | ⟨same, ordered⟩
  · rcases after with above | ⟨same, _⟩
    · exact absurd (String.lt_trans below above) (String.lt_irrefl _)
    · exact absurd (same ▸ below) (String.lt_irrefl _)
  · rcases after with above | ⟨_, reversed⟩
    · exact absurd (same ▸ above) (String.lt_irrefl _)
    · cases first
      cases second
      exact Rule.mk.injEq _ _ _ _ ▸ ⟨same, List.le_antisymm ordered reversed⟩

end TopDownGrammar
