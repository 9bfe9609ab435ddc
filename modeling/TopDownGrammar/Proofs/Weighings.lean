import Mathlib.Algebra.GroupWithZero.Nat
import Mathlib.Algebra.Order.BigOperators.Group.List
import Mathlib.Algebra.Order.Group.Nat
import Mathlib.Data.List.Perm.Basic
import TopDownGrammar.Proofs.Rules

/-! Costs of sequences. Every symbol takes the cost of what stands behind it to the cost with the symbol in
front, and a nonterminal costs at least what its alternatives cost together, each of them with a fee. A
symbol with anything behind it has a fee so high that it is cheaper to pay for it once than twice. -/

namespace TopDownGrammar

/-- A cost that grows with what is behind, and that costs no more at a sum and `extra` than it does at both
summands, up to `paid`. -/
structure Splits (extra paid : Nat) (cost : Nat → Nat) : Prop where
  mono : Monotone cost
  grows : ∀ behind, behind ≤ cost behind
  split : ∀ first second, cost (first + second + extra) ≤ cost first + cost second + paid

namespace Splits

variable {extra paid fee less : Nat} {cost outer inner : Nat → Nat}

theorem shift (amount : Nat) (enough : extra ≤ amount + paid) : Splits extra paid (· + amount) where
  mono _ _ le := Nat.add_le_add_right le amount
  grows _ := Nat.le_add_right _ _
  split _ _ := by omega

theorem comp (outside : Splits fee fee outer) (inside : Splits fee fee inner) :
    Splits fee fee fun behind => outer (inner behind) where
  mono := outside.mono.comp inside.mono
  grows behind := (inside.grows behind).trans (outside.grows _)
  split first second := (outside.mono (inside.split first second)).trans (outside.split _ _)

theorem weaken (splits : Splits fee 0 cost) (below : less ≤ fee) : Splits less 0 cost where
  mono := splits.mono
  grows := splits.grows
  split first second := (splits.mono (by omega)).trans (splits.split first second)

theorem credit (splits : Splits fee 0 cost) : Splits fee fee cost where
  mono := splits.mono
  grows := splits.grows
  split first second := (splits.split first second).trans (Nat.le_add_right _ _)

theorem charge (splits : Splits fee fee cost) : Splits fee 0 fun behind => cost behind + fee where
  mono _ _ le := Nat.add_le_add_right (splits.mono le) fee
  grows behind := (splits.grows behind).trans (Nat.le_add_right _ _)
  split first second := by
    have both := splits.split first second
    omega

theorem add (first : Splits fee 0 outer) (second : Splits fee 0 inner) :
    Splits fee 0 fun behind => outer behind + inner behind where
  mono _ _ le := Nat.add_le_add (first.mono le) (second.mono le)
  grows behind := (first.grows behind).trans (Nat.le_add_right _ _)
  split one two := by
    have left := first.split one two
    have right := second.split one two
    omega

end Splits

/-- What nonterminals cost, the fee for each alternative of a nonterminal, and the cost of a terminal. -/
structure Weighing where
  cost : Name → Nat → Nat
  fee : Name → Nat
  terminal : Nat

namespace Weighing

variable {w : Weighing} {owned : Name → List Alternative} {name other : Name} {symbol : Symbol}
  {symbols first second : List Symbol} {alternatives : List Alternative} {fee behind : Nat} {cost : Nat → Nat}

def symbolFee (w : Weighing) : Symbol → Nat
  | .nonterminal name => w.fee name
  | _ => w.terminal

def symbolCost (w : Weighing) : Symbol → Nat → Nat
  | .nonterminal name, behind => w.cost name behind
  | .epsilon, behind => behind + 1
  | _, behind => behind + w.terminal

def sequenceCost (w : Weighing) (symbols : List Symbol) (behind : Nat) : Nat :=
  symbols.foldr w.symbolCost behind

def total (w : Weighing) (fee : Nat) (alternatives : List Alternative) (behind : Nat) : Nat :=
  (alternatives.map fun alternative => w.sequenceCost alternative behind + fee).sum

/-- The symbols of a sequence have the fees that its owner asks for. -/
structure Carries (w : Weighing) (fee : Nat) (symbols : List Symbol) : Prop where
  all : ∀ symbol ∈ symbols, fee ≤ w.symbolFee symbol
  inner : symbols.Pairwise fun symbol _ => 4 * fee ≤ w.symbolFee symbol

/-- The weighing is right for the alternatives that nonterminals own. -/
structure Weighs (w : Weighing) (owned : Name → List Alternative) : Prop where
  positive : ∀ name, 1 ≤ w.fee name
  bounded : ∀ name, 4 * w.fee name ≤ w.terminal
  splits : ∀ name, Splits (w.fee name) 0 (w.cost name)
  carries : ∀ name, ∀ alternative ∈ owned name, w.Carries (w.fee name) alternative
  covers : ∀ name behind, w.total (w.fee name) (owned name) behind ≤ w.cost name behind

/-! Sequences. -/

@[simp] theorem sequenceCost_cons :
    w.sequenceCost (symbol :: symbols) behind = w.symbolCost symbol (w.sequenceCost symbols behind) := rfl

@[simp] theorem sequenceCost_append :
    w.sequenceCost (first ++ second) behind = w.sequenceCost first (w.sequenceCost second behind) :=
  List.foldr_append

theorem splits_symbol (splits : ∀ name, Splits (w.fee name) 0 (w.cost name)) (below : fee ≤ w.symbolFee symbol) :
    Splits fee fee (w.symbolCost symbol) := by
  cases symbol with
  | nonterminal name => exact ((splits name).weaken below).credit
  | epsilon => exact .shift _ (Nat.le_add_left _ _)
  | _ => exact .shift _ (Nat.le_add_left _ _)

/-- A symbol other than the empty string need not be paid for twice. -/
theorem splits_solid (splits : ∀ name, Splits (w.fee name) 0 (w.cost name)) (solid : symbol ≠ .epsilon)
    (below : fee ≤ w.symbolFee symbol) : Splits fee 0 (w.symbolCost symbol) := by
  cases symbol with
  | nonterminal name => exact (splits name).weaken below
  | epsilon => exact absurd rfl solid
  | _ => exact .shift _ below

theorem splits_sequence (splits : ∀ name, Splits (w.fee name) 0 (w.cost name))
    (below : ∀ symbol ∈ symbols, fee ≤ w.symbolFee symbol) : Splits fee fee (w.sequenceCost symbols) := by
  induction symbols with
  | nil => exact Splits.shift 0 (Nat.le_add_left _ _)
  | cons symbol rest ih =>
    exact (splits_symbol splits (below symbol List.mem_cons_self)).comp
      (ih fun other member => below other (List.mem_cons_of_mem _ member))

/-! All alternatives of a nonterminal. -/

theorem total_cons (alternative : Alternative) (rest : List Alternative) :
    w.total fee (alternative :: rest) behind = w.sequenceCost alternative behind + fee + w.total fee rest behind :=
  rfl

theorem total_append (first second : List Alternative) :
    w.total fee (first ++ second) behind = w.total fee first behind + w.total fee second behind := by
  simp [total]

theorem total_perm {first second : List Alternative} (perm : first.Perm second) :
    w.total fee first behind = w.total fee second behind :=
  (perm.map _).sum_eq

theorem total_sublist {first second : List Alternative} (sublist : first.Sublist second) :
    w.total fee first behind ≤ w.total fee second behind :=
  (sublist.map _).sum_le_sum fun _ _ => Nat.zero_le _

theorem splits_total (splits : ∀ name, Splits (w.fee name) 0 (w.cost name)) (some : alternatives ≠ [])
    (carries : ∀ alternative ∈ alternatives, w.Carries fee alternative) : Splits fee 0 (w.total fee alternatives) := by
  induction alternatives with
  | nil => exact absurd rfl some
  | cons alternative rest ih =>
    have head := (splits_sequence splits (carries alternative List.mem_cons_self).all).charge
    cases rest with
    | nil => exact head
    | cons next rest =>
      have tail := ih (by simp) fun other member => carries other (List.mem_cons_of_mem _ member)
      exact head.add tail

/-! Shorter sequences. -/

theorem sequenceCost_visible_le (splits : ∀ name, Splits (w.fee name) 0 (w.cost name)) (symbols : List Symbol)
    (behind : Nat) : w.sequenceCost (visible symbols) behind ≤ w.sequenceCost symbols behind := by
  induction symbols with
  | nil => exact Nat.le_refl _
  | cons symbol rest ih =>
    have mono := (splits_symbol splits (Nat.zero_le (w.symbolFee symbol))).mono
    cases symbol with
    | epsilon => exact ih.trans (Nat.le_add_right _ _)
    | _ => exact mono ih

theorem sequenceCost_compact_le (splits : ∀ name, Splits (w.fee name) 0 (w.cost name)) (symbols : List Symbol)
    (behind : Nat) : w.sequenceCost (compact symbols) behind ≤ w.sequenceCost symbols behind + 1 := by
  unfold compact written
  split
  · exact Nat.add_le_add_right ((splits_sequence splits fun _ _ => Nat.zero_le _).grows behind) 1
  · exact (sequenceCost_visible_le splits symbols behind).trans (Nat.le_add_right _ _)

/-- Leaving out empty strings costs nothing unless there was not even one. -/
theorem sequenceCost_compact_le_of_some (splits : ∀ name, Splits (w.fee name) 0 (w.cost name)) (some : symbols ≠ [])
    (behind : Nat) : w.sequenceCost (compact symbols) behind ≤ w.sequenceCost symbols behind := by
  unfold compact written
  split
  next empty =>
    obtain ⟨symbol, rest, rfl⟩ := List.exists_cons_of_ne_nil some
    have grows := (splits_sequence splits (fun _ _ => Nat.zero_le _ : ∀ symbol ∈ rest, 0 ≤ w.symbolFee symbol)).grows behind
    cases symbol with
    | epsilon => exact Nat.add_le_add_right grows 1
    | _ => cases empty
  · exact sequenceCost_visible_le splits symbols behind

theorem Carries.sublist (carries : w.Carries fee second) (sublist : first.Sublist second) : w.Carries fee first :=
  ⟨fun symbol member => carries.all symbol (sublist.subset member), carries.inner.sublist sublist⟩

theorem Carries.compacted (carries : w.Carries fee symbols) (bounded : fee ≤ w.terminal) :
    w.Carries fee (compact symbols) := by
  unfold compact written
  split
  · exact ⟨by simpa [symbolFee] using bounded, List.pairwise_singleton _ _⟩
  · exact carries.sublist List.filter_sublist

/-- What takes the place of a symbol asks for no more than the symbol did. -/
theorem Carries.replaced {less : Nat} {body rest : List Symbol} (carries : w.Carries less (.nonterminal name :: rest))
    (inside : w.Carries (w.fee name) body) : w.Carries less (body ++ rest) := by
  obtain ⟨ahead, later⟩ := List.pairwise_cons.mp carries.inner
  have below : less ≤ w.fee name := carries.all _ List.mem_cons_self
  refine ⟨fun symbol member => ?_, List.pairwise_append.mpr ⟨inside.inner.imp ?_, later, ?_⟩⟩
  · rcases List.mem_append.mp member with inBody | inRest
    · exact below.trans (inside.all symbol inBody)
    · exact carries.all symbol (List.mem_cons_of_mem _ inRest)
  · exact fun enough => (Nat.mul_le_mul_left 4 below).trans enough
  · exact fun symbol inBody other inRest => (ahead other inRest).trans (inside.all symbol inBody)

end Weighing

end TopDownGrammar
