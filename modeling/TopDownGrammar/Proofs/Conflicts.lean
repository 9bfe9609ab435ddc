import TopDownGrammar.Factoring
import TopDownGrammar.Proofs.Rules

/-! What a factoring step starts from and what it does: a conflict names two positions of one
nonterminal and how their alternatives are alike, and each kind of conflict is resolved by one
rewrite of the alternatives of that nonterminal. -/

namespace TopDownGrammar

theorem mem_laterPairs {α : Type} {entries : List α} {a b : α} :
    (a, b) ∈ laterPairs entries ↔ ∃ i j : Nat, i < j ∧ entries[i]? = some a ∧ entries[j]? = some b := by
  induction entries with
  | nil => simp [laterPairs]
  | cons head rest ih =>
    simp only [laterPairs, List.mem_append, List.mem_map, Prod.mk.injEq, ih]
    constructor
    · intro found
      rcases found with ⟨other, member, rfl, rfl⟩ | ⟨i, j, below, first, second⟩
      · obtain ⟨j, found⟩ := List.mem_iff_getElem?.mp member
        exact ⟨0, j + 1, by omega, rfl, found⟩
      · exact ⟨i + 1, j + 1, by omega, first, second⟩
    · intro found
      obtain ⟨i, j, below, first, second⟩ := found
      obtain ⟨j, rfl⟩ : ∃ position, j = position + 1 := ⟨j - 1, by omega⟩
      cases i with
      | zero =>
        obtain rfl : head = a := Option.some.inj first
        exact Or.inl ⟨b, List.mem_of_getElem? second, rfl, rfl⟩
      | succ i => exact Or.inr ⟨i, j, by omega, first, second⟩

theorem mem_conflicts {first : SetFamily} {rule : Rule} {conflict : Conflict} :
    conflict ∈ rule.conflicts first ↔ ∃ (i j : Nat) (a b : Alternative), i < j ∧
      rule.alternatives[i]? = some a ∧ rule.alternatives[j]? = some b ∧
      (firstOfSequence first a ∩ firstOfSequence first b).isEmpty = false ∧
      conflict = ⟨rule.lhs, i, j, firstOfSequence first a ∩ firstOfSequence first b, .between a b⟩ := by
  let seen := rule.alternatives.zipIdx.map fun entry => (entry.2, entry.1, firstOfSequence first entry.1)
  have entry : ∀ (k : Nat) triple, seen[k]? = some triple ↔
      ∃ c, rule.alternatives[k]? = some c ∧ triple = (k, c, firstOfSequence first c) := by
    intro k triple
    cases found : rule.alternatives[k]? <;> simp [seen, found, eq_comm]
  simp only [Rule.conflicts, List.mem_filterMap]
  constructor
  · intro found
    obtain ⟨⟨one, two⟩, pair, kept⟩ := found
    obtain ⟨i, j, below, atI, atJ⟩ := mem_laterPairs.mp pair
    obtain ⟨a, foundA, rfl⟩ := (entry i one).mp atI
    obtain ⟨b, foundB, rfl⟩ := (entry j two).mp atJ
    simp only at kept
    split at kept
    · cases kept
    next shared => exact ⟨i, j, a, b, below, foundA, foundB, by simpa using shared, (Option.some.inj kept).symm⟩
  · intro found
    obtain ⟨i, j, a, b, below, foundA, foundB, shared, rfl⟩ := found
    refine ⟨_, mem_laterPairs.mpr ⟨i, j, below, (entry i _).mpr ⟨a, foundA, rfl⟩, (entry j _).mpr ⟨b, foundB, rfl⟩⟩, ?_⟩
    simp [shared]

theorem nonterminal_of_mem_conflicts {first : SetFamily} {rule : Rule} {conflict : Conflict}
    (member : conflict ∈ rule.conflicts first) : conflict.nonterminal = rule.lhs := by
  obtain ⟨_, _, _, _, _, _, _, _, rfl⟩ := mem_conflicts.mp member
  rfl

/-- Only the FIRST sets of the alternatives count for the conflicts among them. -/
theorem Rule.conflicts_congr {first second : SetFamily} {rule : Rule}
    (same : ∀ alternative ∈ rule.alternatives, firstOfSequence first alternative = firstOfSequence second alternative) :
    rule.conflicts first = rule.conflicts second := by
  have seen : ∀ entry ∈ rule.alternatives.zipIdx,
      (entry.2, entry.1, firstOfSequence first entry.1) = (entry.2, entry.1, firstOfSequence second entry.1) :=
    fun entry member => by rw [same entry.1 (List.fst_mem_of_mem_zipIdx member)]
  rw [Rule.conflicts, Rule.conflicts]
  exact congrArg _ (congrArg _ (List.map_congr_left seen))

theorem between_eq_duplicate {a b : Alternative} : ConflictKind.between a b = .duplicate ↔ a = b := by
  unfold ConflictKind.between
  split
  next same => simp [same]
  next different =>
    refine iff_of_false ?_ different
    split
    · split <;> simp
    · simp

theorem between_eq_direct {a b : Alternative} {shared : Symbol} (direct : ConflictKind.between a b = .direct shared) :
    shared ≠ .epsilon ∧ ∃ restA restB, a = shared :: restA ∧ b = shared :: restB := by
  unfold ConflictKind.between at direct
  split at direct
  · cases direct
  · split at direct
    · split at direct
      next together =>
        obtain ⟨rfl, visible⟩ := together
        obtain rfl := ConflictKind.direct.inj direct
        exact ⟨visible, _, _, rfl, rfl⟩
      · cases direct
    · cases direct

namespace Grammar

variable {g next : Grammar} {conflict : Conflict}

/-- The two alternatives that a conflict is about stand where it says. -/
structure Located (g : Grammar) (conflict : Conflict) (a b : Alternative) : Prop where
  ordered : conflict.earlier < conflict.later
  earlier : (g.alternatives conflict.nonterminal)[conflict.earlier]? = some a
  later : (g.alternatives conflict.nonterminal)[conflict.later]? = some b
  kind : conflict.kind = .between a b

/-- The conflicts are the pairs of alternatives whose FIRST sets have a symbol in common. -/
theorem mem_conflictsWith {first : SetFamily} (once : g.nonterminals.Nodup) :
    conflict ∈ g.conflictsWith first ↔ ∃ a b, g.Located conflict a b ∧
      conflict.lookahead = firstOfSequence first a ∩ firstOfSequence first b ∧ conflict.lookahead.isEmpty = false := by
  constructor
  · intro member
    obtain ⟨rule, present, inside⟩ := List.mem_flatMap.mp member
    obtain ⟨i, j, a, b, below, foundA, foundB, shared, rfl⟩ := mem_conflicts.mp inside
    rw [← alternatives_of_mem once present] at foundA foundB
    exact ⟨a, b, ⟨below, foundA, foundB, rfl⟩, rfl, shared⟩
  · intro found
    obtain ⟨a, b, ⟨below, foundA, foundB, kind⟩, lookahead, shared⟩ := found
    rcases g.alternatives_eq_or_nil conflict.nonterminal with ⟨rule, present, same, equal⟩ | ⟨_, none⟩
    · rw [equal] at foundA foundB
      rw [lookahead] at shared
      refine List.mem_flatMap.mpr ⟨rule, present, mem_conflicts.mpr ⟨_, _, a, b, below, foundA, foundB, shared, ?_⟩⟩
      rw [same, ← lookahead, ← kind]
    · rw [none] at foundA
      cases foundA

/-- The conflicts of one nonterminal are those among its alternatives, in their order. -/
theorem filter_conflictsWith (once : g.nonterminals.Nodup) (first : SetFamily) (name : Name) :
    (g.conflictsWith first).filter (·.nonterminal = name) = Rule.conflicts first ⟨name, g.alternatives name⟩ := by
  have whole : ∀ rule : Rule, rule.lhs = name → (rule.conflicts first).filter (·.nonterminal = name) = rule.conflicts first :=
    fun rule same => List.filter_eq_self.mpr fun conflict member => by simp [nonterminal_of_mem_conflicts member, same]
  have nothing : ∀ rule : Rule, rule.lhs ≠ name → (rule.conflicts first).filter (·.nonterminal = name) = [] :=
    fun rule other => List.filter_eq_nil_iff.mpr fun conflict member => by
      simp [nonterminal_of_mem_conflicts member, other]
  simp only [conflictsWith, alternatives, nonterminals, List.filter_flatMap] at once ⊢
  generalize g.rules = rules at once ⊢
  induction rules with
  | nil => rfl
  | cons rule rest ih =>
    obtain ⟨different, later⟩ := List.nodup_cons.mp once
    rw [List.flatMap_cons, List.find?_cons]
    by_cases here : rule.lhs = name
    · have others : rest.flatMap (fun rule => (rule.conflicts first).filter (·.nonterminal = name)) = [] := by
        refine List.flatMap_eq_nil_iff.mpr fun other member => nothing other fun same => ?_
        exact different (List.mem_map.mpr ⟨other, member, same.trans here.symm⟩)
      rw [whole rule here, others, List.append_nil, decide_eq_true here]
      subst here
      rfl
    · rw [nothing rule here, List.nil_append, ih later, decide_eq_false here]

theorem located_of_mem {first : SetFamily} (once : g.nonterminals.Nodup)
    (member : conflict ∈ g.conflictsWith first) : ∃ a b, g.Located conflict a b := by
  obtain ⟨a, b, located, _⟩ := (mem_conflictsWith once).mp member
  exact ⟨a, b, located⟩

/-- The three rewrites, each with what its conflict tells about the alternatives. The position
expanded is one of the two that are in conflict. -/
inductive Rewrites (g : Grammar) (conflict : Conflict) : Grammar → Prop where
  | merge {a : Alternative} (located : g.Located conflict a a) :
      Rewrites g conflict (g.dropAlternative conflict.nonterminal conflict.later)
  | factor {shared : Symbol} {restA restB : List Symbol} (visible : shared ≠ .epsilon)
      (located : g.Located conflict (shared :: restA) (shared :: restB)) :
      Rewrites g conflict (g.factorOut conflict.nonterminal conflict.earlier conflict.later shared)
  | expand {a b alternative : Alternative} {position other : Nat} (located : g.Located conflict a b)
      (sides : position = conflict.earlier ∧ other = conflict.later ∨
        position = conflict.later ∧ other = conflict.earlier)
      (found : (g.alternatives conflict.nonterminal)[position]? = some alternative)
      (expandable : isExpandable g.heads alternative = true) :
      Rewrites g conflict (g.expandAt conflict.nonterminal position)

theorem resolve_cases {expandIndirect : Bool} (resolved : g.resolve? expandIndirect g.heads conflict = some next) :
    (conflict.kind = .duplicate ∧ next = g.dropAlternative conflict.nonterminal conflict.later) ∨
      (∃ shared, conflict.kind = .direct shared ∧
        next = g.factorOut conflict.nonterminal conflict.earlier conflict.later shared) ∨
      (expandIndirect = true ∧ conflict.kind = .indirect ∧ ∃ position ∈ [conflict.earlier, conflict.later],
        isExpandable g.heads ((g.alternatives conflict.nonterminal).getD position []) = true ∧
          next = g.expandAt conflict.nonterminal position) := by
  unfold resolve? at resolved
  split at resolved
  next duplicate => exact Or.inl ⟨duplicate, (Option.some.inj resolved).symm⟩
  next shared direct => exact Or.inr (Or.inl ⟨shared, direct, (Option.some.inj resolved).symm⟩)
  next indirect =>
    split at resolved
    next allowed =>
      obtain ⟨position, search, rfl⟩ := Option.map_eq_some_iff.mp resolved
      have expandable := List.find?_some search
      exact Or.inr (Or.inr ⟨allowed, indirect, position, List.mem_of_find?_eq_some search, expandable, rfl⟩)
    next => cases resolved

theorem Located.fronts {a b : Alternative} {shared : Symbol} (located : g.Located conflict a b)
    (direct : conflict.kind = .direct shared) :
    shared ≠ .epsilon ∧ ∃ restA restB, restA ≠ restB ∧ a = shared :: restA ∧ b = shared :: restB := by
  have kind := located.kind.symm.trans direct
  obtain ⟨solid, restA, restB, rfl, rfl⟩ := between_eq_direct kind
  refine ⟨solid, restA, restB, ?_, rfl, rfl⟩
  rintro rfl
  cases (between_eq_duplicate.mpr rfl).symm.trans kind

/-- One of the two sides, with the alternative that stands there and the position of the other one. -/
theorem Located.side {a b : Alternative} {position : Nat} (located : g.Located conflict a b)
    (side : position ∈ [conflict.earlier, conflict.later]) :
    ∃ other alternative, (position = conflict.earlier ∧ other = conflict.later ∨
      position = conflict.later ∧ other = conflict.earlier) ∧
        (g.alternatives conflict.nonterminal)[position]? = some alternative ∧
          (g.alternatives conflict.nonterminal).getD position [] = alternative := by
  simp only [List.mem_cons, List.not_mem_nil, or_false] at side
  rcases side with rfl | rfl
  · exact ⟨_, a, Or.inl ⟨rfl, rfl⟩, located.earlier, by simp [List.getD_eq_getElem?_getD, located.earlier]⟩
  · exact ⟨_, b, Or.inr ⟨rfl, rfl⟩, located.later, by simp [List.getD_eq_getElem?_getD, located.later]⟩

theorem rewrites_of_resolve {expandIndirect : Bool} {a b : Alternative} (located : g.Located conflict a b)
    (resolved : g.resolve? expandIndirect g.heads conflict = some next) : g.Rewrites conflict next := by
  rcases resolve_cases resolved with ⟨duplicate, rfl⟩ | ⟨shared, direct, rfl⟩ | ⟨_, _, position, side, expandable, rfl⟩
  · obtain rfl := between_eq_duplicate.mp (located.kind.symm.trans duplicate)
    exact .merge located
  · obtain ⟨visible, restA, restB, _, rfl, rfl⟩ := located.fronts direct
    exact .factor visible located
  · obtain ⟨other, alternative, sides, found, rfl⟩ := located.side side
    exact .expand located sides found expandable

theorem mem_conflictsToTry : conflict ∈ g.conflictsToTry ↔ conflict ∈ g.conflicts := by
  simp only [conflictsToTry, List.mem_append, List.mem_filter, decide_eq_true_eq]
  constructor
  · rintro (⟨member, _⟩ | ⟨member, _⟩) <;> exact member
  · intro member
    by_cases indirect : conflict.kind = .indirect
    · exact Or.inr ⟨member, indirect⟩
    · exact Or.inl ⟨member, indirect⟩

theorem rewrites_of_factorStep {expandIndirect : Bool} (once : g.nonterminals.Nodup)
    (stepped : g.factorStep? expandIndirect = some next) : ∃ conflict ∈ g.conflicts, g.Rewrites conflict next := by
  obtain ⟨conflict, member, resolved⟩ := List.exists_of_findSome?_eq_some stepped
  have found := mem_conflictsToTry.mp member
  obtain ⟨a, b, located⟩ := located_of_mem once found
  exact ⟨conflict, found, rewrites_of_resolve located resolved⟩

/-! Runs of steps. -/

theorem factorSteps_of_stuck {expandIndirect : Bool} (stuck : g.factorStep? expandIndirect = none) (budget : Nat) :
    factorSteps expandIndirect budget g = ⟨g, 0, g.isConflictFree⟩ := by
  cases budget with
  | zero => rfl
  | succ budget =>
    simp only [factorSteps, stuck]
    split
    next free => exact congrArg (FactorOutcome.mk g 0) free.symm
    next => rfl

theorem factorSteps_of_step {expandIndirect : Bool} (stepped : g.factorStep? expandIndirect = some next) (budget : Nat) :
    factorSteps expandIndirect (budget + 1) g =
      ⟨(factorSteps expandIndirect budget next).grammar, (factorSteps expandIndirect budget next).steps + 1,
        (factorSteps expandIndirect budget next).conflictFree⟩ := by
  have left : ¬g.conflicts.isEmpty = true := by
    intro free
    simp [factorStep?, conflictsToTry, List.isEmpty_iff.mp free] at stepped
  simp only [factorSteps, stepped, if_neg left]

/-- A run is over where its budget is used up or no step can be taken, and goes on with less of the budget elsewhere. -/
theorem steps_induction (expandIndirect : Bool) {motive : Nat → Grammar → Prop} (spent : ∀ g, motive 0 g)
    (stuck : ∀ budget g, g.factorStep? expandIndirect = none → motive (budget + 1) g)
    (step : ∀ budget g next, g.factorStep? expandIndirect = some next → motive budget next → motive (budget + 1) g)
    (budget : Nat) (g : Grammar) : motive budget g := by
  induction budget generalizing g with
  | zero => exact spent g
  | succ budget ih =>
    cases stepped : g.factorStep? expandIndirect with
    | none => exact stuck budget g stepped
    | some next => exact step budget g next stepped (ih next)

end Grammar

end TopDownGrammar
