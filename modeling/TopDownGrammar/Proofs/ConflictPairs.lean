import TopDownGrammar.Proofs.Conflicts
import TopDownGrammar.Proofs.FirstSets

/-! The conflicts of a grammar are exactly the pairs of alternatives that both derive the empty string or derive
sequences which begin with the same terminal. Each pair is listed once, the nonterminals in the order of the grammar
and the pairs of one nonterminal in that of their positions. -/

namespace TopDownGrammar

/-- Pairs come in the order of their first entries, and those with the same first entry in that of the second. -/
private theorem pairwise_laterPairs {α : Type} {before : α → α → Prop} {entries : List α} (ordered : entries.Pairwise before) :
    (laterPairs entries).Pairwise fun pair other =>
      before pair.1 other.1 ∨ pair.1 = other.1 ∧ before pair.2 other.2 := by
  induction entries with
  | nil => exact .nil
  | cons head rest ih =>
    obtain ⟨above, later⟩ := List.pairwise_cons.mp ordered
    refine List.pairwise_append.mpr ⟨List.pairwise_map.mpr (later.imp fun next => Or.inr ⟨rfl, next⟩), ih later, ?_⟩
    intro pair own other inside
    obtain ⟨_, _, rfl⟩ := List.mem_map.mp own
    obtain ⟨i, _, _, found, _⟩ := mem_laterPairs.mp inside
    exact Or.inl (above other.1 (List.mem_of_getElem? found))

def Conflict.Before (conflict other : Conflict) : Prop :=
  conflict.earlier < other.earlier ∨ conflict.earlier = other.earlier ∧ conflict.later < other.later

private theorem Rule.conflicts_ordered (first : SetFamily) (rule : Rule) : (rule.conflicts first).Pairwise Conflict.Before := by
  let seen := rule.alternatives.zipIdx.map fun entry => (entry.2, entry.1, firstOfSequence first entry.1)
  have positions : seen.Pairwise fun entry other => entry.1 < other.1 := by
    refine List.pairwise_map.mpr (List.pairwise_iff_getElem.mpr fun i j inside within below => ?_)
    simpa using below
  simp only [Rule.conflicts]
  refine List.pairwise_filterMap.mpr ((pairwise_laterPairs positions).imp ?_)
  rintro ⟨⟨i, a, firstA⟩, j, b, firstB⟩ ⟨⟨k, c, firstC⟩, l, d, firstD⟩ order conflict found other foundOther
  simp only at found foundOther order
  split at found
  · cases found
  · split at foundOther
    · cases foundOther
    · obtain rfl := Option.some.inj found
      obtain rfl := Option.some.inj foundOther
      exact order.imp_right fun both => ⟨(Prod.mk.inj both.1).1, both.2⟩

private theorem between_eq_direct_iff {a b : Alternative} {shared : Symbol} : ConflictKind.between a b = .direct shared ↔
    a ≠ b ∧ shared ≠ .epsilon ∧ a.head? = some shared ∧ b.head? = some shared := by
  constructor
  · intro direct
    obtain ⟨solid, restA, restB, rfl, rfl⟩ := between_eq_direct direct
    refine ⟨fun same => ?_, solid, rfl, rfl⟩
    cases (between_eq_duplicate.mpr same).symm.trans direct
  · intro parts
    obtain ⟨different, solid, frontA, frontB⟩ := parts
    obtain ⟨restA, rfl⟩ := List.head?_eq_some_iff.mp frontA
    obtain ⟨restB, rfl⟩ := List.head?_eq_some_iff.mp frontB
    simp [ConflictKind.between, different, solid]

private theorem between_eq_indirect_iff {a b : Alternative} : ConflictKind.between a b = .indirect ↔
    a ≠ b ∧ ¬∃ shared, shared ≠ .epsilon ∧ a.head? = some shared ∧ b.head? = some shared := by
  constructor
  · intro indirect
    have different : a ≠ b := fun same => by cases (between_eq_duplicate.mpr same).symm.trans indirect
    refine ⟨different, fun found => ?_⟩
    obtain ⟨shared, fronts⟩ := found
    cases (between_eq_direct_iff.mpr ⟨different, fronts⟩).symm.trans indirect
  · intro parts
    obtain ⟨different, apart⟩ := parts
    cases kind : ConflictKind.between a b with
    | duplicate => exact absurd (between_eq_duplicate.mp kind) different
    | direct shared => exact absurd ⟨shared, (between_eq_direct_iff.mp kind).2⟩ apart
    | indirect => rfl

def Conflict.place (conflict : Conflict) : Name × Nat × Nat :=
  (conflict.nonterminal, conflict.earlier, conflict.later)

namespace Grammar

variable {g : Grammar} {conflict other : Conflict} {name : Name} {a b : Alternative} {i j : Nat} {form : List Symbol}

/-- Both alternatives can vanish, or a terminal begins what each of them derives. -/
def Clash (g : Grammar) (a b : Alternative) : Prop :=
  g.Derives (visible a) [] ∧ g.Derives (visible b) [] ∨
    ∃ text restA restB, g.Derives (visible a) (.terminal text :: restA) ∧ g.Derives (visible b) (.terminal text :: restB)

def ClashAt (g : Grammar) (name : Name) (i j : Nat) : Prop :=
  i < j ∧ ∃ a b, (g.alternatives name)[i]? = some a ∧ (g.alternatives name)[j]? = some b ∧ g.Clash a b

/-- What a conflict says about the two alternatives that it stands for. -/
structure Describes (g : Grammar) (conflict : Conflict) (a b : Alternative) : Prop where
  lookahead : ∀ symbol, symbol ∈ conflict.lookahead ↔ g.Begins (visible a) symbol ∧ g.Begins (visible b) symbol
  duplicate : conflict.kind = .duplicate ↔ a = b
  direct : ∀ shared, conflict.kind = .direct shared ↔
    a ≠ b ∧ shared ≠ .epsilon ∧ a.head? = some shared ∧ b.head? = some shared
  indirect : conflict.kind = .indirect ↔
    a ≠ b ∧ ¬∃ shared, shared ≠ .epsilon ∧ a.head? = some shared ∧ b.head? = some shared

def Precedes (g : Grammar) (conflict other : Conflict) : Prop :=
  g.nonterminals.idxOf conflict.nonterminal < g.nonterminals.idxOf other.nonterminal ∨
    conflict.nonterminal = other.nonterminal ∧ conflict.Before other

private theorem Precedes.place_ne (precedes : g.Precedes conflict other) : conflict.place ≠ other.place := by
  intro same
  obtain ⟨name, positions⟩ := Prod.mk.inj same
  obtain ⟨earlier, later⟩ := Prod.mk.inj positions
  rcases precedes with before | ⟨_, before | ⟨_, before⟩⟩
  · rw [name] at before
    exact Nat.lt_irrefl _ before
  · omega
  · omega

theorem conflictsWith_ordered (once : g.nonterminals.Nodup) (first : SetFamily) :
    (g.conflictsWith first).Pairwise g.Precedes := by
  have positions : g.nonterminals.Pairwise fun name other => g.nonterminals.idxOf name < g.nonterminals.idxOf other := by
    refine List.pairwise_iff_getElem.mpr fun i j inside within below => ?_
    rwa [once.idxOf_getElem, once.idxOf_getElem]
  refine List.pairwise_flatMap.mpr ⟨fun rule _ => ?_, (List.pairwise_map.mp positions).imp ?_⟩
  · refine (rule.conflicts_ordered first).imp_of_mem fun member memberToo before => Or.inr ⟨?_, before⟩
    rw [nonterminal_of_mem_conflicts member, nonterminal_of_mem_conflicts memberToo]
  · intro rule next below conflict member other memberToo
    left
    rwa [nonterminal_of_mem_conflicts member, nonterminal_of_mem_conflicts memberToo]

private theorem clash_iff : g.Clash a b ↔ ∃ symbol, g.Begins (visible a) symbol ∧ g.Begins (visible b) symbol := by
  constructor
  · intro clash
    rcases clash with vanish | ⟨text, restA, restB, beginsA, beginsB⟩
    · exact ⟨.epsilon, vanish⟩
    · exact ⟨.terminal text, ⟨restA, beginsA⟩, restB, beginsB⟩
  · intro found
    obtain ⟨symbol, beginsA, beginsB⟩ := found
    cases symbol with
    | terminal text =>
      obtain ⟨restA, derivesA⟩ := beginsA
      obtain ⟨restB, derivesB⟩ := beginsB
      exact Or.inr ⟨text, restA, restB, derivesA, derivesB⟩
    | epsilon => exact Or.inl ⟨beginsA, beginsB⟩
    | _ => exact beginsA.elim

section Pairs

variable (wellFormed : g.WellFormed)

include wellFormed

private theorem mem_common_first (atI : (g.alternatives name)[i]? = some a) (atJ : (g.alternatives name)[j]? = some b)
    (symbol : Symbol) : symbol ∈ firstOfSequence g.first a ∩ firstOfSequence g.first b ↔
      g.Begins (visible a) symbol ∧ g.Begins (visible b) symbol := by
  rw [SymbolSet.mem_inter, mem_firstOfSequence_first wellFormed (wellFormed.unmarked (List.mem_of_getElem? atI)),
    mem_firstOfSequence_first wellFormed (wellFormed.unmarked (List.mem_of_getElem? atJ))]

/-- Every conflict stands where two alternatives clash and describes them. -/
theorem described_of_mem (member : conflict ∈ g.conflicts) :
    ∃ a b, g.Located conflict a b ∧ g.Clash a b ∧ g.Describes conflict a b := by
  obtain ⟨a, b, located, lookahead, shared⟩ := (mem_conflictsWith wellFormed.once).mp member
  have common := mem_common_first wellFormed located.earlier located.later
  rw [← lookahead] at common
  obtain ⟨symbol, present⟩ := List.exists_mem_of_ne_nil _ (List.isEmpty_eq_false_iff.mp shared)
  refine ⟨a, b, located, clash_iff.mpr ⟨symbol, (common symbol).mp present⟩, common, ?_, ?_, ?_⟩
  · rw [located.kind]
    exact between_eq_duplicate
  · intro shared
    rw [located.kind]
    exact between_eq_direct_iff
  · rw [located.kind]
    exact between_eq_indirect_iff

theorem exists_conflict_iff : (∃ conflict ∈ g.conflicts, conflict.place = (name, i, j)) ↔ g.ClashAt name i j := by
  constructor
  · intro found
    obtain ⟨conflict, member, same⟩ := found
    obtain ⟨a, b, located, clash, _⟩ := described_of_mem wellFormed member
    obtain ⟨rfl, positions⟩ := Prod.mk.inj same
    obtain ⟨rfl, rfl⟩ := Prod.mk.inj positions
    exact ⟨located.ordered, a, b, located.earlier, located.later, clash⟩
  · intro clashes
    obtain ⟨below, a, b, atI, atJ, clash⟩ := clashes
    obtain ⟨symbol, begins⟩ := clash_iff.mp clash
    have common := (mem_common_first wellFormed atI atJ symbol).mpr begins
    refine ⟨⟨name, i, j, firstOfSequence g.first a ∩ firstOfSequence g.first b, .between a b⟩, ?_, rfl⟩
    exact (mem_conflictsWith wellFormed.once).mpr
      ⟨a, b, ⟨below, atI, atJ, rfl⟩, rfl, List.isEmpty_eq_false_iff.mpr (List.ne_nil_of_mem common)⟩

end Pairs

/-- Each pair of alternatives that clash is listed once and no other pair is, with all that they have in common in
front and the way in which they are alike, in the order of the grammar. No conflicts means no such pair. -/
theorem conflicts_exact (wellFormed : g.WellFormed) :
    (∀ name i j, (g.conflicts.map Conflict.place).count (name, i, j) = 1 ↔ g.ClashAt name i j) ∧
    (∀ conflict ∈ g.conflicts, ∃ a b, (g.alternatives conflict.nonterminal)[conflict.earlier]? = some a ∧
      (g.alternatives conflict.nonterminal)[conflict.later]? = some b ∧ g.Describes conflict a b) ∧
    g.conflicts.Pairwise g.Precedes ∧
    (g.isConflictFree = true ↔ ¬∃ name i j, g.ClashAt name i j) := by
  have ordered := conflictsWith_ordered wellFormed.once g.first
  have listed : ∀ name i j, (name, i, j) ∈ g.conflicts.map Conflict.place ↔ g.ClashAt name i j :=
    fun name i j => List.mem_map.trans (exists_conflict_iff wellFormed)
  refine ⟨?_, ?_, ordered, ?_⟩
  · intro name i j
    have once : (g.conflicts.map Conflict.place).Nodup := List.pairwise_map.mpr (ordered.imp Precedes.place_ne)
    rw [← listed]
    refine ⟨fun counted => List.count_pos_iff.mp (by omega), fun member => List.count_eq_one_of_mem once member⟩
  · intro conflict member
    obtain ⟨a, b, located, _, describes⟩ := described_of_mem wellFormed member
    exact ⟨a, b, located.earlier, located.later, describes⟩
  · rw [isConflictFree, List.isEmpty_iff, List.eq_nil_iff_forall_not_mem]
    constructor
    · intro none clashes
      obtain ⟨name, i, j, clash⟩ := clashes
      obtain ⟨conflict, member, _⟩ := (exists_conflict_iff wellFormed).mpr clash
      exact none conflict member
    · intro apart conflict member
      exact apart ⟨_, _, _, (exists_conflict_iff wellFormed).mp ⟨conflict, member, rfl⟩⟩

/-- The first three alternatives of `S` meet in `a`, the last two of `A` can both vanish. -/
def entangled : Grammar :=
  ⟨"S", [⟨"S", [[.nonterminal "A", .terminal "b"], [.epsilon, .terminal "a"], [.terminal "a", .terminal "c"],
      [.nonterminal "Z", .terminal "a"]]⟩,
    ⟨"A", [[.terminal "a", .nonterminal "A"], [.nonterminal "B", .nonterminal "B"], [.epsilon]]⟩,
    ⟨"B", [[.epsilon, .epsilon]]⟩]⟩

theorem entangled_conflicts :
    entangled.WellFormed ∧ entangled.ClashAt "S" 0 2 ∧ entangled.ClashAt "A" 1 2 ∧ ¬entangled.ClashAt "S" 2 3 ∧
      entangled.conflicts.Pairwise entangled.Precedes ∧ entangled.isConflictFree = false := by
  have wellFormed : entangled.WellFormed := by decide
  obtain ⟨counted, _, ordered, free⟩ := conflicts_exact wellFormed
  have throughS : (entangled.conflicts.map Conflict.place).count ("S", 0, 2) = 1 := by decide +kernel
  have throughA : (entangled.conflicts.map Conflict.place).count ("A", 1, 2) = 1 := by decide +kernel
  have apart : (entangled.conflicts.map Conflict.place).count ("S", 2, 3) ≠ 1 := by decide +kernel
  have clash := (counted "S" 0 2).mp throughS
  exact ⟨wellFormed, clash, (counted "A" 1 2).mp throughA, mt (counted "S" 2 3).mpr apart, ordered,
    Bool.eq_false_iff.mpr fun none => free.mp none ⟨_, _, _, clash⟩⟩

end Grammar

end TopDownGrammar
