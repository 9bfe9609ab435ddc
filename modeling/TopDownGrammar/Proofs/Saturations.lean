import Mathlib.Algebra.GroupWithZero.Nat
import Mathlib.Algebra.Order.BigOperators.Group.List
import Mathlib.Algebra.Order.Group.Nat
import Mathlib.Data.List.Perm.Subperm
import Mathlib.Logic.Function.Iterate
import Mathlib.Logic.Relation
import TopDownGrammar.Closure
import TopDownGrammar.SymbolSet

/-! The fixed points that the rounds end in. A saturated set holds its seed and all that is drawn from it, and nothing else,
provided the number of rounds covers the symbols that can be met. In a family every nonterminal keeps its set and adds what
is drawn for it from the whole family, which is settled after as many rounds as there are symbols to add to all sets
together. -/

namespace TopDownGrammar

/-- The early stop makes no difference: settling is a number of rounds. -/
theorem settle_eq_iterate {α : Type} [DecidableEq α] (round : α → α) (bound : Nat) (value : α) :
    ∃ rounds, settle round bound value = round^[rounds] value := by
  induction bound generalizing value with
  | zero => exact ⟨0, rfl⟩
  | succ bound ih =>
    simp only [settle]
    split
    · exact ⟨0, rfl⟩
    · obtain ⟨rounds, same⟩ := ih (round value)
      exact ⟨rounds + 1, same⟩

theorem mem_foldl_union {α : Type} {sets : α → SymbolSet} {entries : List α} {seed : SymbolSet} {symbol : Symbol} :
    symbol ∈ entries.foldl (fun set entry => set ∪ sets entry) seed ↔
      symbol ∈ seed ∨ ∃ entry ∈ entries, symbol ∈ sets entry := by
  induction entries generalizing seed with
  | nil => simp
  | cons head rest ih =>
    rw [List.foldl_cons, ih, SymbolSet.mem_union]
    simp [or_assoc]

namespace SetFamily

theorem get_tabulate {names : List Name} {set : Name → SymbolSet} {name : Name} (listed : name ∈ names) :
    (tabulate names set).get name = set name := by
  simp [get, get?_tabulate, listed]

end SetFamily

namespace SymbolSet

variable {set larger : SymbolSet} {infer : SymbolSet → List Symbol} {seed : SymbolSet} {bound : Nat}

theorem nodup_toList (set : SymbolSet) : set.toList.Nodup := by
  refine set.ascending.imp ?_
  rintro a b below rfl
  exact Symbol.lt_irrefl a below

def card (set : SymbolSet) : Nat := set.toList.length

theorem card_singleton (symbol : Symbol) : card {symbol} = 1 := rfl

theorem card_le_length {scope : List Symbol} (inside : ∀ symbol ∈ set, symbol ∈ scope) :
    set.card ≤ scope.length :=
  set.nodup_toList.length_le_of_subset fun symbol member => inside symbol member

theorem card_lt_card (grown : ∀ symbol ∈ set, symbol ∈ larger) (different : larger ≠ set) :
    set.card < larger.card := by
  refine Nat.lt_of_le_of_ne (card_le_length grown) ?_
  intro same
  have permuted := (List.subperm_of_subset set.nodup_toList fun symbol member => grown symbol member).perm_of_length_le
    (Nat.le_of_eq same.symm)
  exact different (SymbolSet.ext fun symbol => permuted.mem_iff.symm)

/-- What holds of the seed and of all that is drawn from such symbols holds of the whole set. -/
theorem saturate_induction (holds : Symbol → Prop) (initially : ∀ symbol ∈ seed, holds symbol)
    (kept : ∀ set : SymbolSet, (∀ symbol ∈ set, holds symbol) → ∀ symbol ∈ infer set, holds symbol) :
    ∀ symbol ∈ saturate infer bound seed, holds symbol := by
  refine settle_keeps (fun set : SymbolSet => ∀ symbol ∈ set, holds symbol) ?_ initially
  intro set before symbol member
  rcases mem_insertAll.mp member with drawn | old
  · exact kept set before symbol drawn
  · exact before symbol old

theorem seed_subset_saturate : ∀ symbol ∈ seed, symbol ∈ saturate infer bound seed := by
  refine settle_keeps (fun set : SymbolSet => ∀ symbol ∈ seed, symbol ∈ set) ?_ fun _ member => member
  exact fun set before symbol member => mem_insertAll.mpr (Or.inr (before symbol member))

/-- Nothing more is drawn from the set in the end. Every round but the last adds a symbol of the
scope, so there are rounds enough. -/
theorem saturate_closed (infer : SymbolSet → List Symbol) (scope : List Symbol)
    (initially : ∀ symbol ∈ seed, symbol ∈ scope)
    (drawn : ∀ set, ∀ symbol ∈ infer set, symbol ∈ scope) (enough : scope.length ≤ seed.card + bound) :
    ∀ symbol ∈ infer (saturate infer bound seed), symbol ∈ saturate infer bound seed := by
  have kept : ∀ set : SymbolSet, (∀ symbol ∈ set, symbol ∈ scope) →
      ∀ symbol ∈ set.insertAll (infer set), symbol ∈ scope :=
    fun set inside symbol member => (mem_insertAll.mp member).elim (drawn set symbol) (inside symbol)
  have ended := round_settle (fun set : SymbolSet => ∀ symbol ∈ set, symbol ∈ scope) card kept
    (fun set _ moved => card_lt_card (fun symbol member => mem_insertAll.mpr (Or.inr member)) moved)
    (fun set inside => card_le_length inside) initially enough
  intro symbol member
  rw [saturate, ← ended]
  exact mem_insertAll.mpr (Or.inl member)

/-- A set that grows along a relation ends as all that can be reached from its seed. -/
theorem mem_saturate_reached {leads : Name → Name → Prop} {first last : Name} (nodes : List Name)
    (drawn : ∀ set symbol, symbol ∈ infer set ↔
      ∃ near far, symbol = .nonterminal far ∧ .nonterminal near ∈ set ∧ leads near far)
    (inside : ∀ near far, leads near far → far ∈ nodes) (enough : nodes.length ≤ bound) :
    .nonterminal last ∈ saturate infer bound {.nonterminal first} ↔ Relation.ReflTransGen leads first last := by
  constructor
  · intro member
    have path := saturate_induction (fun symbol => ∀ name, symbol = .nonterminal name →
      Relation.ReflTransGen leads first name) ?_ ?_ _ member
    · exact path last rfl
    · intro symbol member name same
      obtain rfl := Symbol.nonterminal.inj (same.symm.trans (mem_singleton.mp member))
      exact .refl
    · intro set known symbol member name same
      obtain ⟨near, far, rfl, present, step⟩ := (drawn set symbol).mp member
      obtain rfl := Symbol.nonterminal.inj same
      exact (known _ present near rfl).tail step
  · intro path
    have closed : ∀ symbol ∈ infer (saturate infer bound {.nonterminal first}),
        symbol ∈ saturate infer bound {.nonterminal first} := by
      apply saturate_closed infer (.nonterminal first :: nodes.map .nonterminal)
      · exact fun symbol member => List.mem_cons.mpr (Or.inl (mem_singleton.mp member))
      · intro set symbol member
        obtain ⟨near, far, rfl, _, step⟩ := (drawn set symbol).mp member
        exact List.mem_cons_of_mem _ (List.mem_map_of_mem (inside near far step))
      · rw [List.length_cons, List.length_map, card_singleton]
        omega
    induction path with
    | refl => exact seed_subset_saturate _ (mem_singleton.mpr rfl)
    | tail _ step ih => exact closed _ ((drawn _ _).mpr ⟨_, _, rfl, ih, step⟩)

end SymbolSet

namespace SetFamily

variable {names : List Name} {name : Name} {family : SetFamily} {symbol : Symbol}

/-- The family has a set for each of the names, in their order, and for no other. -/
def Keyed (names : List Name) (family : SetFamily) : Prop :=
  family = tabulate names family.get

theorem keyed_tabulate (names : List Name) (set : Name → SymbolSet) : (tabulate names set).Keyed names := by
  have same : ∀ name ∈ names, (name, set name) = (name, (tabulate names set).get name) :=
    fun name listed => by rw [get_tabulate listed]
  exact congrArg SetFamily.mk (List.map_congr_left same)

theorem Keyed.map_eq (keyed : family.Keyed names) (change : SymbolSet → SymbolSet) :
    family.map change = tabulate names fun name => change (family.get name) :=
  (congrArg (map change) keyed).trans (map_tabulate change names family.get)

theorem Keyed.keys (keyed : family.Keyed names) : family.keys = names := by
  rw [keyed, keys_tabulate]

theorem Keyed.get? (keyed : family.Keyed names) (listed : name ∈ names) :
    family.get? name = some (family.get name) := by
  rw [keyed, get?_tabulate, if_pos listed, ← keyed]

theorem Keyed.listed (keyed : family.Keyed names) (member : symbol ∈ family.get name) : name ∈ names := by
  refine Classical.byContradiction fun unlisted => ?_
  rw [keyed, get, get?_tabulate, if_neg unlisted] at member
  exact SymbolSet.not_mem_empty symbol member

theorem not_mem_tabulate_empty : symbol ∉ (tabulate names fun _ => ∅).get name := by
  rw [get, get?_tabulate]
  split <;> exact SymbolSet.not_mem_empty symbol

theorem get_subset_members : ∀ symbol ∈ family.get name, symbol ∈ family.members := by
  intro symbol member
  unfold get at member
  cases found : family.get? name with
  | none => simp [found] at member
  | some set =>
    rw [found, Option.getD_some] at member
    obtain ⟨before, after, split, _⟩ := List.lookup_eq_some_iff.mp found
    exact List.mem_flatMap.mpr ⟨(name, set), by simp [split], member⟩

theorem Keyed.eq {other : SetFamily} (keyed : family.Keyed names) (otherKeyed : other.Keyed names)
    (same : ∀ name ∈ names, family.get name = other.get name) : family = other := by
  rw [keyed, otherKeyed]
  exact congrArg SetFamily.mk (List.map_congr_left fun name listed => by rw [same name listed])

theorem Keyed.ext {other : SetFamily} (keyed : family.Keyed names) (otherKeyed : other.Keyed names)
    (same : ∀ name ∈ names, ∀ symbol, symbol ∈ family.get name ↔ symbol ∈ other.get name) : family = other :=
  keyed.eq otherKeyed fun name listed => SymbolSet.ext (same name listed)

def size (names : List Name) (family : SetFamily) : Nat :=
  (names.map fun name => (family.get name).card).sum

theorem size_le {scope : List Symbol} (inside : ∀ name, ∀ symbol ∈ family.get name, symbol ∈ scope) :
    family.size names ≤ names.length * scope.length := by
  refine (List.sum_le_card_nsmul _ scope.length ?_).trans (by simp)
  intro card member
  obtain ⟨name, _, rfl⟩ := List.mem_map.mp member
  exact SymbolSet.card_le_length (inside name)

theorem Keyed.size_lt {larger : SetFamily} (keyed : family.Keyed names) (largerKeyed : larger.Keyed names)
    (grown : ∀ name ∈ names, ∀ symbol ∈ family.get name, symbol ∈ larger.get name) (moved : larger ≠ family) :
    family.size names < larger.size names := by
  refine List.sum_lt_sum _ _ (fun name listed => SymbolSet.card_le_length (grown name listed)) ?_
  refine Classical.byContradiction fun none => moved (largerKeyed.eq keyed ?_)
  intro name listed
  refine Classical.byContradiction fun different => none ⟨name, listed, ?_⟩
  exact SymbolSet.card_lt_card (grown name listed) different

/-- A round that keeps what there is and adds to the set of each name the symbols drawn for it. -/
structure Draws (names : List Name) (drawn : SetFamily → Name → Symbol → Prop)
    (round : SetFamily → SetFamily) : Prop where
  keyed : ∀ family, (round family).Keyed names
  mem : ∀ family, ∀ name ∈ names, ∀ symbol,
    symbol ∈ (round family).get name ↔ symbol ∈ family.get name ∨ drawn family name symbol

namespace Draws

variable {drawn : SetFamily → Name → Symbol → Prop} {round : SetFamily → SetFamily} {seed : SetFamily} {bound : Nat}

theorem size_lt (draws : Draws names drawn round) (keyed : family.Keyed names) (moved : round family ≠ family) :
    family.size names < (round family).size names :=
  keyed.size_lt (draws.keyed family)
    (fun name listed symbol member => (draws.mem family name listed symbol).mpr (Or.inl member)) moved

theorem settle_keyed (draws : Draws names drawn round) (initially : seed.Keyed names) :
    (settle round bound seed).Keyed names :=
  settle_keeps (Keyed names) (fun family _ => draws.keyed family) initially

theorem seed_subset_settle (draws : Draws names drawn round) (listed : name ∈ names) :
    ∀ symbol ∈ seed.get name, symbol ∈ (settle round bound seed).get name := by
  refine settle_keeps (fun family : SetFamily => ∀ symbol ∈ seed.get name, symbol ∈ family.get name) ?_
    fun _ member => member
  exact fun family before symbol member => (draws.mem family name listed symbol).mpr (Or.inl (before symbol member))

/-- What holds of the seed and of all that is drawn from such families holds of the settled one. -/
theorem settle_induction (draws : Draws names drawn round) (holds : Name → Symbol → Prop)
    (initially : ∀ name, ∀ symbol ∈ seed.get name, holds name symbol)
    (kept : ∀ family : SetFamily, (∀ name, ∀ symbol ∈ family.get name, holds name symbol) →
      ∀ name symbol, drawn family name symbol → holds name symbol) :
    ∀ name, ∀ symbol ∈ (settle round bound seed).get name, holds name symbol := by
  refine settle_keeps (fun family : SetFamily => ∀ name, ∀ symbol ∈ family.get name, holds name symbol) ?_ initially
  intro family before name symbol member
  have listed := (draws.keyed family).listed member
  rcases (draws.mem family name listed symbol).mp member with old | new
  · exact before name symbol old
  · exact kept family before name symbol new

/-- Another round changes nothing in the settled family. Every round but the last adds a symbol of the
scope to one of the sets, so there are rounds enough. -/
theorem settle_fixed (draws : Draws names drawn round) (scope : List Symbol) (initially : seed.Keyed names)
    (seeded : ∀ name, ∀ symbol ∈ seed.get name, symbol ∈ scope)
    (inside : ∀ family : SetFamily, (∀ name, ∀ symbol ∈ family.get name, symbol ∈ scope) →
      ∀ name symbol, drawn family name symbol → symbol ∈ scope)
    (enough : names.length * scope.length ≤ bound) : round (settle round bound seed) = settle round bound seed := by
  have kept : ∀ family : SetFamily, (family.Keyed names ∧ ∀ name, ∀ symbol ∈ family.get name, symbol ∈ scope) →
      (round family).Keyed names ∧ ∀ name, ∀ symbol ∈ (round family).get name, symbol ∈ scope := by
    intro family before
    refine ⟨draws.keyed family, fun name symbol member => ?_⟩
    have listed := (draws.keyed family).listed member
    rcases (draws.mem family name listed symbol).mp member with old | new
    · exact before.2 name symbol old
    · exact inside family before.2 name symbol new
  exact round_settle _ (size names) kept (fun family before => draws.size_lt before.1)
    (fun family before => size_le before.2) ⟨initially, seeded⟩ (enough.trans (Nat.le_add_left _ _))

theorem settle_closed (draws : Draws names drawn round) (scope : List Symbol) (initially : seed.Keyed names)
    (seeded : ∀ name, ∀ symbol ∈ seed.get name, symbol ∈ scope)
    (inside : ∀ family : SetFamily, (∀ name, ∀ symbol ∈ family.get name, symbol ∈ scope) →
      ∀ name symbol, drawn family name symbol → symbol ∈ scope)
    (enough : names.length * scope.length ≤ bound) (listed : name ∈ names)
    (draw : drawn (settle round bound seed) name symbol) : symbol ∈ (settle round bound seed).get name := by
  rw [← draws.settle_fixed scope initially seeded inside enough]
  exact (draws.mem _ name listed symbol).mpr (Or.inr draw)

end Draws

end SetFamily

end TopDownGrammar
