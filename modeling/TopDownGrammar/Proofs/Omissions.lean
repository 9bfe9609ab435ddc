import Mathlib.Data.Finset.Powerset
import Mathlib.Data.Finset.Range
import Mathlib.Data.List.Induction
import TopDownGrammar.Proofs.Rules
import TopDownGrammar.Proper

/-! The ways to leave out nullable symbols. A sequence is listed if it comes of leaving out some of them, as often
as there are sets of positions that leave it behind. Where a sequence repeats a symbol there can be several. Sets
that leave nothing behind are not listed. -/

namespace TopDownGrammar

/-- The second sequence is the first without some of its nullable symbols. -/
inductive Omission (nullable : SymbolSet) : List Symbol → List Symbol → Prop where
  | nil : Omission nullable [] []
  | keep (symbol : Symbol) {rest kept : List Symbol} (later : Omission nullable rest kept) :
      Omission nullable (symbol :: rest) (symbol :: kept)
  | drop {symbol : Symbol} {rest kept : List Symbol} (vanishes : symbol ∈ nullable)
      (later : Omission nullable rest kept) : Omission nullable (symbol :: rest) kept

variable {nullable : SymbolSet} {whole alternative symbols : List Symbol} {symbol : Symbol} {position : Nat}
  {dropped : Finset Nat}

private theorem mem_extendAll {partials : List Alternative} :
    alternative ∈ extendAll nullable partials symbol ↔
      ∃ front ∈ partials, alternative = front ++ [symbol] ∨ symbol ∈ nullable ∧ alternative = front := by
  have kept : alternative ∈ partials.map (· ++ [symbol]) ↔ ∃ front ∈ partials, alternative = front ++ [symbol] := by
    simp [eq_comm]
  unfold extendAll
  split
  next vanishes =>
    rw [List.mem_append, kept]
    constructor
    · intro found
      rcases found with ⟨front, member, same⟩ | member
      · exact ⟨front, member, Or.inl same⟩
      · exact ⟨alternative, member, Or.inr ⟨vanishes, rfl⟩⟩
    · intro found
      obtain ⟨front, member, same | ⟨_, rfl⟩⟩ := found
      · exact Or.inl ⟨front, member, same⟩
      · exact Or.inr member
  next stays => simp [kept, stays]

private theorem mem_foldl_extendAll {partials : List Alternative} :
    alternative ∈ symbols.foldl (extendAll nullable) partials ↔
      ∃ front ∈ partials, ∃ kept, Omission nullable symbols kept ∧ alternative = front ++ kept := by
  induction symbols generalizing partials with
  | nil =>
    constructor
    · intro member
      exact ⟨alternative, member, [], .nil, (List.append_nil _).symm⟩
    · intro found
      obtain ⟨front, member, kept, omission, rfl⟩ := found
      cases omission
      rwa [List.append_nil]
  | cons head rest ih =>
    rw [List.foldl_cons, ih]
    constructor
    · intro found
      obtain ⟨longer, extended, kept, omission, rfl⟩ := found
      obtain ⟨front, member, rfl | ⟨vanishes, rfl⟩⟩ := mem_extendAll.mp extended
      · exact ⟨front, member, head :: kept, .keep head omission, by simp⟩
      · exact ⟨longer, member, kept, .drop vanishes omission, rfl⟩
    · intro found
      obtain ⟨front, member, kept, omission, rfl⟩ := found
      cases omission with
      | keep _ later => exact ⟨front ++ [head], mem_extendAll.mpr ⟨front, member, Or.inl rfl⟩, _, later, by simp⟩
      | drop vanishes later => exact ⟨front, mem_extendAll.mpr ⟨front, member, Or.inr ⟨vanishes, rfl⟩⟩, _, later, rfl⟩

theorem mem_omissions :
    alternative ∈ omissions nullable whole ↔ alternative ≠ [] ∧ Omission nullable (visible whole) alternative := by
  rw [omissions, List.mem_filter, mem_foldl_extendAll]
  simp [and_comm]

/-- A sequence that cannot lose a symbol is all that there is. -/
theorem omissions_of_solid (nonempty : symbols ≠ []) (plain : .epsilon ∉ symbols)
    (solid : ∀ symbol ∈ symbols, symbol ∉ nullable) : omissions nullable symbols = [symbols] := by
  have extended : ∀ front, symbols.foldl (extendAll nullable) [front] = [front ++ symbols] := by
    clear nonempty plain
    induction symbols with
    | nil => simp
    | cons head rest ih =>
      intro front
      have kept : extendAll nullable [front] head = [front ++ [head]] := if_neg (solid head List.mem_cons_self)
      rw [List.foldl_cons, kept, ih fun symbol member => solid symbol (List.mem_cons_of_mem _ member),
        List.append_assoc, List.singleton_append]
  rw [omissions, visible_of_plain plain, extended, List.nil_append]
  simpa using nonempty

private theorem Omission.subset (omission : Omission nullable whole alternative) : alternative ⊆ whole := by
  induction omission with
  | nil => exact List.Subset.refl _
  | keep symbol _ ih => exact List.cons_subset_cons symbol ih
  | drop _ _ ih => exact List.subset_cons_of_subset _ ih

theorem mem_of_mem_omissions (member : alternative ∈ omissions nullable whole) (inside : symbol ∈ alternative) :
    symbol ∈ whole ∧ symbol ≠ .epsilon :=
  mem_visible.mp ((mem_omissions.mp member).2.subset inside)

/-! How often a sequence is listed. -/

/-- The positions whose symbols can be left out one by one. -/
def vanishingPositions (nullable : SymbolSet) (symbols : List Symbol) : Finset Nat :=
  {position ∈ Finset.range symbols.length | ∃ symbol ∈ symbols[position]?, symbol ∈ nullable ∧ symbol ≠ .epsilon}

/-- The sequence without the symbols at the given positions, and without its empty strings. -/
def without (symbols : List Symbol) (dropped : Finset Nat) : Alternative :=
  visible ((symbols.zipIdx.filter (·.2 ∉ dropped)).map (·.1))

private theorem mem_vanishingPositions : position ∈ vanishingPositions nullable symbols ↔
    ∃ symbol, symbols[position]? = some symbol ∧ symbol ∈ nullable ∧ symbol ≠ .epsilon := by
  simp only [vanishingPositions, Finset.mem_filter, Finset.mem_range, Option.mem_def, and_iff_right_iff_imp]
  intro found
  obtain ⟨symbol, here, _⟩ := found
  exact (List.getElem?_eq_some_iff.mp here).1

private theorem length_not_mem_vanishingPositions : symbols.length ∉ vanishingPositions nullable symbols := by
  simp [mem_vanishingPositions]

private theorem mem_vanishingPositions_snoc : position ∈ vanishingPositions nullable (symbols ++ [symbol]) ↔
    position ∈ vanishingPositions nullable symbols ∨
      position = symbols.length ∧ symbol ∈ nullable ∧ symbol ≠ .epsilon := by
  rcases Nat.lt_trichotomy position symbols.length with inside | rfl | outside
  · simp [mem_vanishingPositions, List.getElem?_append_left inside, Nat.ne_of_lt inside]
  · simp [mem_vanishingPositions]
  · have beyond : (symbols ++ [symbol])[position]? = none := List.getElem?_eq_none (by simp; omega)
    have before : symbols[position]? = none := List.getElem?_eq_none (by omega)
    simp [mem_vanishingPositions, beyond, before, Nat.ne_of_gt outside]

private theorem vanishingPositions_snoc (vanishes : symbol ∈ nullable) (solid : symbol ≠ .epsilon) :
    vanishingPositions nullable (symbols ++ [symbol]) =
      insert symbols.length (vanishingPositions nullable symbols) := by
  ext position
  simp [mem_vanishingPositions_snoc, vanishes, solid, or_comm]

private theorem vanishingPositions_snoc_of_kept (kept : ¬(symbol ∈ nullable ∧ symbol ≠ .epsilon)) :
    vanishingPositions nullable (symbols ++ [symbol]) = vanishingPositions nullable symbols := by
  ext position
  simp [mem_vanishingPositions_snoc, kept]

private theorem without_empty : without symbols ∅ = visible symbols := by
  simp [without]

private theorem without_snoc : without (symbols ++ [symbol]) dropped =
    without symbols dropped ++ if symbols.length ∈ dropped then [] else visible [symbol] := by
  rw [without, List.zipIdx_append, List.filter_append, List.map_append, visible_append, ← without]
  by_cases present : symbols.length ∈ dropped <;> simp [present]

private theorem without_insert_length : without symbols (insert symbols.length dropped) = without symbols dropped := by
  have kept : ∀ entry ∈ symbols.zipIdx,
      decide (entry.2 ∉ insert symbols.length dropped) = decide (entry.2 ∉ dropped) := by
    intro entry member
    have inside : entry.2 < symbols.length := by simpa using List.snd_lt_of_mem_zipIdx member
    simp [Nat.ne_of_lt inside]
  rw [without, List.filter_congr kept, ← without]

private theorem without_snoc_insert :
    without (symbols ++ [symbol]) (insert symbols.length dropped) = without symbols dropped := by
  rw [without_snoc, if_pos (Finset.mem_insert_self _ _), List.append_nil, without_insert_length]

private theorem map_without_snoc :
    (vanishingPositions nullable symbols).powerset.val.map (without (symbols ++ [symbol])) =
      ((vanishingPositions nullable symbols).powerset.val.map (without symbols)).map (· ++ visible [symbol]) := by
  rw [Multiset.map_map]
  refine Multiset.map_congr rfl fun dropped inside => ?_
  have subset : dropped ⊆ vanishingPositions nullable symbols := Finset.mem_powerset.mp inside
  rw [without_snoc, if_neg fun member => length_not_mem_vanishingPositions (subset member), Function.comp_apply]

/-- The subsets with a further position are those without it, each with the position put in and as it was. -/
private theorem powerset_insert_val {positions : Finset Nat} (further : position ∉ positions) :
    (insert position positions).powerset.val =
      positions.powerset.val.map (insert position) + positions.powerset.val := by
  have absent : ∀ dropped ∈ positions.powerset, position ∉ dropped :=
    fun dropped inside => Finset.notMem_of_mem_powerset_of_notMem inside further
  have apart : Disjoint positions.powerset (positions.powerset.image (insert position)) := by
    rw [Finset.disjoint_left]
    intro dropped inside image
    obtain ⟨other, _, rfl⟩ := Finset.mem_image.mp image
    exact absent _ inside (Finset.mem_insert_self position other)
  have injective : Set.InjOn (insert position) (positions.powerset : Set (Finset Nat)) := by
    intro first inFirst second inSecond same
    rw [← Finset.erase_insert (absent first inFirst), same, Finset.erase_insert (absent second inSecond)]
  rw [Finset.powerset_insert, ← Finset.disjUnion_eq_union _ _ apart, Finset.disjUnion_val,
    Finset.image_val_of_injOn injective, add_comm]

private theorem coe_extendAll (partials : List Alternative) :
    (extendAll nullable partials symbol : Multiset Alternative) =
      (partials : Multiset Alternative).map (· ++ [symbol]) +
        if symbol ∈ nullable then (partials : Multiset Alternative) else 0 := by
  unfold extendAll
  split <;> simp

/-- One sequence for each subset of the vanishing positions. -/
theorem coe_foldl_extendAll :
    (((visible symbols).foldl (extendAll nullable) [[]] : List Alternative) : Multiset Alternative) =
      (vanishingPositions nullable symbols).powerset.val.map (without symbols) := by
  induction symbols using List.reverseRecOn with
  | nil => rfl
  | append_singleton symbols symbol ih =>
    rw [visible_append, List.foldl_append]
    by_cases empty : symbol = .epsilon
    · rw [vanishingPositions_snoc_of_kept fun both => both.2 empty, map_without_snoc, ← ih]
      subst empty
      simp
    · have alone : visible [symbol] = [symbol] := visible_cons empty []
      have kept : ((vanishingPositions nullable symbols).powerset.val.map (without symbols)).map (· ++ [symbol]) =
          (vanishingPositions nullable symbols).powerset.val.map (without (symbols ++ [symbol])) := by
        rw [map_without_snoc, alone]
      rw [alone, List.foldl_cons, List.foldl_nil, coe_extendAll, ih, kept]
      by_cases vanishes : symbol ∈ nullable
      · rw [if_pos vanishes, vanishingPositions_snoc vanishes empty,
          powerset_insert_val length_not_mem_vanishingPositions, Multiset.map_add, Multiset.map_map, add_comm]
        simp only [Function.comp_def, without_snoc_insert]
      · rw [if_neg vanishes, add_zero, vanishingPositions_snoc_of_kept fun both => vanishes both.1]

private theorem head_foldl_extendAll (front : Alternative) (others : List Alternative) :
    ∃ rest, symbols.foldl (extendAll nullable) (front :: others) = (front ++ symbols) :: rest := by
  induction symbols generalizing front others with
  | nil => exact ⟨others, by simp⟩
  | cons symbol symbols ih =>
    have extended : ∃ later, extendAll nullable (front :: others) symbol = (front ++ [symbol]) :: later := by
      unfold extendAll
      split <;> exact ⟨_, rfl⟩
    obtain ⟨later, same⟩ := extended
    rw [List.foldl_cons, same, List.append_cons front symbol symbols]
    exact ih (front ++ [symbol]) later

/-- The omissions are what the subsets of the vanishing positions leave, one for each subset, but for those
that leave nothing. The first is the one that drops no position. -/
theorem omissions_exact (nullable : SymbolSet) (symbols : List Symbol) :
    (omissions nullable symbols : Multiset Alternative) =
      ((vanishingPositions nullable symbols).powerset.val.map (without symbols)).filter (· ≠ []) ∧
    (without symbols ∅ ≠ [] → (omissions nullable symbols).head? = some (without symbols ∅)) := by
  constructor
  · rw [← coe_foldl_extendAll, Multiset.filter_coe, omissions]
    exact congrArg _ (List.filter_congr fun alternative _ => by cases alternative <;> simp)
  · rw [without_empty]
    intro nonempty
    obtain ⟨rest, same⟩ : ∃ rest, (visible symbols).foldl (extendAll nullable) [[]] = visible symbols :: rest :=
      head_foldl_extendAll [] []
    rw [omissions, same, List.filter_cons, if_pos (by simpa using nonempty), List.head?_cons]

/-- `A` alone is left behind by two sets of positions, and the set of both leaves nothing. -/
theorem repeated_omissions :
    let nullable : SymbolSet := {.nonterminal "A"}
    let symbols : List Symbol := [.nonterminal "A", .epsilon, .nonterminal "A"]
    without symbols ∅ ≠ [] ∧ (omissions nullable symbols).head? = some [.nonterminal "A", .nonterminal "A"] ∧
      (omissions nullable symbols : Multiset Alternative).count [.nonterminal "A"] = 2 ∧
      (omissions nullable symbols : Multiset Alternative).count [] = 0 := by
  intro nullable symbols
  obtain ⟨each, first⟩ := omissions_exact nullable symbols
  have nonempty : without symbols ∅ ≠ [] := by decide
  refine ⟨nonempty, first nonempty, ?_⟩
  rw [each]
  decide +kernel

end TopDownGrammar
