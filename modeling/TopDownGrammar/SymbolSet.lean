import TopDownGrammar.Symbol

/-! Finite sets of symbols as ascending lists, and families of them, with a set for each of some nonterminals. The list
is determined by the members, so two sets with the same members are equal. A family lists its nonterminals in the order
in which they were put in. -/

namespace TopDownGrammar

structure SymbolSet where
  toList : List Symbol
  ascending : toList.Pairwise (· < ·)
deriving DecidableEq

namespace SymbolSet

def empty : SymbolSet := ⟨[], .nil⟩

instance : EmptyCollection SymbolSet := ⟨empty⟩

instance : Inhabited SymbolSet := ⟨empty⟩

instance : Membership Symbol SymbolSet := ⟨fun set symbol => symbol ∈ set.toList⟩

instance (symbol : Symbol) (set : SymbolSet) : Decidable (symbol ∈ set) :=
  inferInstanceAs (Decidable (symbol ∈ set.toList))

@[simp] theorem not_mem_empty (symbol : Symbol) : symbol ∉ (∅ : SymbolSet) := List.not_mem_nil

def isEmpty (set : SymbolSet) : Bool := set.toList.isEmpty

/-- Puts a symbol in its place in an ascending list that may already hold it. -/
def place (symbol : Symbol) : List Symbol → List Symbol
  | [] => [symbol]
  | head :: rest =>
    if symbol < head then symbol :: head :: rest
    else if symbol = head then head :: rest
    else head :: place symbol rest

theorem mem_place {symbol other : Symbol} {members : List Symbol} :
    other ∈ place symbol members ↔ other = symbol ∨ other ∈ members := by
  induction members with
  | nil => simp [place]
  | cons head rest ih =>
    unfold place
    split
    · simp
    · split
      next same => subst same; simp
      next => simp only [List.mem_cons, ih]; exact or_left_comm

private theorem place_ascending {symbol : Symbol} {members : List Symbol}
    (ascending : members.Pairwise (· < ·)) : (place symbol members).Pairwise (· < ·) := by
  induction members with
  | nil => simp [place]
  | cons head rest ih =>
    obtain ⟨above, tail⟩ := List.pairwise_cons.1 ascending
    unfold place
    split
    next below =>
      refine List.pairwise_cons.2 ⟨fun other present => ?_, ascending⟩
      obtain rfl | later := List.mem_cons.1 present
      · exact below
      · exact Symbol.lt_trans below (above other later)
    next notBelow =>
      split
      next => exact ascending
      next different =>
        refine List.pairwise_cons.2 ⟨fun other present => ?_, ih tail⟩
        obtain rfl | later := mem_place.1 present
        · exact (Symbol.lt_or_eq_or_gt _ head).resolve_left notBelow |>.resolve_left different
        · exact above other later

def insert (set : SymbolSet) (symbol : Symbol) : SymbolSet :=
  ⟨place symbol set.toList, place_ascending set.ascending⟩

@[simp] theorem mem_insert {set : SymbolSet} {symbol other : Symbol} :
    other ∈ set.insert symbol ↔ other = symbol ∨ other ∈ set := mem_place

def insertAll (set : SymbolSet) (symbols : List Symbol) : SymbolSet :=
  symbols.foldl insert set

@[simp] theorem mem_insertAll {set : SymbolSet} {symbols : List Symbol} {other : Symbol} :
    other ∈ set.insertAll symbols ↔ other ∈ symbols ∨ other ∈ set := by
  induction symbols generalizing set with
  | nil => simp [insertAll]
  | cons head rest ih =>
    have unfolded : set.insertAll (head :: rest) = (set.insert head).insertAll rest := rfl
    rw [unfolded, ih, mem_insert, List.mem_cons]
    exact or_left_comm.trans (or_assoc.symm)

def ofList (symbols : List Symbol) : SymbolSet := empty.insertAll symbols

@[simp] theorem mem_ofList {symbols : List Symbol} {other : Symbol} :
    other ∈ ofList symbols ↔ other ∈ symbols := by
  have empty_mem : other ∈ empty ↔ False := iff_false_intro (not_mem_empty other)
  rw [ofList, mem_insertAll, empty_mem, or_false]

instance : Singleton Symbol SymbolSet := ⟨fun symbol => ⟨[symbol], List.pairwise_singleton ..⟩⟩

@[simp] theorem mem_singleton {symbol other : Symbol} :
    other ∈ ({symbol} : SymbolSet) ↔ other = symbol := List.mem_singleton

instance : Union SymbolSet := ⟨fun first second => first.insertAll second.toList⟩

@[simp] theorem mem_union {first second : SymbolSet} {symbol : Symbol} :
    symbol ∈ first ∪ second ↔ symbol ∈ first ∨ symbol ∈ second :=
  mem_insertAll.trans Or.comm

def filter (set : SymbolSet) (keep : Symbol → Bool) : SymbolSet :=
  ⟨set.toList.filter keep, set.ascending.filter _⟩

@[simp] theorem mem_filter {set : SymbolSet} {keep : Symbol → Bool} {symbol : Symbol} :
    symbol ∈ set.filter keep ↔ symbol ∈ set ∧ keep symbol = true := List.mem_filter

def erase (set : SymbolSet) (symbol : Symbol) : SymbolSet := set.filter (· ≠ symbol)

@[simp] theorem mem_erase {set : SymbolSet} {symbol other : Symbol} :
    other ∈ set.erase symbol ↔ other ∈ set ∧ other ≠ symbol := by simp [erase]

instance : Inter SymbolSet := ⟨fun first second => first.filter (· ∈ second)⟩

@[simp] theorem mem_inter {first second : SymbolSet} {symbol : Symbol} :
    symbol ∈ first ∩ second ↔ symbol ∈ first ∧ symbol ∈ second :=
  mem_filter.trans (by simp)

private theorem toList_inj {first second : List Symbol} (ascendingFirst : first.Pairwise (· < ·))
    (ascendingSecond : second.Pairwise (· < ·)) (same : ∀ symbol, symbol ∈ first ↔ symbol ∈ second) :
    first = second := by
  induction first generalizing second with
  | nil => exact (List.eq_nil_iff_forall_not_mem.2 fun symbol present => by simpa using (same symbol).2 present).symm
  | cons a rest ih =>
    cases second with
    | nil => exact absurd ((same a).1 List.mem_cons_self) List.not_mem_nil
    | cons b others =>
      obtain ⟨aboveA, restAscending⟩ := List.pairwise_cons.1 ascendingFirst
      obtain ⟨aboveB, othersAscending⟩ := List.pairwise_cons.1 ascendingSecond
      have heads : a = b := by
        obtain equal | inside := List.mem_cons.1 ((same a).1 List.mem_cons_self)
        · exact equal
        · obtain equal | outside := List.mem_cons.1 ((same b).2 List.mem_cons_self)
          · exact equal.symm
          · exact absurd (Symbol.lt_trans (aboveB a inside) (aboveA b outside)) (Symbol.lt_irrefl b)
      subst heads
      congr 1
      refine ih restAscending othersAscending fun symbol => ⟨fun present => ?_, fun present => ?_⟩
      · obtain rfl | inside := List.mem_cons.1 ((same symbol).1 (List.mem_cons_of_mem _ present))
        · exact absurd (aboveA symbol present) (Symbol.lt_irrefl symbol)
        · exact inside
      · obtain rfl | inside := List.mem_cons.1 ((same symbol).2 (List.mem_cons_of_mem _ present))
        · exact absurd (aboveB symbol present) (Symbol.lt_irrefl symbol)
        · exact inside

theorem ext {first second : SymbolSet} (same : ∀ symbol, symbol ∈ first ↔ symbol ∈ second) :
    first = second := by
  obtain ⟨members, ascending⟩ := first
  obtain ⟨others, othersAscending⟩ := second
  obtain rfl : members = others := toList_inj ascending othersAscending same
  rfl

end SymbolSet

structure SetFamily where
  entries : List (Name × SymbolSet)
deriving DecidableEq

namespace SetFamily

def keys (family : SetFamily) : List Name :=
  family.entries.map (·.1)

def get? (family : SetFamily) (name : Name) : Option SymbolSet :=
  family.entries.lookup name

/-- The set of a nonterminal, empty if it has none. -/
def get (family : SetFamily) (name : Name) : SymbolSet :=
  (family.get? name).getD ∅

def tabulate (names : List Name) (set : Name → SymbolSet) : SetFamily :=
  ⟨names.map fun name => (name, set name)⟩

theorem keys_tabulate (names : List Name) (set : Name → SymbolSet) : (tabulate names set).keys = names := by
  simp [keys, tabulate, Function.comp_def]

theorem get?_tabulate (names : List Name) (set : Name → SymbolSet) (name : Name) :
    (tabulate names set).get? name = if name ∈ names then some (set name) else none := by
  induction names with
  | nil => rfl
  | cons head rest ih =>
    simp only [get?, tabulate, List.map_cons, List.lookup_cons] at ih ⊢
    by_cases same : name = head
    · subst same; simp
    · simp [same, ih, beq_eq_false_iff_ne.2 same]

def map (change : SymbolSet → SymbolSet) (family : SetFamily) : SetFamily :=
  ⟨family.entries.map fun entry => (entry.1, change entry.2)⟩

theorem map_tabulate (change : SymbolSet → SymbolSet) (names : List Name) (set : Name → SymbolSet) :
    (tabulate names set).map change = tabulate names fun name => change (set name) := by
  simp [map, tabulate]

/-- Gives a set to a nonterminal, in the place of the one that it has. -/
def put (family : SetFamily) (name : Name) (set : SymbolSet) : SetFamily :=
  if family.keys.contains name then
    ⟨family.entries.map fun entry => if entry.1 = name then (name, set) else entry⟩
  else ⟨family.entries ++ [(name, set)]⟩

/-- Of two entries for one nonterminal the later counts. Entries for other symbols are left out,
because only nonterminals are ever looked up. -/
def ofList (entries : List (Symbol × SymbolSet)) : SetFamily :=
  entries.foldl (fun family (key, set) => match key with
    | .nonterminal name => family.put name set
    | _ => family) ⟨[]⟩

def members (family : SetFamily) : List Symbol :=
  family.entries.flatMap (·.2.toList)

end SetFamily

end TopDownGrammar
