import Mathlib.Data.List.Basic
import TopDownGrammar.Grammar.Checked
import TopDownGrammar.Proofs.Rules
import TopDownGrammar.Proofs.SymbolTexts
import TopDownGrammar.Proofs.Traversals

/-! Grammars built from productions made by hand. What passes the checks is well-formed and is what was given. The symbols
are looked at one by one, and the first that is out of place is reported. If none is, the productions are brought together
by their left-hand sides, each with its own in the order given, and nothing happens to them but that the empty string is
written out. -/

namespace TopDownGrammar

variable {symbol lhs start : Symbol} {rhs : List Symbol} {name : Name} {production : Production}
  {productions : List (Symbol × List Symbol)} {g : Grammar}

private theorem nameOf_eq_ok : symbol.nameOf = .ok name ↔ symbol = .nonterminal name ∧ isName name = true := by
  cases symbol with
  | nonterminal other => rw [Symbol.nameOf, readName_eq_ok, Symbol.nonterminal.injEq]
  | _ => simp [Symbol.nameOf]

theorem checkProduction_eq_ok : checkProduction lhs rhs = .ok production ↔
    (lhs = .nonterminal production.lhs ∧ isName production.lhs = true) ∧ (∀ symbol ∈ rhs, symbol.check = .ok ()) ∧
      production.rhs = written rhs := by
  simp only [checkProduction, bind_eq_ok, nameOf_eq_ok]
  constructor
  · intro found
    obtain ⟨name, named, ⟨⟩, checked, same⟩ := found
    obtain rfl := Except.ok.inj same
    exact ⟨named, forM_eq_ok.mp checked, rfl⟩
  · intro found
    obtain ⟨named, checked, same⟩ := found
    exact ⟨_, named, (), forM_eq_ok.mpr checked, congrArg Except.ok (congrArg (Production.mk _) same.symm)⟩

private theorem admissible_of_checked (checked : checkProduction lhs rhs = .ok production) : Grammar.Admissible production := by
  obtain ⟨⟨_, named⟩, symbols, same⟩ := checkProduction_eq_ok.mp checked
  refine ⟨named, ?_, same ▸ written_ne_nil rhs⟩
  intro symbol member
  rcases mem_written (same ▸ member) with rfl | inside
  · rfl
  · exact symbols symbol inside

namespace Grammar

theorem build_eq_ok : build start productions = .ok g ↔ ∃ name checked,
    (start = .nonterminal name ∧ isName name = true) ∧
      List.Forall₂ (fun entry production => checkProduction entry.1 entry.2 = .ok production) productions checked ∧
      g = ofProductions name checked := by
  simp only [build, bind_eq_ok, nameOf_eq_ok, mapM_eq_ok]
  apply exists_congr
  intro name
  constructor
  · intro found
    obtain ⟨named, checked, all, same⟩ := found
    exact ⟨checked, named, all, (Except.ok.inj same).symm⟩
  · intro found
    obtain ⟨checked, named, all, rfl⟩ := found
    exact ⟨named, checked, all, rfl⟩

theorem wellFormed_build (built : build start productions = .ok g) : g.WellFormed := by
  obtain ⟨name, checked, ⟨_, named⟩, all, rfl⟩ := build_eq_ok.mp built
  apply wellFormed_ofProductions named
  intro production member
  obtain ⟨_, _, passed⟩ := exists_entry all member
  exact admissible_of_checked passed

theorem listed_build (built : build start productions = .ok g) {rhs : List Symbol}
    (member : (start, rhs) ∈ productions) : g.start ∈ g.nonterminals := by
  obtain ⟨name, checked, ⟨rfl, _⟩, all, rfl⟩ := build_eq_ok.mp built
  obtain ⟨production, present, passed⟩ := exists_result all member
  obtain ⟨⟨same, _⟩, _⟩ := checkProduction_eq_ok.mp passed
  obtain rfl : name = production.lhs := Symbol.nonterminal.inj same
  exact mem_nonterminals_ofProductions.mpr ⟨production.rhs, present⟩

theorem terminal_build_iff (built : build start productions = .ok g) {text : String} :
    (∃ entry ∈ productions, .terminal text ∈ entry.2) ↔
      ∃ name, ∃ alternative ∈ g.alternatives name, .terminal text ∈ alternative := by
  obtain ⟨name, checked, _, all, rfl⟩ := build_eq_ok.mp built
  simp only [mem_alternatives_ofProductions]
  constructor
  · intro found
    obtain ⟨entry, member, inside⟩ := found
    obtain ⟨⟨lhs, rhs⟩, present, passed⟩ := exists_result all member
    obtain ⟨_, _, rfl⟩ := checkProduction_eq_ok.mp passed
    refine ⟨lhs, _, present, ?_⟩
    rw [written, if_neg (by simpa using List.ne_nil_of_mem inside)]
    exact inside
  · intro found
    obtain ⟨lhs, alternative, member, inside⟩ := found
    obtain ⟨entry, present, passed⟩ := exists_entry all member
    obtain ⟨_, _, rfl⟩ := checkProduction_eq_ok.mp passed
    exact ⟨entry, present, (mem_written inside).resolve_left (by simp)⟩

end Grammar

/-! What is refused. -/

def Symbol.isNamed : Symbol → Bool
  | nonterminal name => isName name
  | _ => false

/-- A symbol given for a grammar, with the side of the production that it is given for. The start is given like
a left-hand side. -/
inductive Given where
  | left (symbol : Symbol)
  | right (symbol : Symbol)

def Given.fault? : Given → Option SymbolError
  | left symbol => if symbol.isNamed then none else some (.expected symbol.text .nonterminal)
  | right symbol => fault symbol.check

def givens (start : Symbol) (productions : List (Symbol × List Symbol)) : List Given :=
  .left start :: productions.flatMap fun entry => .left entry.1 :: entry.2.map .right

private theorem fault_nameOf (symbol : Symbol) : fault symbol.nameOf = (Given.left symbol).fault? := by
  cases symbol with
  | nonterminal name =>
    by_cases named : isName name = true <;>
      simp [Symbol.nameOf, readName, Given.fault?, Symbol.isNamed, Symbol.text, named, fault]
  | _ => rfl

private theorem fault_checkProduction (lhs : Symbol) (rhs : List Symbol) :
    fault (checkProduction lhs rhs) = (Given.left lhs :: rhs.map .right).findSome? Given.fault? := by
  have symbols : ∀ name : Name, fault (do rhs.forM Symbol.check; pure (Production.mk name (written rhs))) =
      (rhs.map Given.right).findSome? Given.fault? := by
    intro name
    rw [fault_bind_pure, fault_forM, List.findSome?_map]
    rfl
  rw [checkProduction, fault_bind symbols, fault_nameOf, findSome?_cons_or]

namespace Grammar

/-- Building fails with the fault of the first symbol that has one. -/
theorem fault_build (start : Symbol) (productions : List (Symbol × List Symbol)) :
    fault (build start productions) = (givens start productions).findSome? Given.fault? := by
  let check : Symbol × List Symbol → Except SymbolError Production := fun entry => checkProduction entry.1 entry.2
  have opened : build start productions =
      (do let name ← start.nameOf; let checked ← productions.mapM check; pure (ofProductions name checked)) := rfl
  have entries : ∀ name : Name, fault (do let checked ← productions.mapM check; pure (ofProductions name checked)) =
      (productions.flatMap fun entry => .left entry.1 :: entry.2.map .right).findSome? Given.fault? := by
    intro name
    rw [fault_bind_pure, fault_mapM, findSome?_flatMap]
    simp only [check, fault_checkProduction]
  rw [opened, fault_bind entries, fault_nameOf, givens, findSome?_cons_or]

theorem exists_build_iff : (∃ g, build start productions = .ok g) ↔ start.isNamed = true ∧
    ∀ entry ∈ productions, entry.1.isNamed = true ∧ ∀ symbol ∈ entry.2, symbol.check = .ok () := by
  have left : ∀ symbol : Symbol, (Given.left symbol).fault? = none ↔ symbol.isNamed = true := by
    simp [Given.fault?]
  have right : ∀ symbol : Symbol, (Given.right symbol).fault? = none ↔ symbol.check = .ok () :=
    fun symbol => fault_eq_none.trans ⟨fun ⟨_, passed⟩ => passed, fun passed => ⟨_, passed⟩⟩
  rw [← fault_eq_none, fault_build, givens, List.findSome?_eq_none_iff]
  simp only [List.forall_mem_cons, List.forall_mem_flatMap, List.forall_mem_map, left, right]

end Grammar

/-! What becomes of the productions. -/

/-- The entries stand together by key, the keys in the order in which the list given first has them and the entries
of each key in their own order. -/
structure StablyGrouped {α κ : Type} [DecidableEq κ] (key : α → κ) (given grouped : List α) : Prop where
  order : grouped.Pairwise fun first second =>
    (given.map key).idxOf (key first) ≤ (given.map key).idxOf (key second)
  stable : ∀ shared, grouped.filter (key · = shared) = given.filter (key · = shared)

section Grouping

variable {α κ : Type} [DecidableEq κ] {key : α → κ} {given grouped : List α}

/-- Nothing is lost and nothing is repeated, because an entry counts under its own key only. -/
theorem StablyGrouped.perm [DecidableEq α] (sorted : StablyGrouped key given grouped) : grouped.Perm given := by
  apply List.perm_iff_count.mpr
  intro entry
  have own : ∀ entries : List α, (entries.filter (key · = key entry)).count entry = entries.count entry :=
    fun entries => List.count_filter (by simp)
  rw [← own grouped, sorted.stable, own given]

private theorem distinct_ordered (entries : List κ) :
    (distinct entries).Pairwise fun first second => entries.idxOf first < entries.idxOf second := by
  induction entries with
  | nil => exact .nil
  | cons head rest ih =>
    apply List.pairwise_cons.mpr
    constructor
    · intro other member
      have different : head ≠ other := Ne.symm (by simpa using (List.mem_filter.mp member).2)
      rw [List.idxOf_cons_self, List.idxOf_cons_ne _ different]
      exact Nat.succ_pos _
    · apply (ih.filter _).imp_of_mem
      intro first second inFirst inSecond before
      have notFirst : head ≠ first := Ne.symm (by simpa using (List.mem_filter.mp inFirst).2)
      have notSecond : head ≠ second := Ne.symm (by simpa using (List.mem_filter.mp inSecond).2)
      rw [List.idxOf_cons_ne _ notFirst, List.idxOf_cons_ne _ notSecond]
      exact Nat.succ_lt_succ before

private theorem filter_blocks {keys : List κ} (once : keys.Nodup) (shared : κ) :
    (keys.flatMap fun k => given.filter (key · = k)).filter (key · = shared) =
      if shared ∈ keys then given.filter (key · = shared) else [] := by
  induction keys with
  | nil => rfl
  | cons k rest ih =>
    obtain ⟨absent, later⟩ := List.nodup_cons.mp once
    rw [List.flatMap_cons, List.filter_append, ih later]
    by_cases same : k = shared
    · subst same
      rw [if_neg absent, if_pos List.mem_cons_self, List.append_nil, List.filter_filter]
      simp only [Bool.and_self]
    · have none : (given.filter (key · = k)).filter (key · = shared) = [] := by
        apply List.filter_eq_nil_iff.mpr
        intro entry member found
        exact same ((of_decide_eq_true (List.mem_filter.mp member).2).symm.trans (of_decide_eq_true found))
      rw [none, List.nil_append]
      simp only [List.mem_cons, Ne.symm same, false_or]

private theorem stablyGrouped_blocks (key : α → κ) (given : List α) :
    StablyGrouped key given ((distinct (given.map key)).flatMap fun shared => given.filter (key · = shared)) where
  order := by
    have keyOf : ∀ shared, ∀ entry ∈ given.filter (key · = shared), key entry = shared :=
      fun shared entry member => of_decide_eq_true (List.mem_filter.mp member).2
    apply List.pairwise_flatMap.mpr
    constructor
    · intro shared _
      apply List.pairwise_of_forall_mem_list
      intro first inFirst second inSecond
      have same := (keyOf shared first inFirst).trans (keyOf shared second inSecond).symm
      exact Nat.le_of_eq (congrArg (given.map key).idxOf same)
    · apply (distinct_ordered _).imp
      intro earlier later before first inFirst second inSecond
      rw [keyOf earlier first inFirst, keyOf later second inSecond]
      exact Nat.le_of_lt before
  stable shared := by
    rw [filter_blocks (nodup_distinct _)]
    split
    next => rfl
    next absent =>
      apply Eq.symm
      apply List.filter_eq_nil_iff.mpr
      intro entry member same
      exact absent (mem_distinct.mpr (List.mem_map.mpr ⟨entry, member, of_decide_eq_true same⟩))

end Grouping

namespace Grammar

theorem stablyGrouped_ofProductions (start : Name) (productions : List Production) :
    StablyGrouped Production.lhs productions (ofProductions start productions).productions := by
  rw [productions_ofProductions]
  exact stablyGrouped_blocks Production.lhs productions

private theorem unchecked_of_checked {checked : List Production}
    (all : List.Forall₂ (fun entry production => checkProduction entry.1 entry.2 = .ok production) productions checked) :
    checked.map Production.unchecked = productions.map fun entry => (entry.1, written entry.2) := by
  induction all with
  | nil => rfl
  | cons here _ ih =>
    obtain ⟨⟨lhs, _⟩, _, rhs⟩ := checkProduction_eq_ok.mp here
    rw [List.map_cons, List.map_cons, ih, Production.unchecked, lhs, rhs]

/-- Productions that could have been read are built without change. -/
theorem build_unchecked {start : Name} {productions : List Production} (named : isName start = true)
    (admissible : ∀ production ∈ productions, Admissible production) :
    build (.nonterminal start) (productions.map Production.unchecked) = .ok (ofProductions start productions) := by
  apply build_eq_ok.mpr
  refine ⟨start, productions, ⟨rfl, named⟩, ?_, rfl⟩
  rw [List.forall₂_map_left_iff, List.forall₂_same]
  intro production member
  have fit := admissible production member
  refine checkProduction_eq_ok.mpr ⟨⟨rfl, fit.lhs⟩, fit.symbols, ?_⟩
  rw [Production.unchecked, written, if_neg (by simpa using fit.nonempty)]

theorem WellFormed.build_productions (wellFormed : g.WellFormed) :
    build (.nonterminal g.start) (g.productions.map Production.unchecked) = .ok g := by
  rw [build_unchecked wellFormed.start fun _ => wellFormed.admissible,
    ofProductions_self wellFormed.owned wellFormed.once]

/-- A grammar is built from the symbols given unless one of them is out of place, and then the first such is
reported. Its productions are those given, gathered by left-hand side, so that what stands together already stays
as it is. -/
theorem build_exact (start : Symbol) (productions : List (Symbol × List Symbol)) :
    ((∃ g, build start productions = .ok g) ↔ start.isNamed = true ∧
      ∀ entry ∈ productions, entry.1.isNamed = true ∧ ∀ symbol ∈ entry.2, symbol.check = .ok ()) ∧
    (∀ cause, build start productions = .error cause ↔
      (givens start productions).findSome? Given.fault? = some cause) ∧
    (∀ g, build start productions = .ok g → g.WellFormed ∧ start = .nonterminal g.start ∧
      ∃ given, given.map Production.unchecked = productions.map (fun entry => (entry.1, written entry.2)) ∧
        g.productions.Perm given ∧ StablyGrouped Production.lhs given g.productions) ∧
    (∀ g : Grammar, g.WellFormed → build (.nonterminal g.start) (g.productions.map Production.unchecked) = .ok g) := by
  refine ⟨exists_build_iff, ?_, ?_, fun _ => WellFormed.build_productions⟩
  · intro cause
    rw [← fault_eq_some, fault_build]
  · intro g built
    have wellFormed := wellFormed_build built
    obtain ⟨name, checked, ⟨rfl, _⟩, all, rfl⟩ := build_eq_ok.mp built
    have sorted := stablyGrouped_ofProductions name checked
    exact ⟨wellFormed, rfl, checked, unchecked_of_checked all, sorted.perm, sorted⟩

/-- `A` comes first because it owns the production given first, and both of its empty alternatives are kept. -/
example : build (.nonterminal "S")
    [(.nonterminal "A", []), (.nonterminal "S", [.terminal "s"]), (.nonterminal "A", [.terminal "a"]), (.nonterminal "A", [])] =
      .ok ⟨"S", [⟨"A", [[.epsilon], [.terminal "a"], [.epsilon]]⟩, ⟨"S", [[.terminal "s"]]⟩]⟩ := by
  decide +kernel

end Grammar

end TopDownGrammar
