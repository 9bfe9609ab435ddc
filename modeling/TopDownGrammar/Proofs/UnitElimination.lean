import TopDownGrammar.Proofs.ClosureSets
import TopDownGrammar.Proofs.UnitClosures

/-! Taking the alternatives that are a single nonterminal out of a grammar. A chain of them ends in
an alternative of another kind, and that alternative is taken over by everything on the chain, so
every nonterminal keeps all of its sentences. -/

namespace TopDownGrammar

theorem isUnit_iff {alternative : Alternative} :
    isUnit alternative = true ↔ ∃ name, alternative = [.nonterminal name] := by
  unfold isUnit
  split
  next name => exact iff_of_true rfl ⟨name, rfl⟩
  next other =>
    refine iff_of_false Bool.false_ne_true ?_
    intro unit
    obtain ⟨name, same⟩ := unit
    exact other name same

namespace Grammar

variable {g : Grammar} {name other : Name} {alternative : Alternative}

theorem mem_alternatives_unitFree (once : g.nonterminals.Nodup) :
    alternative ∈ g.unitFree.alternatives name ↔
      name ∈ g.nonterminals ∧ ∃ other, Relation.ReflTransGen g.UnitLeads name other ∧
        alternative ∈ g.alternatives other ∧ isUnit alternative = false := by
  have taken : ∀ other, alternative ∈ (g.alternatives other).filter (!isUnit ·) ↔
      alternative ∈ g.alternatives other ∧ isUnit alternative = false := by
    intro other
    simp [List.mem_filter]
  simp only [unitFree, mem_alternatives_ofProductions, mem_distinct, List.mem_flatMap, List.mem_map]
  constructor
  · intro found
    obtain ⟨first, listed, other, inside, _, kept, same⟩ := found
    obtain ⟨rfl, rfl⟩ := Production.mk.inj same
    obtain ⟨_, close⟩ := List.mem_filter.mp inside
    exact ⟨listed, other, (mem_unitClosure once listed).mp (of_decide_eq_true close), (taken other).mp kept⟩
  · intro found
    obtain ⟨listed, other, path, kept⟩ := found
    refine ⟨name, listed, other, List.mem_filter.mpr ⟨mem_nonterminals_of_alternative kept.1, ?_⟩,
      alternative, (taken other).mpr kept, rfl⟩
    exact decide_eq_true ((mem_unitClosure once listed).mpr path)

theorem start_unitFree (g : Grammar) : g.unitFree.start = g.start := rfl

theorem nodup_productions_unitFree (g : Grammar) : g.unitFree.productions.Nodup :=
  nodup_productions_ofProductions _ (nodup_distinct _)

theorem wellFormed_unitFree (wellFormed : g.WellFormed) : g.unitFree.WellFormed := by
  refine wellFormed_ofProductions wellFormed.start ?_
  intro production listed
  have owned : production.rhs ∈ g.unitFree.alternatives production.lhs :=
    mem_alternatives_ofProductions.mpr listed
  obtain ⟨known, other, _, held, _⟩ := (mem_alternatives_unitFree wellFormed.once).mp owned
  obtain ⟨rule, member, same⟩ := List.mem_map.mp known
  have good := wellFormed.admissible_alternative held
  exact ⟨same ▸ wellFormed.names rule member, good.symbols, good.nonempty⟩

private theorem language_le_of_path (path : Relation.ReflTransGen g.UnitLeads name other) :
    g.language other ≤ g.language name := by
  induction path with
  | refl => exact le_refl _
  | tail _ leads ih =>
    refine le_trans ?_ ih
    intro sentence generates
    apply g.language_closed _ _ leads.1
    rwa [reading_singleton]

theorem language_unitFree (once : g.nonterminals.Nodup) (name : Name) : g.unitFree.language name = g.language name := by
  apply le_antisymm
  · apply language_le
    intro name alternative owned sentence read
    obtain ⟨_, other, path, held, _⟩ := (mem_alternatives_unitFree once).mp owned
    exact language_le_of_path path (g.language_closed other alternative held read)
  · apply language_le
    intro name alternative owned sentence read
    cases unit : isUnit alternative with
    | false =>
      refine language_closed _ name alternative ?_ read
      exact (mem_alternatives_unitFree once).mpr ⟨mem_nonterminals_of_alternative owned, name, .refl, owned, unit⟩
    | true =>
      obtain ⟨target, rfl⟩ := isUnit_iff.mp unit
      rw [reading_singleton] at read
      obtain ⟨final, taken, inside⟩ := language_unfold read
      obtain ⟨listed, other, path, held, kind⟩ := (mem_alternatives_unitFree once).mp taken
      refine language_closed _ name final ((mem_alternatives_unitFree once).mpr ?_) inside
      exact ⟨mem_nonterminals_of_alternative owned, other, path.head ⟨owned, listed⟩, held, kind⟩

/-! A grammar without units is left as it is. -/

/-- What a nonterminal takes over along its chains, in the order of the grammar. -/
def takenOver (g : Grammar) (name : Name) : List Production :=
  (g.nonterminals.filter (.nonterminal · ∈ g.unitClosure name)).flatMap fun other =>
    ((g.alternatives other).filter (!isUnit ·)).map (Production.mk name)

theorem unitFree_eq_takenOver (g : Grammar) :
    g.unitFree = .ofProductions g.start (distinct (g.nonterminals.flatMap g.takenOver)) := rfl

private theorem unitClosure_of_unitless (once : g.nonterminals.Nodup) (listed : name ∈ g.nonterminals)
    (unitless : ∀ alternative ∈ g.alternatives name, isUnit alternative = false) :
    .nonterminal other ∈ g.unitClosure name ↔ other = name := by
  rw [mem_unitClosure once listed]
  constructor
  · intro path
    rcases Relation.ReflTransGen.cases_head path with same | ⟨_, leads, _⟩
    · exact same.symm
    · cases unitless _ leads.1
  · rintro rfl
    exact .refl

/-- No chain begins at a nonterminal without units, so it takes over its own alternatives and no others. -/
theorem takenOver_of_unitless (once : g.nonterminals.Nodup) (listed : name ∈ g.nonterminals)
    (unitless : ∀ alternative ∈ g.alternatives name, isUnit alternative = false) :
    g.takenOver name = (g.alternatives name).map (Production.mk name) := by
  have own : g.nonterminals.filter (.nonterminal · ∈ g.unitClosure name) = [name] := by
    simp only [unitClosure_of_unitless once listed unitless]
    rw [List.filter_eq, List.count_eq_one_of_mem once listed]
    rfl
  have kept : (g.alternatives name).filter (!isUnit ·) = g.alternatives name :=
    List.filter_eq_self.mpr fun alternative owned => by simp [unitless alternative owned]
  rw [takenOver, own, List.flatMap_singleton, kept]

theorem unitFree_of_unitless (wellFormed : g.WellFormed) (nodup : g.productions.Nodup)
    (unitless : ∀ name, ∀ alternative ∈ g.alternatives name, isUnit alternative = false) : g.unitFree = g := by
  have taken : g.nonterminals.flatMap g.takenOver = g.productions := by
    rw [productions, rules_eq_map wellFormed.once, List.flatMap_map]
    exact List.flatMap_congr fun name listed => takenOver_of_unitless wellFormed.once listed (unitless name)
  rw [unitFree_eq_takenOver, taken, distinct_of_nodup nodup, ofProductions_self wellFormed.owned wellFormed.once]

theorem isUnit_unitFree (once : g.nonterminals.Nodup) (owned : alternative ∈ g.unitFree.alternatives name) :
    isUnit alternative = false := by
  obtain ⟨_, _, _, _, kind⟩ := (mem_alternatives_unitFree once).mp owned
  exact kind

/-- A closure is what a nonterminal reaches by units, each of which owns rules. Without the units there is no
repetition either, every nonterminal keeps its sentences, and a second time nothing is left to take out. -/
theorem unitFree_exact (wellFormed : g.WellFormed) :
    g.unitClosures.keys = g.nonterminals ∧
    (∀ name ∈ g.nonterminals, ∃ closure, g.unitClosures.get? name = some closure ∧ ∀ symbol, symbol ∈ closure ↔
      ∃ other, symbol = .nonterminal other ∧ Relation.ReflTransGen g.UnitLeads name other) ∧
    g.unitFree.start = g.start ∧
    (∀ name, ∀ alternative ∈ g.unitFree.alternatives name, ∀ other, alternative ≠ [.nonterminal other]) ∧
    (∀ name, (g.unitFree.alternatives name).Nodup) ∧
    (∀ name ∈ g.nonterminals, ∀ sentence, g.unitFree.Generates name sentence ↔ g.Generates name sentence) ∧
    g.unitFree.unitFree = g.unitFree := by
  have once := wellFormed.once
  have merged := merged_unitClosures once
  refine ⟨merged.keyed.keys, ?_, start_unitFree g, ?_, nodup_alternatives (nodup_productions_unitFree g),
    ?_, ?_⟩
  · intro name listed
    exact ⟨g.unitClosure name, merged.keyed.get? listed, fun symbol => mem_unitClosure_iff once listed⟩
  · rintro name _ owned other rfl
    cases isUnit_unitFree once owned
  · intro name _ sentence
    rw [← mem_language, language_unitFree once, mem_language]
  · exact unitFree_of_unitless (wellFormed_unitFree wellFormed) (nodup_productions_unitFree g)
      fun name alternative => isUnit_unitFree once

/-- The units of `S`, `A` and `B` go in a circle, with one aside to a nonterminal without rules. -/
def circling : Grammar :=
  ⟨"S", [⟨"S", [[.nonterminal "A"], [.terminal "a"], [.nonterminal "S", .nonterminal "S"]]⟩,
    ⟨"A", [[.nonterminal "B"], [.terminal "a"]]⟩,
    ⟨"B", [[.nonterminal "S"], [.nonterminal "Z"], [.nonterminal "C", .terminal "b"]]⟩,
    ⟨"C", [[.nonterminal "C"]]⟩]⟩

theorem circling_unitFree :
    circling.WellFormed ∧ circling.unitClosures.keys = ["S", "A", "B", "C"] ∧
      (∀ name ∈ ["S", "A", "B", "C"], ∀ sentence,
        circling.unitFree.Generates name sentence ↔ circling.Generates name sentence) ∧
      circling.unitFree.unitFree = circling.unitFree := by
  have wellFormed : circling.WellFormed := by decide
  obtain ⟨keys, _, _, _, _, sentences, again⟩ := unitFree_exact wellFormed
  exact ⟨wellFormed, keys, sentences, again⟩

end Grammar

end TopDownGrammar
