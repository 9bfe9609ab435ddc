import TopDownGrammar.Proofs.EpsilonElimination
import TopDownGrammar.Proofs.UnitElimination
import TopDownGrammar.Proofs.UsefulSymbols
import TopDownGrammar.Proper

/-! The proper form. Each of its transforms keeps the language and what the transforms before it have established: removing
units moves alternatives that are there already, and pruning only takes some away. Only the start can derive the empty
string then, and it stands in no alternative, so every symbol of an alternative is worth at least one terminal. -/

namespace TopDownGrammar.Grammar

/-- What holds of the proper form of a grammar that has sentences. -/
structure ProperForm (g : Grammar) : Prop where
  wellFormed : g.WellFormed
  epsilon : ∀ name, ∀ alternative ∈ g.alternatives name, .epsilon ∈ alternative →
    name = g.start ∧ alternative = [.epsilon]
  apart : [.epsilon] ∈ g.alternatives g.start →
    ∀ name, ∀ alternative ∈ g.alternatives name, .nonterminal g.start ∉ alternative
  noUnit : ∀ name, ∀ alternative ∈ g.alternatives name, ∀ other, alternative ≠ [.nonterminal other]
  owned : ∀ name, g.Occurs name → name ∈ g.nonterminals
  reached : ∀ name, g.Occurs name → ∃ before after,
    g.Derives [.nonterminal g.start] (before ++ .nonterminal name :: after)
  productive : ∀ name, g.Occurs name → ∃ sentence, g.Generates name sentence
  once : ∀ name, (g.alternatives name).Nodup

variable {g : Grammar} {name : Name} {alternative : Alternative}

theorem start_proper : g.proper.start = g.epsilonFree.start :=
  start_usefulOnly _

section Steps

variable (wellFormed : g.WellFormed)

include wellFormed

theorem wellFormed_beforePruning : g.epsilonFree.unitFree.WellFormed :=
  wellFormed_unitFree (wellFormed_epsilonFree wellFormed)

theorem wellFormed_proper : g.proper.WellFormed :=
  wellFormed_usefulOnly (wellFormed_beforePruning wellFormed)

private theorem language_unitFree_start :
    g.epsilonFree.unitFree.language g.epsilonFree.unitFree.start = g.language g.start := by
  rw [start_unitFree, language_unitFree (nodup_epsilonFree g), language_epsilonFree_start wellFormed]

private theorem language_pruned_start :
    g.epsilonFree.unitFree.productiveOnly.language g.epsilonFree.unitFree.productiveOnly.start =
      g.language g.start := by
  rw [start_productiveOnly, language_productiveOnly_start (wellFormed_beforePruning wellFormed),
    language_unitFree_start wellFormed]

theorem language_proper_start : g.proper.language g.proper.start = g.language g.start := by
  rw [proper, start_usefulOnly, language_usefulOnly_start (wellFormed_beforePruning wellFormed),
    language_unitFree_start wellFormed]

theorem beforePruning_productive_iff :
    .nonterminal g.epsilonFree.unitFree.start ∈ g.epsilonFree.unitFree.productive ↔
      ∃ sentence, g.Generates g.start sentence := by
  rw [nonterminal_mem_productive (wellFormed_beforePruning wellFormed), language_unitFree_start wellFormed]
  rfl

/-- Without sentences the start is not nullable either, so no new one takes its place. -/
theorem proper_of_barren (barren : ¬∃ sentence, g.Generates g.start sentence) : g.proper = idle g.start := by
  have unproductive := mt (beforePruning_productive_iff wellFormed).mp barren
  rw [proper, usefulOnly_of_barren unproductive, start_unitFree, start_epsilonFree, if_neg]
  intro vanishes
  exact barren ⟨[], (nonterminal_mem_nullable wellFormed).mp vanishes⟩

theorem leads_of_occurs_proper (occurs : g.proper.Occurs name) :
    Relation.ReflTransGen g.proper.Leads g.proper.start name := by
  rw [start_proper]
  exact leads_of_occurs (wellFormed_beforePruning wellFormed) occurs

section Nonempty

variable (nonempty : ∃ sentence, g.Generates g.start sentence)

include nonempty

theorem mem_alternatives_proper :
    alternative ∈ g.proper.alternatives name ↔
      alternative ∈ g.epsilonFree.unitFree.alternatives name ∧
        allProductive g.epsilonFree.unitFree.productive alternative = true ∧
        Relation.ReflTransGen g.epsilonFree.unitFree.productiveOnly.Leads g.epsilonFree.start name :=
  mem_alternatives_usefulOnly (wellFormed_beforePruning wellFormed)
    ((beforePruning_productive_iff wellFormed).mpr nonempty)

/-- An alternative of the proper form stands at the end of a chain of units. -/
theorem chain_of_proper (owned : alternative ∈ g.proper.alternatives name) :
    ∃ other, Relation.ReflTransGen g.epsilonFree.UnitLeads name other ∧
      alternative ∈ g.epsilonFree.alternatives other ∧ isUnit alternative = false := by
  have kept := ((mem_alternatives_proper wellFormed nonempty).mp owned).1
  exact ((mem_alternatives_unitFree (nodup_epsilonFree g)).mp kept).2

/-- No chain leads to the new start, so the empty string stays where it was put. -/
theorem epsilon_mem_proper (owned : alternative ∈ g.proper.alternatives name) (inside : .epsilon ∈ alternative) :
    name = g.proper.start ∧ alternative = [.epsilon] := by
  obtain ⟨other, path, held, _⟩ := chain_of_proper wellFormed nonempty owned
  obtain ⟨rfl, vanishes, same⟩ := epsilon_mem_epsilonFree wellFormed.once held inside
  refine ⟨?_, same⟩
  rw [start_proper, start_epsilonFree_of_nullable vanishes]
  rcases Relation.ReflTransGen.cases_tail path with fresh | ⟨before, _, unit, _⟩
  · exact fresh.symm
  · exact absurd List.mem_cons_self (newStart_not_mem_epsilonFree wellFormed.once unit)

theorem epsilon_proper_iff : [.epsilon] ∈ g.proper.alternatives g.proper.start ↔ g.Generates g.start [] := by
  have same : [] ∈ g.proper.language g.proper.start ↔ g.Generates g.start [] := by
    rw [language_proper_start wellFormed, mem_language]
  rw [← same]
  constructor
  · intro owned
    exact nil_mem_language owned
  · intro generates
    have vanishes : .nonterminal g.start ∈ g.nullable := (nonterminal_mem_nullable wellFormed).mpr (same.mp generates)
    have fresh : g.epsilonFree.start = g.freshName g.start := start_epsilonFree_of_nullable vanishes
    have held : [.epsilon] ∈ g.epsilonFree.alternatives g.epsilonFree.start := by
      rw [fresh]
      exact (mem_alternatives_newStart wellFormed vanishes).mpr (Or.inr rfl)
    rw [start_proper]
    refine (mem_alternatives_proper wellFormed nonempty).mpr ⟨?_, rfl, .refl⟩
    refine (mem_alternatives_unitFree (nodup_epsilonFree g)).mpr ⟨?_, _, .refl, held, rfl⟩
    exact mem_nonterminals_of_alternative held

private theorem start_not_mem_proper (vanishes : [.epsilon] ∈ g.proper.alternatives g.proper.start)
    (owned : alternative ∈ g.proper.alternatives name) : .nonterminal g.proper.start ∉ alternative := by
  obtain ⟨_, _, held, _⟩ := chain_of_proper wellFormed nonempty owned
  have empty : .nonterminal g.start ∈ g.nullable :=
    (nonterminal_mem_nullable wellFormed).mpr ((epsilon_proper_iff wellFormed nonempty).mp vanishes)
  rw [start_proper, start_epsilonFree_of_nullable empty]
  exact newStart_not_mem_epsilonFree wellFormed.once held

theorem properForm_proper : g.proper.ProperForm where
  wellFormed := wellFormed_proper wellFormed
  epsilon _ _ owned inside := epsilon_mem_proper wellFormed nonempty owned inside
  apart vanishes _ _ owned := start_not_mem_proper wellFormed nonempty vanishes owned
  noUnit name alternative owned other same := by
    obtain ⟨_, _, _, kind⟩ := chain_of_proper wellFormed nonempty owned
    rw [same] at kind
    cases kind
  owned _ occurs := owned_of_occurs (wellFormed_beforePruning wellFormed)
    ((beforePruning_productive_iff wellFormed).mpr nonempty) occurs
  reached name occurs := by
    obtain ⟨before, after, _, _, derives⟩ := derives_of_leads (leads_of_occurs_proper wellFormed occurs)
    exact ⟨before, after, derives⟩
  productive _ occurs := nonempty_of_occurs (wellFormed_beforePruning wellFormed)
    ((beforePruning_productive_iff wellFormed).mpr nonempty) occurs
  once := nodup_alternatives (nodup_productions_usefulOnly (nodup_productions_unitFree _))

end Nonempty

/-- Every grammar on the way to the proper form generates the sentences of the grammar. The last is
proper if there are any, and otherwise replaces the start by itself. -/
theorem normalization_proper :
    (∀ step ∈ [g.normalization.epsilonFree, g.normalization.unitFree, g.normalization.productiveOnly,
        g.normalization.proper], ∀ sentence, step.Generates step.start sentence ↔ g.Generates g.start sentence) ∧
    ((∃ sentence, g.Generates g.start sentence) → g.normalization.proper.ProperForm ∧
      ([.epsilon] ∈ g.normalization.proper.alternatives g.normalization.proper.start ↔ g.Generates g.start [])) ∧
    ((¬∃ sentence, g.Generates g.start sentence) →
      g.normalization.proper = ⟨g.start, [⟨g.start, [[.nonterminal g.start]]⟩]⟩) := by
  simp only [normalization]
  refine ⟨?_, ?_, ?_⟩
  · intro step member sentence
    rw [← mem_language, ← mem_language]
    have same : step.language step.start = g.language g.start := by
      simp only [List.mem_cons, List.not_mem_nil, or_false] at member
      rcases member with rfl | rfl | rfl | rfl
      · exact language_epsilonFree_start wellFormed
      · exact language_unitFree_start wellFormed
      · exact language_pruned_start wellFormed
      · exact language_proper_start wellFormed
    rw [same]
  · intro nonempty
    exact ⟨properForm_proper wellFormed nonempty, epsilon_proper_iff wellFormed nonempty⟩
  · intro barren
    have idles := proper_of_barren wellFormed barren
    rwa [idle_eq] at idles

end Steps

def bracketed : Grammar :=
  ⟨"S", [⟨"S", [[.nonterminal "A", .epsilon, .nonterminal "B"], [.nonterminal "C"]]⟩,
    ⟨"A", [[.terminal "a", .nonterminal "A", .terminal "b"], [.epsilon]]⟩,
    ⟨"B", [[.nonterminal "A"], [.nonterminal "B"]]⟩]⟩

theorem bracketed_proper :
    bracketed.WellFormed ∧ bracketed.Generates "S" [] ∧ bracketed.normalization.proper.ProperForm ∧
      [.epsilon] ∈ bracketed.normalization.proper.alternatives bracketed.normalization.proper.start := by
  have wellFormed : bracketed.WellFormed := by decide
  have vanishes : .nonterminal "S" ∈ bracketed.nullable := by decide +kernel
  have generates : bracketed.Generates "S" [] := (nonterminal_mem_nullable wellFormed).mp vanishes
  obtain ⟨proper, empty⟩ := (normalization_proper wellFormed).2.1 ⟨[], generates⟩
  exact ⟨wellFormed, generates, proper, empty.mpr generates⟩

/-! Lengths in a proper grammar. -/

variable {value : Name → Language Symbol} {form sentence : List Symbol}

/-- A sequence is no longer than what it is read as, if none of its symbols can vanish. -/
theorem length_le_of_mem_reading (solid : ∀ symbol ∈ form, [] ∉ meaning value symbol)
    (read : sentence ∈ reading value form) :
    form.length ≤ sentence.length := by
  induction form generalizing sentence with
  | nil => exact Nat.zero_le _
  | cons head rest ih =>
    rw [reading_cons] at read
    obtain ⟨left, front, right, rear, rfl⟩ := Language.mem_mul.mp read
    have later := ih (fun symbol inside => solid symbol (List.mem_cons_of_mem _ inside)) rear
    have something : left ≠ [] := by
      intro same
      subst same
      exact solid head List.mem_cons_self front
    have positive := List.length_pos_of_ne_nil something
    rw [List.length_cons, List.length_append]
    omega

namespace ProperForm

variable (proper : g.ProperForm)

include proper

theorem start_of_empty (empty : [] ∈ g.language name) : name = g.start ∧ [.epsilon] ∈ g.alternatives g.start := by
  let value : Name → Language Symbol := fun name =>
    {sentence | sentence = [] → name = g.start ∧ [.epsilon] ∈ g.alternatives g.start}
  have closed : g.Closed value := by
    intro name alternative owned sentence read nothing
    subst nothing
    have parts := nil_mem_reading.mp read
    have nonempty := (proper.wellFormed.admissible_alternative owned).nonempty
    obtain ⟨head, rest, rfl⟩ := List.exists_cons_of_ne_nil nonempty
    rcases nil_mem_meaning (parts head List.mem_cons_self) with rfl | ⟨inner, rfl, vanishing⟩
    · obtain ⟨rfl, same⟩ := proper.epsilon name _ owned List.mem_cons_self
      exact ⟨rfl, same ▸ owned⟩
    · obtain ⟨rfl, vanishes⟩ := vanishing rfl
      exact absurd List.mem_cons_self (proper.apart vanishes name _ owned)
  exact language_le closed name empty rfl

theorem solid {alternative : Alternative} (owned : alternative ∈ g.alternatives name)
    (plain : alternative ≠ [.epsilon]) :
    ∀ symbol ∈ alternative, [] ∉ meaning g.language symbol := by
  intro symbol inside vanishes
  rcases nil_mem_meaning vanishes with rfl | ⟨inner, rfl, vanishing⟩
  · exact plain (proper.epsilon name alternative owned inside).2
  · obtain ⟨rfl, empty⟩ := proper.start_of_empty vanishing
    exact proper.apart empty name alternative owned inside

private theorem exists_word {alternative part : List Symbol} (owned : alternative ∈ g.alternatives name)
    (plain : alternative ≠ [.epsilon]) (within : part ⊆ alternative) :
    ∃ word ∈ reading g.language part, part.length ≤ word.length := by
  have readable : ∃ word, word ∈ reading g.language part := by
    apply reading_nonempty
    · exact fun present => proper.wellFormed.unmarked owned (within present)
    · exact fun inner present => proper.productive inner (Or.inr ⟨name, alternative, owned, within present⟩)
  obtain ⟨word, read⟩ := readable
  exact ⟨word, read, length_le_of_mem_reading (fun symbol present => proper.solid owned plain symbol (within present)) read⟩

/-- Around a nonterminal in an alternative there is something that adds to its sentences. -/
theorem longer {source target : Name} (leads : g.Leads source target) (generates : sentence ∈ g.language target) :
    ∃ longer ∈ g.language source, sentence.length < longer.length := by
  obtain ⟨alternative, owned, inside⟩ := leads
  have plain : alternative ≠ [.epsilon] := by
    intro same
    subst same
    cases List.mem_singleton.mp inside
  obtain ⟨front, rear, rfl⟩ := List.append_of_mem inside
  obtain ⟨left, before, longLeft⟩ := proper.exists_word owned plain (List.subset_append_left front _)
  obtain ⟨right, after, longRight⟩ := proper.exists_word owned plain
    (List.subset_append_of_subset_right front (List.subset_cons_self _ rear))
  have context : 0 < front.length + rear.length := by
    apply Nat.pos_of_ne_zero
    intro nothing
    obtain ⟨noFront, noRear⟩ := Nat.add_eq_zero_iff.mp nothing
    rw [List.length_eq_zero_iff] at noFront noRear
    subst noFront noRear
    exact proper.noUnit source _ owned target rfl
  refine ⟨left ++ (sentence ++ right), ?_, ?_⟩
  · apply g.language_closed source _ owned
    rw [reading_append, reading_cons]
    exact Language.append_mem_mul before (Language.append_mem_mul generates after)
  · rw [List.length_append, List.length_append]
    omega

end ProperForm

end TopDownGrammar.Grammar
