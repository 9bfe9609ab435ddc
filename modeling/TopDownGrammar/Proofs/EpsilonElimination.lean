import TopDownGrammar.Proofs.ClosureSets
import TopDownGrammar.Proofs.FreshNames
import TopDownGrammar.Proofs.Omissions

/-! Taking the empty string out of a grammar. A nonterminal keeps its sentences but for the empty
one: what an alternative says with some symbols vanishing, the alternative without those symbols
says as well. The empty sentence of the language is given back by a start of its own. -/

namespace TopDownGrammar.Grammar

variable {g : Grammar} {name : Name} {whole alternative sentence : List Symbol}

theorem mem_shortened (once : g.nonterminals.Nodup) :
    ⟨name, alternative⟩ ∈ g.shortened ↔ ∃ whole ∈ g.alternatives name, alternative ∈ omissions g.nullable whole := by
  rw [shortened, mem_distinct, List.mem_flatMap]
  constructor
  · intro found
    obtain ⟨production, member, inside⟩ := found
    obtain ⟨shorter, omitted, same⟩ := List.mem_map.mp inside
    obtain ⟨rfl, rfl⟩ := Production.mk.inj same
    exact ⟨production.rhs, (mem_alternatives once).mpr member, omitted⟩
  · intro found
    obtain ⟨whole, owned, omitted⟩ := found
    exact ⟨⟨name, whole⟩, production_of_alternative owned, List.mem_map.mpr ⟨alternative, omitted, rfl⟩⟩

private theorem admissible_shortened (wellFormed : g.WellFormed) {production : Production}
    (listed : production ∈ g.shortened) : Admissible production := by
  obtain ⟨whole, owned, omitted⟩ := (mem_shortened wellFormed.once).mp listed
  have good := wellFormed.admissible_alternative owned
  exact ⟨good.lhs, fun symbol inside => good.symbols symbol (mem_of_mem_omissions omitted inside).1,
    (mem_omissions.mp omitted).1⟩

theorem start_epsilonFree :
    g.epsilonFree.start = if .nonterminal g.start ∈ g.nullable then g.freshName g.start else g.start := by
  unfold epsilonFree
  split <;> rfl

theorem start_epsilonFree_of_nullable (vanishes : .nonterminal g.start ∈ g.nullable) :
    g.epsilonFree.start = g.freshName g.start := by
  rw [start_epsilonFree, if_pos vanishes]

theorem nodup_epsilonFree (g : Grammar) : g.epsilonFree.nonterminals.Nodup := by
  unfold epsilonFree
  split <;> exact nodup_ofProductions _ _

/-- The alternatives are the shortened ones, and the two of the new start if there is one. -/
theorem mem_alternatives_epsilonFree (once : g.nonterminals.Nodup) :
    alternative ∈ g.epsilonFree.alternatives name ↔
      (∃ whole ∈ g.alternatives name, alternative ∈ omissions g.nullable whole) ∨
        name = g.freshName g.start ∧ .nonterminal g.start ∈ g.nullable ∧
          (alternative = [.nonterminal g.start] ∨ alternative = [.epsilon]) := by
  rw [← mem_shortened once, epsilonFree]
  split
  next vanishes =>
    rw [mem_alternatives_ofProductions, List.mem_cons, List.mem_cons, Production.mk.injEq, Production.mk.injEq]
    tauto
  next stays =>
    rw [mem_alternatives_ofProductions]
    tauto

theorem alternatives_newStart (wellFormed : g.WellFormed) (vanishes : .nonterminal g.start ∈ g.nullable) :
    g.epsilonFree.alternatives (g.freshName g.start) = [[.nonterminal g.start], [.epsilon]] := by
  have others : g.shortened.filter (·.lhs = g.freshName g.start) = [] := by
    refine List.filter_eq_nil_iff.mpr fun production listed => ?_
    obtain ⟨whole, owned, _⟩ := (mem_shortened wellFormed.once).mp listed
    rw [decide_eq_true_iff]
    exact ne_freshName wellFormed (mem_nonterminals_of_alternative owned) _
  rw [epsilonFree, if_pos vanishes, alternatives_ofProductions]
  simp [others]

theorem mem_alternatives_newStart (wellFormed : g.WellFormed) (vanishes : .nonterminal g.start ∈ g.nullable) :
    alternative ∈ g.epsilonFree.alternatives (g.freshName g.start) ↔
      alternative = [.nonterminal g.start] ∨ alternative = [.epsilon] := by
  simp [alternatives_newStart wellFormed vanishes]

/-- The empty string is left as the one alternative of the new start that it was put in as. -/
theorem epsilon_mem_epsilonFree (once : g.nonterminals.Nodup) (owned : alternative ∈ g.epsilonFree.alternatives name)
    (inside : .epsilon ∈ alternative) :
    name = g.freshName g.start ∧ .nonterminal g.start ∈ g.nullable ∧ alternative = [.epsilon] := by
  rcases (mem_alternatives_epsilonFree once).mp owned with ⟨whole, _, omitted⟩ | ⟨fresh, vanishes, rfl | rfl⟩
  · exact absurd rfl (mem_of_mem_omissions omitted inside).2
  · cases List.mem_singleton.mp inside
  · exact ⟨fresh, vanishes, rfl⟩

theorem newStart_not_mem_epsilonFree (once : g.nonterminals.Nodup)
    (owned : alternative ∈ g.epsilonFree.alternatives name) : .nonterminal (g.freshName g.start) ∉ alternative := by
  intro inside
  rcases (mem_alternatives_epsilonFree once).mp owned with ⟨whole, held, omitted⟩ | ⟨_, _, rfl | rfl⟩
  · exact freshName_not_mem_alternative g.start held (mem_of_mem_omissions omitted inside).1
  · exact g.freshName_ne_start g.start (Symbol.nonterminal.inj (List.mem_singleton.mp inside))
  · cases List.mem_singleton.mp inside

theorem wellFormed_epsilonFree (wellFormed : g.WellFormed) : g.epsilonFree.WellFormed := by
  unfold epsilonFree
  split
  · have named := isName_freshName g wellFormed.start
    refine wellFormed_ofProductions named ?_
    intro production member
    rcases List.mem_cons.mp member with rfl | member
    · exact ⟨named, by simp [Symbol.check, wellFormed.start], by simp⟩
    · rcases List.mem_cons.mp member with rfl | member
      · exact ⟨named, by simp [Symbol.check], by simp⟩
      · exact admissible_shortened wellFormed member
  · exact wellFormed_ofProductions wellFormed.start fun _ => admissible_shortened wellFormed

private def shrunk (g : Grammar) (name : Name) : Language Symbol :=
  {sentence | sentence ∈ g.language name ∧ sentence ≠ []}

private theorem reading_omission (wellFormed : g.WellFormed) (omission : Omission g.nullable whole alternative) :
    reading g.shrunk alternative ≤ reading g.language whole := by
  induction omission with
  | nil => exact le_refl _
  | keep symbol _ ih =>
    have head : meaning g.shrunk symbol ≤ meaning g.language symbol := by
      cases symbol with
      | nonterminal name => exact fun sentence member => member.1
      | _ => exact le_refl _
    rw [reading_cons, reading_cons]
    exact mul_le_mul' head ih
  | @drop symbol rest kept vanishes _ ih =>
    obtain ⟨name, rfl, empty⟩ := (mem_nullable wellFormed _).mp vanishes
    intro sentence read
    rw [reading_cons]
    exact Language.append_mem_mul (a := []) empty (ih read)

private theorem shrunk_reading_ne_nil (nonempty : alternative ≠ []) (plain : .epsilon ∉ alternative) :
    [] ∉ reading g.shrunk alternative := by
  intro read
  obtain ⟨head, rest, rfl⟩ := List.exists_cons_of_ne_nil nonempty
  have front := nil_mem_reading.mp read head List.mem_cons_self
  rcases nil_mem_meaning front with rfl | ⟨name, rfl, vanishes⟩
  · exact plain List.mem_cons_self
  · exact vanishes.2 rfl

private theorem language_epsilonFree_le (wellFormed : g.WellFormed) (known : name ≠ g.freshName g.start) :
    g.epsilonFree.language name ≤ g.shrunk name := by
  let value : Name → Language Symbol := fun name =>
    {sentence | name ≠ g.freshName g.start → sentence ∈ g.shrunk name}
  have closed : g.epsilonFree.Closed value := by
    intro name alternative owned sentence read known
    have old := ((mem_alternatives_epsilonFree wellFormed.once).mp owned).resolve_right fun new => known new.1
    obtain ⟨whole, held, omitted⟩ := old
    obtain ⟨nonempty, omission⟩ := mem_omissions.mp omitted
    have below : reading value alternative ≤ reading g.shrunk alternative := by
      apply reading_le
      intro inner inside sentence member
      apply member
      intro fresh
      exact newStart_not_mem_epsilonFree wellFormed.once owned (fresh ▸ inside)
    have shrunk := below read
    constructor
    · apply g.language_closed name whole held
      rw [← reading_visible]
      exact reading_omission wellFormed omission shrunk
    · intro same
      subst same
      exact shrunk_reading_ne_nil nonempty (fun inside => (mem_of_mem_omissions omitted inside).2 rfl) shrunk
  exact fun sentence generates => language_le closed name generates known

/-- Whatever vanishes in a sentence of a sequence can be left out of the sequence. -/
private theorem exists_omission (wellFormed : g.WellFormed) {value : Name → Language Symbol}
    (split : ∀ name sentence, sentence ∈ value name →
      sentence ∈ g.language name ∧ (sentence ≠ [] → sentence ∈ g.epsilonFree.language name))
    (read : sentence ∈ reading value whole) :
    ∃ alternative, Omission g.nullable (visible whole) alternative ∧
      sentence ∈ reading g.epsilonFree.language alternative := by
  induction whole generalizing sentence with
  | nil => exact ⟨[], .nil, read⟩
  | cons head rest ih =>
    rw [reading_cons] at read
    obtain ⟨left, front, right, rear, rfl⟩ := Language.mem_mul.mp read
    obtain ⟨kept, omission, later⟩ := ih rear
    have stays : head ≠ .epsilon → left ∈ meaning g.epsilonFree.language head →
        ∃ alternative, Omission g.nullable (visible (head :: rest)) alternative ∧
          left ++ right ∈ reading g.epsilonFree.language alternative := by
      intro visible heard
      refine ⟨head :: kept, ?_, ?_⟩
      · rw [← List.singleton_append, visible_append, visible_of_plain (by simpa using Ne.symm visible)]
        exact .keep head omission
      · rw [reading_cons]
        exact Language.append_mem_mul heard later
    cases head with
    | nonterminal name =>
      obtain ⟨generates, nonempty⟩ := split name left front
      by_cases empty : left = []
      · subst empty
        exact ⟨kept, .drop ((nonterminal_mem_nullable wellFormed).mpr generates) omission, later⟩
      · exact stays (by simp) (nonempty empty)
    | terminal text => exact stays (by simp) front
    | epsilon =>
      obtain rfl := (Language.mem_one _).mp front
      exact ⟨kept, omission, later⟩
    | endOfInput => exact absurd front (Language.notMem_zero _)

private theorem le_language_epsilonFree (wellFormed : g.WellFormed) (generates : sentence ∈ g.language name)
    (nonempty : sentence ≠ []) : sentence ∈ g.epsilonFree.language name := by
  let value : Name → Language Symbol := fun name =>
    {sentence | sentence ∈ g.language name ∧ (sentence ≠ [] → sentence ∈ g.epsilonFree.language name)}
  have closed : g.Closed value := by
    intro name whole owned sentence read
    constructor
    · exact g.language_closed name whole owned (reading_mono (fun _ _ member => member.1) read)
    · intro nonempty
      obtain ⟨alternative, omission, later⟩ := exists_omission wellFormed (fun _ _ member => member) read
      have something : alternative ≠ [] := by
        intro same
        subst same
        exact nonempty later
      refine language_closed _ name alternative ((mem_alternatives_epsilonFree wellFormed.once).mpr ?_) later
      exact Or.inl ⟨whole, owned, mem_omissions.mpr ⟨something, omission⟩⟩
  exact (language_le closed name generates).2 nonempty

theorem mem_language_epsilonFree (wellFormed : g.WellFormed) (known : name ≠ g.freshName g.start) :
    sentence ∈ g.epsilonFree.language name ↔ sentence ∈ g.language name ∧ sentence ≠ [] :=
  ⟨fun generates => language_epsilonFree_le wellFormed known generates,
    fun member => le_language_epsilonFree wellFormed member.1 member.2⟩

/-- The new start has the sentences of the old one, and the empty one that the old one has lost. -/
theorem language_newStart (wellFormed : g.WellFormed) (vanishes : .nonterminal g.start ∈ g.nullable) :
    g.epsilonFree.language (g.freshName g.start) = g.language g.start := by
  have known := (g.freshName_ne_start g.start).symm
  have empty : [] ∈ g.language g.start := (nonterminal_mem_nullable wellFormed).mp vanishes
  apply Language.ext
  intro sentence
  constructor
  · intro generates
    obtain ⟨alternative, owned, read⟩ := language_unfold generates
    rcases (mem_alternatives_newStart wellFormed vanishes).mp owned with rfl | rfl
    · rw [reading_singleton] at read
      exact ((mem_language_epsilonFree wellFormed known).mp read).1
    · rw [reading_singleton] at read
      obtain rfl := (Language.mem_one _).mp read
      exact empty
  · intro generates
    by_cases nothing : sentence = []
    · subst nothing
      exact nil_mem_language ((mem_alternatives_newStart wellFormed vanishes).mpr (Or.inr rfl))
    · refine language_closed _ _ _ ((mem_alternatives_newStart wellFormed vanishes).mpr (Or.inl rfl)) ?_
      rw [reading_singleton]
      exact (mem_language_epsilonFree wellFormed known).mpr ⟨generates, nothing⟩

theorem language_epsilonFree_start (wellFormed : g.WellFormed) :
    g.epsilonFree.language g.epsilonFree.start = g.language g.start := by
  rw [start_epsilonFree]
  split
  next vanishes => exact language_newStart wellFormed vanishes
  next stays =>
    apply Language.ext
    intro sentence
    rw [mem_language_epsilonFree wellFormed (g.freshName_ne_start g.start).symm]
    refine and_iff_left_of_imp ?_
    intro generates empty
    exact stays ((nonterminal_mem_nullable wellFormed).mpr (empty ▸ generates))

theorem mem_nullable_epsilonFree (wellFormed : g.WellFormed) {symbol : Symbol} :
    symbol ∈ g.epsilonFree.nullable ↔
      symbol = .nonterminal (g.freshName g.start) ∧ .nonterminal g.start ∈ g.nullable := by
  rw [mem_nullable (wellFormed_epsilonFree wellFormed)]
  constructor
  · intro found
    obtain ⟨name, rfl, generates⟩ := found
    obtain rfl : name = g.freshName g.start :=
      Classical.byContradiction fun known => ((mem_language_epsilonFree wellFormed known).mp generates).2 rfl
    obtain ⟨alternative, owned, _⟩ := language_unfold generates
    rcases (mem_alternatives_epsilonFree wellFormed.once).mp owned with ⟨whole, held, _⟩ | ⟨_, vanishes, _⟩
    · exact absurd (mem_nonterminals_of_alternative held) (freshName_not_listed wellFormed _)
    · exact ⟨rfl, vanishes⟩
  · intro both
    obtain ⟨rfl, vanishes⟩ := both
    exact ⟨_, rfl, nil_mem_language ((mem_alternatives_newStart wellFormed vanishes).mpr (Or.inr rfl))⟩

/-- The second grammar has a start of its own, which alone derives the empty string, and only by the
alternative put in for that. -/
structure NewStart (g f : Grammar) : Prop where
  fresh : .nonterminal f.start ∉ g.symbols
  alternatives : f.alternatives f.start = [[.nonterminal g.start], [.epsilon]]
  apart : .nonterminal f.start ∉ f.occurrences
  epsilon : ∀ production ∈ f.productions, .epsilon ∈ production.rhs → production = ⟨f.start, [.epsilon]⟩
  nullable : f.nullable = {.nonterminal f.start}

theorem newStart_epsilonFree (wellFormed : g.WellFormed) (vanishes : .nonterminal g.start ∈ g.nullable) :
    NewStart g g.epsilonFree := by
  constructor <;> rw [start_epsilonFree_of_nullable vanishes]
  · exact g.freshName_not_mem g.start
  · exact alternatives_newStart wellFormed vanishes
  · intro occurs
    obtain ⟨production, listed, inside⟩ := List.mem_flatMap.mp occurs
    exact newStart_not_mem_epsilonFree wellFormed.once ((mem_alternatives (nodup_epsilonFree g)).mpr listed) inside
  · intro production listed inside
    have owned := (mem_alternatives (nodup_epsilonFree g)).mpr listed
    obtain ⟨fresh, _, same⟩ := epsilon_mem_epsilonFree wellFormed.once owned inside
    rw [← fresh, ← same]
  · refine SymbolSet.ext fun symbol => ?_
    rw [mem_nullable_epsilonFree wellFormed, SymbolSet.mem_singleton, and_iff_left vanishes]

/-- Every nonterminal keeps its sentences but for the empty one, and the language stays as it is. If
the empty string belongs to it, it comes from a new start and nowhere else. -/
theorem epsilonFree_exact (wellFormed : g.WellFormed) :
    (∀ sentence, g.epsilonFree.Generates g.epsilonFree.start sentence ↔ g.Generates g.start sentence) ∧
    (∀ name ∈ g.nonterminals, ∀ sentence,
      g.epsilonFree.Generates name sentence ↔ g.Generates name sentence ∧ sentence ≠ []) ∧
    (¬g.Generates g.start [] → g.epsilonFree.start = g.start ∧ .epsilon ∉ g.epsilonFree.occurrences ∧
      g.epsilonFree.nullable = ∅) ∧
    (g.Generates g.start [] → NewStart g g.epsilonFree) := by
  refine ⟨?_, ?_, ?_, ?_⟩
  · intro sentence
    rw [← mem_language, language_epsilonFree_start wellFormed, mem_language]
  · intro name listed sentence
    have known : name ≠ g.freshName g.start := fun same => freshName_not_listed wellFormed g.start (same ▸ listed)
    exact mem_language_epsilonFree wellFormed known
  · intro solid
    have stays : .nonterminal g.start ∉ g.nullable := mt (nonterminal_mem_nullable wellFormed).mp solid
    refine ⟨by rw [start_epsilonFree, if_neg stays], ?_, SymbolSet.ext fun symbol => ?_⟩
    · intro occurs
      obtain ⟨production, listed, inside⟩ := List.mem_flatMap.mp occurs
      have owned := (mem_alternatives (nodup_epsilonFree g)).mpr listed
      exact stays (epsilon_mem_epsilonFree wellFormed.once owned inside).2.1
    · refine iff_of_false ?_ (SymbolSet.not_mem_empty symbol)
      exact fun member => stays ((mem_nullable_epsilonFree wellFormed).mp member).2
  · intro vanishes
    exact newStart_epsilonFree wellFormed ((nonterminal_mem_nullable wellFormed).mpr vanishes)

def shrinking : Grammar :=
  ⟨"S", [⟨"S", [[.nonterminal "A", .epsilon, .nonterminal "A"], [.terminal "a", .nonterminal "S1"]]⟩,
    ⟨"A", [[.epsilon], [.terminal "b", .nonterminal "B", .nonterminal "A"]]⟩,
    ⟨"B", [[.epsilon, .epsilon]]⟩, ⟨"S1", [[.nonterminal "S"]]⟩]⟩

theorem shrinking_epsilonFree :
    shrinking.WellFormed ∧ shrinking.Generates "S" [] ∧ NewStart shrinking shrinking.epsilonFree ∧
      shrinking.epsilonFree.Generates "A" [.terminal "b"] ∧ ¬shrinking.epsilonFree.Generates "B" [] := by
  have wellFormed : shrinking.WellFormed := by decide
  obtain ⟨_, each, _, anew⟩ := epsilonFree_exact wellFormed
  have vanishes : .nonterminal "S" ∈ shrinking.nullable := by decide +kernel
  have generates : shrinking.Generates "S" [] := (nonterminal_mem_nullable wellFormed).mp vanishes
  have longer : [.terminal "b", .nonterminal "B", .nonterminal "A"] ∈ shrinking.alternatives "A" := by decide
  have emptyA : [.epsilon] ∈ shrinking.alternatives "A" := by decide
  have emptyB : [.epsilon, .epsilon] ∈ shrinking.alternatives "B" := by decide
  have derives : shrinking.Derives [.terminal "b", .nonterminal "B", .nonterminal "A"] [.terminal "b"] :=
    .step (.replace [.terminal "b"] [.nonterminal "A"] emptyB) (.step (.replace [.terminal "b"] [] emptyA) (.refl _))
  refine ⟨wellFormed, generates, anew generates, ?_, ?_⟩
  · exact (each "A" (by decide) _).mpr ⟨⟨rfl, (derives_alternative longer).trans derives⟩, by simp⟩
  · exact fun empty => ((each "B" (by decide) _).mp empty).2 rfl

end TopDownGrammar.Grammar
