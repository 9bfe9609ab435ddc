import TopDownGrammar.Closure
import TopDownGrammar.Proofs.Languages
import TopDownGrammar.Proofs.Saturations

/-! The closure sets are exact. A set holds no more than it should because every round keeps to
the meaning of its members, and no less because what it describes is closed for the grammar. -/

namespace TopDownGrammar.Grammar

variable {g : Grammar} {name : Name} {value : Name → Language Symbol} {form first last before after : List Symbol}
  {alternative : Alternative} {symbol : Symbol}

theorem nil_mem_reading : [] ∈ reading value form ↔ ∀ symbol ∈ form, [] ∈ meaning value symbol := by
  induction form with
  | nil => simp
  | cons head rest ih =>
    rw [reading_cons, Language.mem_mul]
    simp only [List.mem_cons, forall_eq_or_imp, ← ih]
    constructor
    · intro parts
      obtain ⟨left, front, right, rear, joined⟩ := parts
      obtain ⟨rfl, rfl⟩ := List.append_eq_nil_iff.mp joined
      exact ⟨front, rear⟩
    · intro parts
      exact ⟨[], parts.1, [], parts.2, rfl⟩

theorem nil_mem_meaning {symbol : Symbol} (vanishes : [] ∈ meaning value symbol) :
    symbol = .epsilon ∨ ∃ name, symbol = .nonterminal name ∧ [] ∈ value name := by
  cases symbol with
  | nonterminal name => exact Or.inr ⟨name, rfl, vanishes⟩
  | terminal text => cases (show ([] : List Symbol) = [.terminal text] from vanishes)
  | epsilon => exact Or.inl rfl
  | endOfInput => exact absurd vanishes (Language.notMem_zero _)

theorem reading_nonempty (unmarked : .endOfInput ∉ form)
    (nonempty : ∀ name, .nonterminal name ∈ form → ∃ sentence, sentence ∈ value name) :
    ∃ sentence, sentence ∈ reading value form := by
  induction form with
  | nil => exact ⟨[], rfl⟩
  | cons head rest ih =>
    have later := ih (fun member => unmarked (List.mem_cons_of_mem _ member))
      fun name member => nonempty name (List.mem_cons_of_mem _ member)
    have front : ∃ word, word ∈ meaning value head := by
      cases head with
      | nonterminal name => exact nonempty name List.mem_cons_self
      | terminal text => exact ⟨[.terminal text], rfl⟩
      | epsilon => exact ⟨[], rfl⟩
      | endOfInput => exact absurd List.mem_cons_self unmarked
    obtain ⟨rear, read⟩ := later
    obtain ⟨word, heard⟩ := front
    rw [reading_cons]
    exact ⟨word ++ rear, Language.append_mem_mul heard read⟩

private theorem mem_ownersOf {test : Alternative → Bool} {symbol : Symbol} :
    symbol ∈ g.ownersOf test ↔ ∃ production ∈ g.productions, test production.rhs = true ∧
      symbol = .nonterminal production.lhs := by
  simp only [ownersOf, List.mem_map, List.mem_filter]
  constructor
  · intro found
    obtain ⟨production, ⟨member, passed⟩, rfl⟩ := found
    exact ⟨production, member, passed, rfl⟩
  · intro found
    obtain ⟨production, member, passed, rfl⟩ := found
    exact ⟨production, ⟨member, passed⟩, rfl⟩

/-- The left-hand sides of the productions that pass a test on the set found so far. -/
private def owners (g : Grammar) (test : SymbolSet → Alternative → Bool) : SymbolSet :=
  .saturate (fun set => g.ownersOf (test set)) g.rules.length ∅

private theorem owners_closed (test : SymbolSet → Alternative → Bool) {alternative : Alternative}
    (owned : alternative ∈ g.alternatives name) (passed : test (g.owners test) alternative = true) :
    .nonterminal name ∈ g.owners test := by
  have closed : ∀ symbol ∈ g.ownersOf (test (g.owners test)), symbol ∈ g.owners test := by
    refine SymbolSet.saturate_closed (fun set => g.ownersOf (test set)) (g.nonterminals.map .nonterminal) ?_ ?_ ?_
    · exact fun symbol member => absurd member (SymbolSet.not_mem_empty symbol)
    · intro set symbol member
      obtain ⟨production, present, _, rfl⟩ := mem_ownersOf.mp member
      obtain ⟨rule, listed, same, _⟩ := mem_productions.mp present
      exact List.mem_map_of_mem (List.mem_map.mpr ⟨rule, listed, same⟩)
    · simp [nonterminals]
  exact closed _ (mem_ownersOf.mpr ⟨_, production_of_alternative owned, passed, rfl⟩)

private theorem owners_induction (once : g.nonterminals.Nodup) (test : SymbolSet → Alternative → Bool)
    (holds : Name → Prop)
    (kept : ∀ set : SymbolSet, (∀ symbol ∈ set, ∃ name, symbol = .nonterminal name ∧ holds name) →
      ∀ name, ∀ alternative ∈ g.alternatives name, test set alternative = true → holds name) :
    ∀ symbol ∈ g.owners test, ∃ name, symbol = .nonterminal name ∧ holds name := by
  apply SymbolSet.saturate_induction (fun symbol => ∃ name, symbol = .nonterminal name ∧ holds name)
  · exact fun symbol member => absurd member (SymbolSet.not_mem_empty symbol)
  · intro set known symbol drawn
    obtain ⟨production, present, passed, rfl⟩ := mem_ownersOf.mp drawn
    exact ⟨_, rfl, kept set known _ _ ((mem_alternatives once).mpr present) passed⟩

theorem allProductive_iff {productive : SymbolSet} :
    allProductive productive form = true ↔ ∀ name, .nonterminal name ∈ form → .nonterminal name ∈ productive := by
  simp only [allProductive, List.all_eq_true]
  constructor
  · intro all name member
    simpa [Symbol.isNonterminal] using all _ member
  · intro all symbol member
    cases symbol with
    | nonterminal name => simpa [Symbol.isNonterminal] using all name member
    | _ => rfl

private theorem allNullable_iff {nullable : SymbolSet} :
    allNullable nullable form = true ↔ ∀ symbol ∈ form, symbol = .epsilon ∨ symbol ∈ nullable := by
  simp only [allNullable, List.all_eq_true, Bool.or_eq_true, decide_eq_true_eq]
  apply forall₂_congr
  intro symbol _
  cases symbol <;> simp [Symbol.isEpsilon]

theorem productive_closed (owned : alternative ∈ g.alternatives name)
    (all : allProductive g.productive alternative = true) : .nonterminal name ∈ g.productive :=
  owners_closed allProductive owned all

theorem mem_productive (wellFormed : g.WellFormed) (symbol : Symbol) :
    symbol ∈ g.productive ↔ ∃ name, symbol = .nonterminal name ∧ ∃ sentence, sentence ∈ g.language name := by
  constructor
  · refine owners_induction wellFormed.once allProductive (fun name => ∃ sentence, sentence ∈ g.language name) ?_ symbol
    intro set known name alternative owned passed
    have productive : ∀ inner, .nonterminal inner ∈ alternative → ∃ sentence, sentence ∈ g.language inner := by
      intro inner inside
      obtain ⟨_, same, nonempty⟩ := known _ (allProductive_iff.mp passed inner inside)
      exact Symbol.nonterminal.inj same ▸ nonempty
    obtain ⟨sentence, read⟩ := reading_nonempty (wellFormed.unmarked owned) productive
    exact ⟨sentence, g.language_closed _ _ owned read⟩
  · intro meant
    obtain ⟨name, rfl, sentence, generates⟩ := meant
    let value : Name → Language Symbol := fun name => {_sentence | .nonterminal name ∈ g.productive}
    have closed : g.Closed value := by
      intro name alternative owned word read
      apply owners_closed allProductive owned
      apply allProductive_iff.mpr
      intro inner inside
      exact Classical.byContradiction fun missing => not_mem_reading (fun _ present => missing present) inside read
    exact language_le closed name generates

theorem nonterminal_mem_productive (wellFormed : g.WellFormed) :
    .nonterminal name ∈ g.productive ↔ ∃ sentence, sentence ∈ g.language name := by
  simp [mem_productive wellFormed]

theorem mem_nullable (wellFormed : g.WellFormed) (symbol : Symbol) :
    symbol ∈ g.nullable ↔ ∃ name, symbol = .nonterminal name ∧ [] ∈ g.language name := by
  constructor
  · refine owners_induction wellFormed.once allNullable (fun name => [] ∈ g.language name) ?_ symbol
    intro set known name alternative owned passed
    refine g.language_closed _ _ owned (nil_mem_reading.mpr ?_)
    intro inner inside
    rcases allNullable_iff.mp passed inner inside with rfl | vanishes
    · exact Language.nil_mem_one
    · obtain ⟨_, rfl, generates⟩ := known inner vanishes
      exact generates
  · intro meant
    obtain ⟨name, rfl, vanishes⟩ := meant
    let value : Name → Language Symbol := fun name => {sentence | sentence = [] → .nonterminal name ∈ g.nullable}
    have closed : g.Closed value := by
      intro name alternative owned word read empty
      subst empty
      apply owners_closed allNullable owned
      apply allNullable_iff.mpr
      intro inner inside
      rcases nil_mem_meaning (nil_mem_reading.mp read inner inside) with same | ⟨other, rfl, vanishing⟩
      · exact Or.inl same
      · exact Or.inr (vanishing rfl)
    exact language_le closed name vanishes rfl

theorem nonterminal_mem_nullable (wellFormed : g.WellFormed) :
    .nonterminal name ∈ g.nullable ↔ [] ∈ g.language name := by
  simp [mem_nullable wellFormed]

/-- The second nonterminal stands in an alternative of the first. -/
def Leads (g : Grammar) (first second : Name) : Prop :=
  ∃ alternative ∈ g.alternatives first, .nonterminal second ∈ alternative

private theorem reachable_closed {alternative : Alternative} (found : .nonterminal name ∈ g.reachable)
    (owned : alternative ∈ g.alternatives name) : ∀ symbol ∈ alternative, symbol ∈ g.reachable := by
  intro symbol inside
  refine SymbolSet.saturate_closed _ (.nonterminal g.start :: g.occurrences) ?_ ?_ ?_ symbol
    (List.mem_flatMap.mpr ⟨⟨name, alternative⟩, List.mem_filter.mpr ⟨production_of_alternative owned, ?_⟩, inside⟩)
  · exact fun symbol member => List.mem_cons.mpr (Or.inl (SymbolSet.mem_singleton.mp member))
  · intro set symbol drawn
    obtain ⟨production, present, occurs⟩ := List.mem_flatMap.mp drawn
    exact List.mem_cons_of_mem _ (List.mem_flatMap.mpr ⟨production, (List.mem_filter.mp present).1, occurs⟩)
  · rw [SymbolSet.card_singleton, List.length_cons]
    omega
  · exact decide_eq_true found

theorem start_mem_reachable (g : Grammar) : .nonterminal g.start ∈ g.reachable :=
  SymbolSet.seed_subset_saturate _ (SymbolSet.mem_singleton.mpr rfl)

private theorem reachable_of_leads (path : Relation.ReflTransGen g.Leads g.start name) :
    .nonterminal name ∈ g.reachable := by
  induction path with
  | refl => exact g.start_mem_reachable
  | tail _ leads ih =>
    obtain ⟨alternative, owned, inside⟩ := leads
    exact reachable_closed ih owned _ inside

/-- The reachable symbols are the start and what stands in the alternatives of the nonterminals
that it leads to. -/
theorem mem_reachable (once : g.nonterminals.Nodup) (symbol : Symbol) :
    symbol ∈ g.reachable ↔ symbol = .nonterminal g.start ∨ ∃ name, ∃ alternative ∈ g.alternatives name,
      Relation.ReflTransGen g.Leads g.start name ∧ symbol ∈ alternative := by
  constructor
  · apply SymbolSet.saturate_induction (fun symbol => symbol = .nonterminal g.start ∨ ∃ name,
      ∃ alternative ∈ g.alternatives name, Relation.ReflTransGen g.Leads g.start name ∧ symbol ∈ alternative)
    · exact fun symbol member => Or.inl (SymbolSet.mem_singleton.mp member)
    · intro set known symbol drawn
      obtain ⟨production, present, inside⟩ := List.mem_flatMap.mp drawn
      obtain ⟨member, found⟩ := List.mem_filter.mp present
      have owned := (mem_alternatives once).mpr member
      refine Or.inr ⟨_, _, owned, ?_, inside⟩
      rcases known _ (of_decide_eq_true found) with start | ⟨name, alternative, held, path, occurs⟩
      · rw [Symbol.nonterminal.inj start]
      · exact path.tail ⟨alternative, held, occurs⟩
  · intro meant
    rcases meant with rfl | ⟨name, alternative, owned, leads, inside⟩
    · exact g.start_mem_reachable
    · exact reachable_closed (reachable_of_leads leads) owned symbol inside

theorem nonterminal_mem_reachable (once : g.nonterminals.Nodup) :
    .nonterminal name ∈ g.reachable ↔ Relation.ReflTransGen g.Leads g.start name := by
  rw [mem_reachable once]
  constructor
  · intro meant
    rcases meant with same | ⟨before, alternative, owned, path, inside⟩
    · rw [Symbol.nonterminal.inj same]
    · exact path.tail ⟨alternative, owned, inside⟩
  · intro path
    rcases Relation.ReflTransGen.cases_tail path with same | ⟨before, earlier, alternative, owned, inside⟩
    · exact Or.inl (congrArg _ same)
    · exact Or.inr ⟨before, alternative, owned, earlier, inside⟩

/-- What stands in an alternative of a nonterminal of a sequence can be brought into the sequence. -/
private theorem Derives.expose (derives : g.Derives first (before ++ .nonterminal name :: after))
    (plainBefore : .epsilon ∉ before) (plainAfter : .epsilon ∉ after) (owned : alternative ∈ g.alternatives name)
    (inside : symbol ∈ alternative) (solid : symbol ≠ .epsilon) :
    ∃ front rear, .epsilon ∉ front ∧ .epsilon ∉ rear ∧ g.Derives first (front ++ symbol :: rear) := by
  obtain ⟨left, right, rfl⟩ := List.append_of_mem inside
  have moved := (derives_alternative owned).surround plainBefore plainAfter
  refine ⟨before ++ visible left, visible right ++ after, ?_, ?_, ?_⟩
  · simp [plainBefore, epsilon_not_mem_visible]
  · simp [plainAfter, epsilon_not_mem_visible]
  · rw [visible_append, visible_cons solid] at moved
    simpa using derives.trans (by simpa using moved)

theorem derives_of_leads {first last : Name} (path : Relation.ReflTransGen g.Leads first last) :
    ∃ before after, .epsilon ∉ before ∧ .epsilon ∉ after ∧
      g.Derives [.nonterminal first] (before ++ .nonterminal last :: after) := by
  induction path with
  | refl => exact ⟨[], [], List.not_mem_nil, List.not_mem_nil, .refl _⟩
  | tail _ leads ih =>
    obtain ⟨before, after, plainBefore, plainAfter, derives⟩ := ih
    obtain ⟨alternative, owned, inside⟩ := leads
    exact derives.expose plainBefore plainAfter owned inside (by simp)

/-- A derivation from reachable symbols meets no others, because a step brings in an alternative. -/
theorem Derives.reachable (derives : g.Derives first last) (found : ∀ symbol ∈ first, symbol ∈ g.reachable) :
    ∀ symbol ∈ last, symbol ∈ g.reachable := by
  induction derives with
  | refl => exact found
  | step step _ ih =>
    apply ih
    intro symbol member
    rcases step.origin member with old | ⟨name, replaced, alternative, owned, inside⟩
    · exact found symbol old
    · exact reachable_closed (found _ replaced) owned symbol inside

theorem reachable_of_derives (derives : g.Derives [.nonterminal g.start] form) :
    ∀ symbol ∈ form, symbol ∈ g.reachable := by
  apply derives.reachable
  intro symbol member
  obtain rfl := List.mem_singleton.mp member
  exact g.start_mem_reachable

theorem mem_reachable_iff_derives (once : g.nonterminals.Nodup) (solid : symbol ≠ .epsilon) :
    symbol ∈ g.reachable ↔ ∃ before after, g.Derives [.nonterminal g.start] (before ++ symbol :: after) := by
  constructor
  · intro member
    rcases (mem_reachable once symbol).mp member with rfl | ⟨name, alternative, owned, path, inside⟩
    · exact ⟨[], [], .refl _⟩
    · obtain ⟨before, after, plainBefore, plainAfter, derives⟩ := derives_of_leads path
      obtain ⟨front, rear, _, _, exposed⟩ := derives.expose plainBefore plainAfter owned inside solid
      exact ⟨front, rear, exposed⟩
  · intro found
    obtain ⟨before, after, derives⟩ := found
    exact reachable_of_derives derives symbol (by simp)

/-- The closure sets hold exactly the nonterminals that derive a sentence, those that derive the empty string,
and the symbols that stand in sequences derived from the start. -/
theorem closureSets_exact (wellFormed : g.WellFormed) :
    (∀ symbol, symbol ∈ g.productive ↔ ∃ name, symbol = .nonterminal name ∧ ∃ sentence, g.Generates name sentence) ∧
    (∀ symbol, symbol ∈ g.nullable ↔ ∃ name, symbol = .nonterminal name ∧ g.Derives [.nonterminal name] []) ∧
    (∀ symbol, symbol ≠ .epsilon →
      (symbol ∈ g.reachable ↔ ∃ before after, g.Derives [.nonterminal g.start] (before ++ symbol :: after))) := by
  refine ⟨mem_productive wellFormed, ?_, fun symbol => mem_reachable_iff_derives wellFormed.once⟩
  intro symbol
  rw [mem_nullable wellFormed]
  have vanishes : ∀ name, [] ∈ g.language name ↔ g.Derives [.nonterminal name] [] := fun name => and_iff_right rfl
  simp only [vanishes]

/-- `Z` owns no rule, nothing leads to `C`, and `A` vanishes behind an empty string. -/
def scattered : Grammar :=
  ⟨"S", [⟨"S", [[.nonterminal "A", .epsilon, .nonterminal "B"], [.terminal "s", .nonterminal "Z"]]⟩,
    ⟨"A", [[.epsilon, .nonterminal "B"], [.nonterminal "A", .nonterminal "Z"]]⟩,
    ⟨"B", [[.terminal "b", .nonterminal "B"], [.epsilon]]⟩, ⟨"C", [[.terminal "c", .nonterminal "S"]]⟩]⟩

theorem scattered_closureSets :
    scattered.WellFormed ∧ scattered.Derives [.nonterminal "S"] [] ∧ (∃ sentence, scattered.Generates "C" sentence) ∧
      (¬∃ sentence, scattered.Generates "Z" sentence) ∧
      (∃ before after, scattered.Derives [.nonterminal "S"] (before ++ .nonterminal "Z" :: after)) ∧
      ¬∃ before after, scattered.Derives [.nonterminal "S"] (before ++ .terminal "c" :: after) := by
  have wellFormed : scattered.WellFormed := by decide
  obtain ⟨productive, nullable, reachable⟩ := closureSets_exact wellFormed
  have vanishes : .nonterminal "S" ∈ scattered.nullable := by decide +kernel
  have fertile : .nonterminal "C" ∈ scattered.productive := by decide +kernel
  have barren : .nonterminal "Z" ∉ scattered.productive := by decide +kernel
  have reached : .nonterminal "Z" ∈ scattered.reachable := by decide +kernel
  have missed : .terminal "c" ∉ scattered.reachable := by decide +kernel
  obtain ⟨_, same, derives⟩ := (nullable _).mp vanishes
  obtain rfl := Symbol.nonterminal.inj same
  obtain ⟨_, same, generates⟩ := (productive _).mp fertile
  obtain rfl := Symbol.nonterminal.inj same
  refine ⟨wellFormed, derives, generates, ?_, (reachable _ (by simp)).mp reached, mt (reachable _ (by simp)).mpr missed⟩
  exact fun sentences => barren ((productive _).mpr ⟨_, rfl, sentences⟩)

end TopDownGrammar.Grammar
