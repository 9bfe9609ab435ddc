import TopDownGrammar.Proofs.FollowSets

/-! FOLLOW sets over FIRST sets of any origin. Nothing need tie these to the grammar: the symbols that they bring
in are finitely many, so the rounds come to an end, and they add nothing that the laws do not ask for. The same
family is reached when one occurrence after the other gives its symbols at once, in whatever order and portions. -/

namespace TopDownGrammar.Grammar

variable {g : Grammar} {first follow later : SetFamily} {follows : Name → Symbol → Prop}

/-- What FOLLOW sets are to hold: the end of the input behind the start, and behind each nonterminal that has a
set the terminal next to it, what the rest of the alternative begins with, and what follows the owner of the
alternative if the rest can vanish. -/
structure FollowLaws (g : Grammar) (first : SetFamily) (follows : Name → Symbol → Prop) : Prop where
  ended : follows g.start .endOfInput
  beside : ∀ owner before name text after,
    ⟨owner, before ++ .nonterminal name :: .terminal text :: after⟩ ∈ g.productions → name ∈ g.followKeys →
      follows name (.terminal text)
  begun : ∀ owner before name after, ⟨owner, before ++ .nonterminal name :: after⟩ ∈ g.productions →
    name ∈ g.followKeys → ∀ symbol ∈ firstOfSequence first after, symbol ≠ .epsilon → follows name symbol
  inherited : ∀ owner before name after, ⟨owner, before ++ .nonterminal name :: after⟩ ∈ g.productions →
    name ∈ g.followKeys → .epsilon ∈ firstOfSequence first after → ∀ symbol, follows owner symbol → follows name symbol

/-- What stands next to an occurrence is begun with, so the laws ask for no more than what is drawn in a round. -/
theorem followLaws_iff : g.FollowLaws first follows ↔ follows g.start .endOfInput ∧
    ∀ production ∈ g.productions, ∀ name ∈ g.followKeys, ∀ shown,
      FollowedBy (firstFront first) name (follows production.lhs) production.rhs shown → follows name shown := by
  constructor
  · intro laws
    refine ⟨laws.ended, ?_⟩
    intro production member name listed shown followed
    obtain ⟨owner, rhs⟩ := production
    obtain ⟨before, after, rfl, ⟨shows, solid⟩ | ⟨vanishes, outer⟩⟩ := followedBy_iff.mp followed
    · exact laws.begun owner before name after member listed shown (mem_firstOfSequence.mpr shows) solid
    · exact laws.inherited owner before name after member listed (mem_firstOfSequence.mpr vanishes) shown outer
  · intro closed
    obtain ⟨ended, drawn⟩ := closed
    have behind : ∀ owner before name after, ⟨owner, before ++ .nonterminal name :: after⟩ ∈ g.productions →
        name ∈ g.followKeys → ∀ shown, Behind (firstFront first) (follows owner) after shown → follows name shown :=
      fun owner before name after member listed shown behind =>
        drawn _ member name listed shown (followedBy_iff.mpr ⟨before, after, rfl, behind⟩)
    refine ⟨ended, ?_, ?_, ?_⟩
    · intro owner before name text after member listed
      apply behind owner before name _ member listed
      exact Or.inl ⟨Or.inl ⟨rfl, by simp⟩, by simp⟩
    · intro owner before name after member listed symbol begins solid
      apply behind owner before name after member listed
      exact Or.inl ⟨mem_firstOfSequence.mp begins, solid⟩
    · intro owner before name after member listed vanishes symbol outer
      apply behind owner before name after member listed
      exact Or.inr ⟨mem_firstOfSequence.mp vanishes, outer⟩

theorem followWith_laws (g : Grammar) (first : SetFamily) :
    g.FollowLaws first fun name symbol => symbol ∈ (g.followWith first).get name :=
  followLaws_iff.mpr ⟨g.endOfInput_mem_followWith first, fun _ member _ listed _ => followWith_closed member listed⟩

theorem followWith_keyed (g : Grammar) (first : SetFamily) : (g.followWith first).Keyed g.followKeys :=
  (g.growFollow_draws first).settle_keyed (SetFamily.keyed_tabulate _ _)

private theorem lhs_mem_followKeys {production : Production} (member : production ∈ g.productions) :
    production.lhs ∈ g.followKeys :=
  mem_followKeys.mpr (Or.inl (lhs_mem_nonterminals member))

theorem FollowLaws.of_mem_followWith (laws : g.FollowLaws first follows) :
    ∀ name, ∀ symbol ∈ (g.followWith first).get name, follows name symbol := by
  obtain ⟨ended, drawn⟩ := followLaws_iff.mp laws
  have kept : ∀ name, ∀ symbol ∈ (g.followWith first).get name, name ∈ g.followKeys → follows name symbol := by
    apply (g.growFollow_draws first).settle_induction fun name symbol => name ∈ g.followKeys → follows name symbol
    · intro name symbol member _
      obtain ⟨rfl, rfl⟩ := mem_seed.mp member
      exact ended
    · intro follow known name symbol given listed
      obtain ⟨production, member, followed⟩ := given
      apply drawn production member name listed symbol
      exact followed.mono fun shown outer => known production.lhs shown outer (lhs_mem_followKeys member)
  intro name symbol member
  exact kept name symbol member ((g.followWith_keyed first).listed member)

/-! One occurrence after the other. -/

def followSeed (g : Grammar) : SetFamily :=
  .tabulate g.followKeys fun name => if name = g.start then {.endOfInput} else ∅

/-- One occurrence of a nonterminal gives some of its symbols to the set at once, which may be all of them, or the
terminal next to it alone. -/
inductive Extends (g : Grammar) (first follow : SetFamily) : SetFamily → Prop
  | occurrence {owner name : Name} {before after : List Symbol} {given : SymbolSet}
      (member : ⟨owner, before ++ .nonterminal name :: after⟩ ∈ g.productions) (listed : name ∈ g.followKeys)
      (within : ∀ symbol ∈ given, symbol ∈ givenBehind first (follow.get owner) after) :
      Extends g first follow (.tabulate g.followKeys fun other =>
        if other = name then follow.get name ∪ given else follow.get other)

namespace Extends

private theorem keyed (step : g.Extends first follow later) : later.Keyed g.followKeys := by
  cases step
  exact SetFamily.keyed_tabulate _ _

private theorem grown (step : g.Extends first follow later) {name : Name} (listed : name ∈ g.followKeys) :
    ∀ symbol ∈ follow.get name, symbol ∈ later.get name := by
  intro symbol member
  cases step
  rw [SetFamily.get_tabulate listed]
  split
  next same => exact SymbolSet.mem_union.mpr (Or.inl (same ▸ member))
  next => exact member

private theorem origin (step : g.Extends first follow later) {name : Name} {symbol : Symbol} (member : symbol ∈ later.get name) :
    symbol ∈ follow.get name ∨ name ∈ g.followKeys ∧ ∃ production ∈ g.productions,
      FollowedBy (firstFront first) name (· ∈ follow.get production.lhs) production.rhs symbol := by
  have listed := step.keyed.listed member
  cases step with
  | @occurrence owner other before after given present _ within =>
    rw [SetFamily.get_tabulate listed] at member
    split at member
    next same =>
      subst same
      rcases SymbolSet.mem_union.mp member with old | new
      · exact Or.inl old
      · have behind := mem_givenBehind.mp (within symbol new)
        exact Or.inr ⟨listed, _, present, followedBy_iff.mpr ⟨before, after, rfl, behind⟩⟩
    next => exact Or.inl member

end Extends

private theorem closed_of_rest (rest : ∀ later, g.Extends first follow later → later = follow) :
    ∀ production ∈ g.productions, ∀ name ∈ g.followKeys, ∀ shown,
      FollowedBy (firstFront first) name (· ∈ follow.get production.lhs) production.rhs shown →
        shown ∈ follow.get name := by
  intro production member name listed shown followed
  obtain ⟨owner, rhs⟩ := production
  obtain ⟨before, after, rfl, behind⟩ := followedBy_iff.mp followed
  have full : ∀ symbol ∈ givenBehind first (follow.get owner) after,
      symbol ∈ givenBehind first (follow.get owner) after := fun _ inside => inside
  rw [← rest _ (.occurrence member listed full), SetFamily.get_tabulate listed, if_pos rfl]
  exact SymbolSet.mem_union.mpr (Or.inr (mem_givenBehind.mpr behind))

/-- All that has been given so far is asked for by the laws. -/
theorem FollowLaws.of_reached (laws : g.FollowLaws first follows)
    (path : Relation.ReflTransGen (g.Extends first) g.followSeed follow) :
    follow.Keyed g.followKeys ∧ .endOfInput ∈ follow.get g.start ∧
      ∀ name, ∀ symbol ∈ follow.get name, follows name symbol := by
  obtain ⟨ended, drawn⟩ := followLaws_iff.mp laws
  induction path with
  | refl =>
    refine ⟨SetFamily.keyed_tabulate _ _, mem_seed.mpr ⟨rfl, rfl⟩, ?_⟩
    intro name symbol member
    obtain ⟨rfl, rfl⟩ := mem_seed.mp member
    exact ended
  | tail _ step ih =>
    obtain ⟨_, seeded, below⟩ := ih
    refine ⟨step.keyed, step.grown (mem_followKeys.mpr (Or.inr rfl)) _ seeded, ?_⟩
    intro name symbol member
    rcases step.origin member with old | ⟨listed, production, present, followed⟩
    · exact below name symbol old
    · exact drawn production present name listed symbol (followed.mono (below production.lhs))

theorem eq_followWith_of_rest (path : Relation.ReflTransGen (g.Extends first) g.followSeed follow)
    (rest : ∀ later, g.Extends first follow later → later = follow) : follow = g.followWith first := by
  obtain ⟨keyed, ended, below⟩ := (g.followWith_laws first).of_reached path
  have laws : g.FollowLaws first fun name symbol => symbol ∈ follow.get name :=
    followLaws_iff.mpr ⟨ended, closed_of_rest rest⟩
  apply keyed.ext (g.followWith_keyed first)
  exact fun name _ symbol => ⟨below name symbol, laws.of_mem_followWith name symbol⟩

/-- Every extension that changes something brings a symbol of the scope into a set. -/
theorem count_extensions_le (run : Nat → SetFamily) (count : Nat) (initially : run 0 = g.followSeed)
    (moves : ∀ n < count, g.Extends first (run n) (run (n + 1)) ∧ run (n + 1) ≠ run n) :
    count ≤ g.followKeys.length * (g.followScope first).length := by
  have kept : ∀ n ≤ count, (run n).Keyed g.followKeys ∧
      (∀ name, ∀ symbol ∈ (run n).get name, symbol ∈ g.followScope first) ∧ n ≤ (run n).size g.followKeys := by
    intro n within
    induction n with
    | zero =>
      rw [initially]
      refine ⟨SetFamily.keyed_tabulate _ _, ?_, Nat.zero_le _⟩
      exact fun name symbol member => (mem_seed.mp member).2 ▸ List.mem_cons_self
    | succ n ih =>
      obtain ⟨keyed, inside, large⟩ := ih (by omega)
      obtain ⟨step, moved⟩ := moves n (by omega)
      have larger := keyed.size_lt step.keyed (fun name listed => step.grown listed) moved
      refine ⟨step.keyed, ?_, by omega⟩
      intro name symbol member
      rcases step.origin member with old | ⟨_, production, present, followed⟩
      · exact inside name symbol old
      · exact mem_followScope inside present followed
  obtain ⟨_, inside, large⟩ := kept count (Nat.le_refl _)
  exact large.trans (SetFamily.size_le inside)

/-- Whatever the FIRST sets hold, the rounds end in the least family that obeys the laws. So do single occurrences in
any order, each giving as much as it likes: only so many of them change a set, and once none can the family is the
same. -/
theorem followWith_least (g : Grammar) (first : SetFamily) :
    (∃ rounds, g.followWith first = (g.growFollow first)^[rounds] g.followSeed) ∧
    g.growFollow first (g.followWith first) = g.followWith first ∧
    (g.followWith first).keys = (if g.start ∈ g.nonterminals then g.nonterminals else g.nonterminals ++ [g.start]) ∧
    g.FollowLaws first (fun name symbol => symbol ∈ (g.followWith first).get name) ∧
    (∀ follows, g.FollowLaws first follows → ∀ name, ∀ symbol ∈ (g.followWith first).get name, follows name symbol) ∧
    (∀ (run : Nat → SetFamily) (count : Nat), run 0 = g.followSeed →
      (∀ n < count, g.Extends first (run n) (run (n + 1)) ∧ run (n + 1) ≠ run n) →
        count ≤ g.followKeys.length * (g.occurrences.length + first.members.length + 1)) ∧
    (∀ follow, Relation.ReflTransGen (g.Extends first) g.followSeed follow →
      (∀ later, g.Extends first follow later → later = follow) → follow = g.followWith first) := by
  refine ⟨settle_eq_iterate _ _ _, g.growFollow_followWith first, ?_, g.followWith_laws first,
    fun _ laws => laws.of_mem_followWith, ?_, fun _ => eq_followWith_of_rest⟩
  · simp only [(g.followWith_keyed first).keys, followKeys, owns_iff]
  · intro run count initially moves
    have bound := count_extensions_le run count initially moves
    simpa [followScope] using bound

/-- The start owns no rule, and the FIRST sets speak of a symbol that the grammar does not have. -/
example :
    let g : Grammar := ⟨"S", [⟨"A", [[.terminal "a", .nonterminal "A", .nonterminal "S"], [.nonterminal "S", .nonterminal "A"]]⟩]⟩
    let follow := g.followWith ⟨[("S", .ofList [.nonterminal "Q", .epsilon]), ("Q", {.terminal "q"})]⟩
    follow.keys = ["A", "S"] ∧ follow.get "A" = {.nonterminal "Q"} ∧
      follow.get "S" = .ofList [.nonterminal "Q", .endOfInput] := by
  decide +kernel

end TopDownGrammar.Grammar
