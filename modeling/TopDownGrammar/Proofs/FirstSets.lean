import TopDownGrammar.Grammar.Checked
import TopDownGrammar.Lookahead
import TopDownGrammar.Proofs.Beginnings
import TopDownGrammar.Proofs.Saturations

/-! FIRST sets are exact. A terminal is in the set of a sequence if and only if the sequence derives
one that begins with it, and the empty string if and only if the sequence can vanish. The rounds add
nothing else, and what they end in is closed under the productions. -/

namespace TopDownGrammar

variable {first larger : SetFamily} {form rest : List Symbol} {symbol shown : Symbol}

/-- What a symbol shows under given FIRST sets. -/
def firstFront (first : SetFamily) : Symbol → Symbol → Prop
  | .nonterminal name, shown => shown ∈ first.get name
  | symbol, shown => shown = symbol

theorem mem_firstOfSequence : shown ∈ firstOfSequence first form ↔ Shows (firstFront first) form shown := by
  induction form with
  | nil => exact SymbolSet.mem_singleton
  | cons symbol rest ih =>
    cases symbol with
    | nonterminal name =>
      simp only [firstOfSequence, Shows, firstFront, SetFamily.get]
      cases first.get? name with
      | none => simp
      | some set => rw [Option.getD_some, mem_ite_epsilon, ih]
    | epsilon => simp [firstOfSequence, Shows, firstFront, ih]
    | _ =>
      simp only [firstOfSequence, Shows, firstFront, SymbolSet.mem_singleton, reduceCtorEq, false_and, or_false]
      exact (and_iff_left_of_imp fun same => by simp [same]).symm

theorem origin_first (shows : Shows (firstFront first) form shown) :
    shown = .epsilon ∨ shown ∈ form ∧ shown.isNonterminal = false ∨ ∃ name, shown ∈ first.get name := by
  rcases shows.origin with vanishes | ⟨symbol, member, here⟩
  · exact Or.inl vanishes
  · cases symbol with
    | nonterminal name => exact Or.inr (Or.inr ⟨name, here⟩)
    | _ => exact Or.inr (Or.inl ⟨here ▸ member, here ▸ rfl⟩)

/-! FIRST sets of sequences under whatever sets their nonterminals are given. -/

private theorem mem_firstOfSequence_singleton : shown ∈ firstOfSequence first [symbol] ↔ firstFront first symbol shown := by
  rw [mem_firstOfSequence, shows_singleton]

theorem firstOfSequence_append : firstOfSequence first (form ++ rest) =
    if .epsilon ∈ firstOfSequence first form then
      (firstOfSequence first form).erase .epsilon ∪ firstOfSequence first rest
    else firstOfSequence first form := by
  refine SymbolSet.ext fun shown => ?_
  rw [mem_ite_epsilon]
  simp only [mem_firstOfSequence]
  exact shows_append

private theorem firstFront_mono (below : ∀ name, ∀ shown ∈ first.get name, shown ∈ larger.get name)
    (front : firstFront first symbol shown) : firstFront larger symbol shown := by
  cases symbol with
  | nonterminal name => exact below name shown front
  | _ => exact front

theorem firstOfSequence_mono (below : ∀ name, ∀ shown ∈ first.get name, shown ∈ larger.get name) :
    ∀ shown ∈ firstOfSequence first form, shown ∈ firstOfSequence larger form := by
  intro shown member
  rw [mem_firstOfSequence] at member ⊢
  exact member.mono fun symbol _ shown => firstFront_mono below

/-- Whatever the sets of the nonterminals are, the set of a sequence is put together from those of its parts, down
to single symbols, and no symbol is lost when sets grow. A nonterminal without a set counts as one with the empty
set, so that giving it one is growth as well. -/
theorem firstOfSequence_compositional (first : SetFamily) :
    firstOfSequence first [] = {.epsilon} ∧
    (∀ symbol shown, shown ∈ firstOfSequence first [symbol] ↔ firstFront first symbol shown) ∧
    (∀ form rest, firstOfSequence first (form ++ rest) =
      if .epsilon ∈ firstOfSequence first form then
        (firstOfSequence first form).erase .epsilon ∪ firstOfSequence first rest
      else firstOfSequence first form) ∧
    ∀ larger : SetFamily, (∀ name, ∀ symbol ∈ first.get name, symbol ∈ larger.get name) →
      ∀ form, ∀ symbol ∈ firstOfSequence first form, symbol ∈ firstOfSequence larger form :=
  ⟨rfl, fun _ _ => mem_firstOfSequence_singleton, fun _ _ => firstOfSequence_append,
    fun _ below _ => firstOfSequence_mono below⟩

/-- Only `A` has a set at first, and that of `B` is then put in. -/
theorem widened_firstOfSequence :
    let first : SetFamily := ⟨[("A", .ofList [.terminal "a", .epsilon])]⟩
    let larger : SetFamily := ⟨[("A", .ofList [.terminal "a", .epsilon, .endOfInput]), ("B", {.epsilon})]⟩
    (∀ name, ∀ symbol ∈ first.get name, symbol ∈ larger.get name) ∧
      firstOfSequence first ([.nonterminal "A", .epsilon] ++ [.nonterminal "B", .terminal "b"]) = {.terminal "a"} ∧
      .terminal "a" ∈ firstOfSequence larger [.nonterminal "A", .epsilon, .nonterminal "B", .terminal "b"] := by
  intro first larger
  obtain ⟨_, _, concatenated, grown⟩ := firstOfSequence_compositional first
  have below : ∀ name, ∀ symbol ∈ first.get name, symbol ∈ larger.get name := by
    intro name symbol member
    by_cases same : name = "A"
    · subst same
      exact (by decide : ∀ symbol ∈ (first.get "A").toList, symbol ∈ larger.get "A") symbol member
    · have unlisted : (name == "A") = false := beq_eq_false_iff_ne.mpr same
      simp [first, SetFamily.get, SetFamily.get?, List.lookup_cons, unlisted] at member
  refine ⟨below, ?_, grown larger below _ _ (by decide)⟩
  rw [concatenated]
  decide

namespace Grammar

variable {g : Grammar} {name : Name}

/-- What the FIRST set of a sequence is to hold. -/
def Begins (g : Grammar) (form : List Symbol) : Symbol → Prop
  | .terminal text => ∃ rest, g.Derives form (.terminal text :: rest)
  | .epsilon => g.Derives form []
  | _ => False

theorem begins_iff : g.Begins form shown ↔ (shown.isTerminal = true ∨ shown = .epsilon) ∧ g.Leading form shown := by
  cases shown <;> simp [Begins, Leading, Symbol.isTerminal]

private theorem growFirst_draws (g : Grammar) :
    SetFamily.Draws g.nonterminals
      (fun first name shown => ∃ alternative ∈ g.alternatives name, Shows (firstFront first) alternative shown)
      g.growFirst where
  keyed _ := SetFamily.keyed_tabulate _ _
  mem first name listed shown := by
    simp only [growFirst, SetFamily.get_tabulate listed, mem_foldl_union, mem_firstOfSequence]

theorem first_keyed (g : Grammar) : g.first.Keyed g.nonterminals :=
  g.growFirst_draws.settle_keyed (SetFamily.keyed_tabulate _ _)

/-- Sets that hold only what their nonterminals begin with say nothing else of a sequence. -/
theorem begins_of_shows (unmarked : .endOfInput ∉ form)
    (sound : ∀ name, ∀ shown ∈ first.get name, g.Begins [.nonterminal name] shown)
    (shows : Shows (firstFront first) form shown) : g.Begins (visible form) shown := by
  refine begins_iff.mpr ⟨?_, leading_of_shows ?_ shows⟩
  · rcases origin_first shows with vanishes | ⟨member, kind⟩ | ⟨name, known⟩
    · exact Or.inr vanishes
    · cases shown with
      | nonterminal name => cases kind
      | terminal text => exact Or.inl rfl
      | epsilon => exact Or.inr rfl
      | endOfInput => exact absurd member unmarked
    · exact (begins_iff.mp (sound name shown known)).1
  · intro symbol _ shown here
    cases symbol with
    | nonterminal name => exact (begins_iff.mp (sound name shown here)).2
    | _ => exact here ▸ leading_self _

/-- What the sequences shown by the alternatives hand on holds of all that is in a FIRST set. -/
theorem first_induction {holds : Name → Symbol → Prop}
    (step : ∀ first : SetFamily, (∀ name, ∀ shown ∈ first.get name, holds name shown) →
      ∀ name, ∀ alternative ∈ g.alternatives name, ∀ shown, Shows (firstFront first) alternative shown → holds name shown) :
    ∀ name, ∀ shown ∈ g.first.get name, holds name shown := by
  apply g.growFirst_draws.settle_induction holds
  · exact fun name shown member => absurd member SetFamily.not_mem_tabulate_empty
  · intro first known name shown drawn
    obtain ⟨alternative, owned, shows⟩ := drawn
    exact step first known name alternative owned shown shows

theorem first_sound (wellFormed : g.WellFormed) :
    ∀ name, ∀ shown ∈ g.first.get name, g.Begins [.nonterminal name] shown := by
  apply first_induction
  intro first known name alternative owned shown shows
  have begins := begins_iff.mp (begins_of_shows (wellFormed.unmarked owned) known shows)
  exact begins_iff.mpr ⟨begins.1, begins.2.after (derives_alternative owned)⟩

theorem first_covers (g : Grammar) : g.Covers (firstFront g.first) where
  epsilon _ := Iff.rfl
  nonterminal name alternative owned shown shows := by
    refine g.growFirst_draws.settle_closed (.epsilon :: g.occurrences) (SetFamily.keyed_tabulate _ _) ?_ ?_ ?_
      (mem_nonterminals_of_alternative owned) ⟨alternative, owned, shows⟩
    · exact fun name shown member => absurd member SetFamily.not_mem_tabulate_empty
    · intro first inside name shown drawn
      obtain ⟨alternative, owned, shows⟩ := drawn
      rcases origin_first shows with vanishes | ⟨member, _⟩ | ⟨other, known⟩
      · exact List.mem_cons.mpr (Or.inl vanishes)
      · exact List.mem_cons_of_mem _ (mem_occurrences owned member)
      · exact inside other shown known
    · simp [nonterminals]

/-- The FIRST sets are the least that cover the productions. -/
theorem Covers.shows_of_mem_first {front : Symbol → Symbol → Prop} (covers : g.Covers front)
    (itself : ∀ symbol, symbol.isNonterminal = false → front symbol symbol) :
    ∀ name, ∀ shown ∈ g.first.get name, front (.nonterminal name) shown := by
  apply first_induction
  intro first known name alternative owned shown shows
  refine covers.nonterminal name alternative owned shown (shows.mono ?_)
  intro symbol _ shown here
  cases symbol with
  | nonterminal other => exact known other shown here
  | _ =>
    obtain rfl : shown = _ := here
    exact itself _ rfl

theorem first_unfold :
    ∀ name, ∀ shown ∈ g.first.get name, ∃ alternative ∈ g.alternatives name, Shows (firstFront g.first) alternative shown := by
  apply first_induction
  intro first known name alternative owned shown shows
  refine ⟨alternative, owned, shows.mono ?_⟩
  intro symbol _ shown here
  cases symbol with
  | nonterminal other =>
    obtain ⟨body, possessed, inner⟩ := known other shown here
    exact g.first_covers.nonterminal other body possessed shown inner
  | _ => exact here

/-- The FIRST set of a sequence holds what the sequence begins with, its empty strings left out. -/
theorem mem_firstOfSequence_first (wellFormed : g.WellFormed) (unmarked : .endOfInput ∉ form) :
    shown ∈ firstOfSequence g.first form ↔ g.Begins (visible form) shown := by
  rw [mem_firstOfSequence]
  refine ⟨begins_of_shows unmarked (first_sound wellFormed), ?_⟩
  intro begins
  obtain ⟨kind, leading⟩ := begins_iff.mp begins
  refine g.first_covers.shows_of_leading ?_ leading
  intro _
  cases shown with
  | terminal text => rfl
  | _ => simp_all [Symbol.isTerminal]

theorem mem_first (wellFormed : g.WellFormed) : shown ∈ g.first.get name ↔ g.Begins [.nonterminal name] shown := by
  have unmarked : .endOfInput ∉ [Symbol.nonterminal name] := by simp
  have alone : shown ∈ firstOfSequence g.first [.nonterminal name] ↔ g.Begins [.nonterminal name] shown :=
    mem_firstOfSequence_first wellFormed unmarked
  rwa [mem_firstOfSequence, shows_singleton] at alone

/-- Every nonterminal with rules has the FIRST set that its derivations give it, and so has every
sequence without the end of the input. -/
theorem first_exact (wellFormed : g.WellFormed) :
    g.first.keys = g.nonterminals ∧
    (∀ name ∈ g.nonterminals, ∃ set, g.first.get? name = some set ∧
      ∀ symbol, symbol ∈ set ↔ g.Begins [.nonterminal name] symbol) ∧
    (∀ form, .endOfInput ∉ form → ∀ symbol,
      symbol ∈ firstOfSequence g.first form ↔ g.Begins (visible form) symbol) := by
  refine ⟨g.first_keyed.keys, ?_, ?_⟩
  · intro name listed
    exact ⟨_, g.first_keyed.get? listed, fun _ => mem_first wellFormed⟩
  · intro form unmarked symbol
    exact mem_firstOfSequence_first wellFormed unmarked

def prefixed : Grammar :=
  ⟨"S", [⟨"S", [[.nonterminal "S", .terminal "d"], [.nonterminal "A", .epsilon, .nonterminal "B", .terminal "c"]]⟩,
    ⟨"A", [[.nonterminal "B", .nonterminal "A"], [.epsilon]]⟩,
    ⟨"B", [[.nonterminal "A", .nonterminal "B"], [.terminal "b"], [.nonterminal "Z", .terminal "z"]]⟩]⟩

theorem prefixed_first :
    prefixed.WellFormed ∧ (∃ rest, prefixed.Derives [.nonterminal "S"] (.terminal "b" :: rest)) ∧
      prefixed.Derives [.nonterminal "A"] [] ∧
      ¬∃ rest, prefixed.Derives [.nonterminal "A", .nonterminal "Z", .terminal "z"] (.terminal "z" :: rest) := by
  have wellFormed : prefixed.WellFormed := by decide
  obtain ⟨_, sets, sequences⟩ := first_exact wellFormed
  obtain ⟨setOfS, foundS, beginsS⟩ := sets "S" (by decide)
  obtain ⟨setOfA, foundA, beginsA⟩ := sets "A" (by decide)
  have lookedUp : prefixed.first.get? "S" = some (.ofList [.terminal "b"]) ∧
      prefixed.first.get? "A" = some (.ofList [.terminal "b", .epsilon]) := by decide +kernel
  obtain rfl := Option.some.inj (foundS.symm.trans lookedUp.1)
  obtain rfl := Option.some.inj (foundA.symm.trans lookedUp.2)
  refine ⟨wellFormed, (beginsS (.terminal "b")).mp (by decide), (beginsA .epsilon).mp (by decide), ?_⟩
  have absent : .terminal "z" ∉ firstOfSequence prefixed.first [.nonterminal "A", .nonterminal "Z", .terminal "z"] := by
    decide +kernel
  exact fun begins => absent ((sequences _ (by decide) (.terminal "z")).mpr begins)

end Grammar

end TopDownGrammar
