import TopDownGrammar.Proofs.FactoringLanguage
import TopDownGrammar.Proofs.ProperForm
import TopDownGrammar.Proofs.Rereading
import TopDownGrammar.Proofs.TextFormat

/-! Grammars after any transforms in any order. A transform leaves a well-formed grammar well-formed and brings no terminal
in, so the same is true of any number of them. A token of a text holds no bar and no arrow, so what transforms make of a
grammar that was read is read back from its text as long as the start owns a rule. -/

namespace TopDownGrammar

/-- The transforms of a grammar as data, so that they can be carried out one after the other. -/
inductive Transform where
  | epsilonFree
  | unitFree
  | productiveOnly
  | reachableOnly
  | usefulOnly
  | proper
  | factor (options : FactorOptions)
deriving DecidableEq, Repr

/-- The grammar that a transform makes. What proper form goes through on the way is the result of other transforms. -/
def Transform.apply (g : Grammar) : Transform → Grammar
  | epsilonFree => g.epsilonFree
  | unitFree => g.unitFree
  | productiveOnly => g.productiveOnly
  | reachableOnly => g.reachableOnly
  | usefulOnly => g.usefulOnly
  | proper => g.normalization.proper
  | factor options => (g.factor options).grammar

def Grammar.transformed (g : Grammar) (transforms : List Transform) : Grammar :=
  transforms.foldl Transform.apply g

namespace Grammar

variable {g h next : Grammar} {conflict : Conflict} {name : Name} {alternative : Alternative} {text : String}

theorem wellFormed_apply (wellFormed : g.WellFormed) (transform : Transform) : (transform.apply g).WellFormed := by
  cases transform with
  | epsilonFree => exact wellFormed_epsilonFree wellFormed
  | unitFree => exact wellFormed_unitFree wellFormed
  | productiveOnly => exact wellFormed_productiveOnly wellFormed
  | reachableOnly => exact wellFormed_reachableOnly wellFormed
  | usefulOnly => exact wellFormed_usefulOnly wellFormed
  | proper => exact wellFormed_proper wellFormed
  | factor options => exact (factor_kept wellFormed options).wellFormed

theorem wellFormed_transformed (wellFormed : g.WellFormed) (transforms : List Transform) :
    (g.transformed transforms).WellFormed := by
  induction transforms generalizing g with
  | nil => exact wellFormed
  | cons transform rest ih => exact ih (wellFormed_apply wellFormed transform)

/-! Terminals. -/

private theorem terminal_mem_terminals (owned : alternative ∈ g.alternatives name) (inside : .terminal text ∈ alternative) :
    .terminal text ∈ g.terminals :=
  mem_distinct.mpr (List.mem_filter.mpr ⟨mem_occurrences owned inside, rfl⟩)

private theorem terminals_subset (once : h.nonterminals.Nodup)
    (known : ∀ name, ∀ alternative ∈ h.alternatives name, ∀ text, .terminal text ∈ alternative →
      .terminal text ∈ g.terminals) : h.terminals ⊆ g.terminals := by
  intro symbol member
  obtain ⟨occurs, terminal⟩ := List.mem_filter.mp (mem_distinct.mp member)
  obtain ⟨production, listed, inside⟩ := List.mem_flatMap.mp occurs
  cases symbol with
  | terminal text => exact known production.lhs production.rhs ((mem_alternatives once).mpr listed) text inside
  | _ => cases terminal

private theorem terminals_epsilonFree (once : g.nonterminals.Nodup) : g.epsilonFree.terminals ⊆ g.terminals := by
  refine terminals_subset (nodup_epsilonFree g) fun name alternative owned text inside => ?_
  rcases (mem_alternatives_epsilonFree once).mp owned with ⟨whole, held, omitted⟩ | ⟨_, _, rfl | rfl⟩
  · exact terminal_mem_terminals held (mem_of_mem_omissions omitted inside).1
  · cases List.mem_singleton.mp inside
  · cases List.mem_singleton.mp inside

private theorem terminals_unitFree (once : g.nonterminals.Nodup) : g.unitFree.terminals ⊆ g.terminals := by
  refine terminals_subset (nodup_ofProductions _ _) fun name alternative owned text inside => ?_
  obtain ⟨_, other, _, held, _⟩ := (mem_alternatives_unitFree once).mp owned
  exact terminal_mem_terminals held inside

private theorem terminals_productiveOnly (wellFormed : g.WellFormed) : g.productiveOnly.terminals ⊆ g.terminals := by
  refine terminals_subset (wellFormed_productiveOnly wellFormed).once fun name alternative owned text inside => ?_
  by_cases fertile : .nonterminal g.start ∈ g.productive
  · exact terminal_mem_terminals ((mem_alternatives_productiveOnly fertile wellFormed.once).mp owned).1 inside
  · rw [productiveOnly_of_barren fertile, idle, mem_alternatives_ofProductions, List.mem_singleton] at owned
    obtain ⟨rfl, rfl⟩ := Production.mk.inj owned
    cases List.mem_singleton.mp inside

private theorem terminals_reachableOnly (once : g.nonterminals.Nodup) : g.reachableOnly.terminals ⊆ g.terminals := by
  refine terminals_subset (nodup_ofProductions _ _) fun name alternative owned text inside => ?_
  exact terminal_mem_terminals ((mem_alternatives_reachableOnly once).mp owned).1 inside

private theorem terminals_usefulOnly (wellFormed : g.WellFormed) : g.usefulOnly.terminals ⊆ g.terminals :=
  List.Subset.trans (terminals_reachableOnly (wellFormed_productiveOnly wellFormed).once)
    (terminals_productiveOnly wellFormed)

private theorem terminals_proper (wellFormed : g.WellFormed) : g.proper.terminals ⊆ g.terminals := by
  have plain := wellFormed_epsilonFree wellFormed
  exact List.Subset.trans (terminals_usefulOnly (wellFormed_unitFree plain))
    (List.Subset.trans (terminals_unitFree plain.once) (terminals_epsilonFree wellFormed.once))

private theorem terminal_of_compact {symbols : List Symbol} (inside : .terminal text ∈ compact symbols) :
    .terminal text ∈ symbols :=
  (mem_visible.mp ((mem_written inside).resolve_left (by simp))).1

private theorem terminal_of_expandFront {expanded : Alternative} (owned : alternative ∈ g.alternatives name)
    (member : expanded ∈ g.expandFront alternative) (inside : .terminal text ∈ expanded) :
    .terminal text ∈ g.terminals := by
  rcases mem_expandFront.mp member with ⟨front, rest, body, rfl, held, rfl⟩ | ⟨_, rfl⟩
  · rcases List.mem_append.mp (terminal_of_compact inside) with inBody | inRest
    · exact terminal_mem_terminals held inBody
    · exact terminal_mem_terminals owned (List.mem_cons_of_mem _ inRest)
  · exact terminal_mem_terminals owned (terminal_of_compact inside)

private theorem terminals_expandAt (wellFormed : g.WellFormed) {position : Nat}
    (found : (g.alternatives name)[position]? = some alternative) : (g.expandAt name position).terminals ⊆ g.terminals := by
  refine terminals_subset (nodup_replaceAlternatives wellFormed.once) fun other expanded owned text inside => ?_
  rcases origin_expandAt wellFormed found owned with held | ⟨_, opened⟩
  · exact terminal_mem_terminals held inside
  · exact terminal_of_expandFront (List.mem_of_getElem? found) opened inside

private theorem terminals_factorOut (wellFormed : g.WellFormed) {shared : Symbol} {restA restB : List Symbol}
    (located : g.Located conflict (shared :: restA) (shared :: restB)) :
    (g.factorOut conflict.nonterminal conflict.earlier conflict.later shared).terminals ⊆ g.terminals := by
  have first := List.mem_of_getElem? located.earlier
  have second := List.mem_of_getElem? located.later
  have once := (wellFormed_factorOut wellFormed located.earlier located.later).once
  refine terminals_subset once fun other alternative owned text inside => ?_
  rcases origin_factorOut wellFormed located owned with ⟨_, rfl | rfl⟩ | held | ⟨_, rfl⟩
  · exact terminal_mem_terminals first (List.mem_cons_of_mem _ (terminal_of_compact inside))
  · exact terminal_mem_terminals second (List.mem_cons_of_mem _ (terminal_of_compact inside))
  · exact terminal_mem_terminals held inside
  · simp only [List.mem_cons, List.not_mem_nil, or_false, reduceCtorEq] at inside
    exact terminal_mem_terminals first (inside ▸ List.mem_cons_self)

private theorem Rewrites.terminals (rewrites : g.Rewrites conflict next) (wellFormed : g.WellFormed) :
    next.terminals ⊆ g.terminals := by
  cases rewrites with
  | merge located =>
    refine terminals_subset (nodup_replaceAlternatives wellFormed.once) fun other alternative owned text inside => ?_
    exact terminal_mem_terminals ((mem_alternatives_merge wellFormed located).mp owned) inside
  | factor visible located => exact terminals_factorOut wellFormed located
  | expand located sides found expandable => exact terminals_expandAt wellFormed found

private theorem terminals_factor (wellFormed : g.WellFormed) (options : FactorOptions) :
    (g.factor options).grammar.terminals ⊆ g.terminals := by
  have kept : (g.factor options).grammar.WellFormed ∧ (g.factor options).grammar.terminals ⊆ g.terminals := by
    refine factorSteps_keeps (fun h => h.WellFormed ∧ h.terminals ⊆ g.terminals) ?_ options.maxSteps
      ⟨wellFormed, List.Subset.refl _⟩
    intro h next both stepped
    obtain ⟨conflict, _, rewrites⟩ := rewrites_of_factorStep both.1.once stepped
    exact ⟨rewrites.wellFormed both.1, List.Subset.trans (rewrites.terminals both.1) both.2⟩
  exact kept.2

theorem terminals_apply (wellFormed : g.WellFormed) (transform : Transform) :
    (transform.apply g).terminals ⊆ g.terminals := by
  cases transform with
  | epsilonFree => exact terminals_epsilonFree wellFormed.once
  | unitFree => exact terminals_unitFree wellFormed.once
  | productiveOnly => exact terminals_productiveOnly wellFormed
  | reachableOnly => exact terminals_reachableOnly wellFormed.once
  | usefulOnly => exact terminals_usefulOnly wellFormed
  | proper => exact terminals_proper wellFormed
  | factor options => exact terminals_factor wellFormed options

theorem terminals_transformed (wellFormed : g.WellFormed) (transforms : List Transform) :
    (g.transformed transforms).terminals ⊆ g.terminals := by
  induction transforms generalizing g with
  | nil => exact List.Subset.refl _
  | cons transform rest ih =>
    exact List.Subset.trans (ih (wellFormed_apply wellFormed transform)) (terminals_apply wellFormed transform)

/-- A grammar that was read from text or built from checked productions is well-formed, and stays so whatever
is done to it. -/
theorem transformed_wellFormed (origin : (∃ text, Grammar.read text = .ok g) ∨
      ∃ start productions, Grammar.build start productions = .ok g) (transforms : List Transform) :
    (g.transformed transforms).WellFormed ∧ .endOfInput ∉ (g.transformed transforms).symbols := by
  have initially : g.WellFormed := by
    rcases origin with ⟨text, read⟩ | ⟨start, productions, built⟩
    · exact wellFormed_read read
    · exact wellFormed_build built
  have wellFormed := wellFormed_transformed initially transforms
  exact ⟨wellFormed, wellFormed.unmarked_symbols⟩

/-- The first number is taken, so fresh names begin with the second. -/
def renumbered : Grammar :=
  ⟨"S", [⟨"S", [[.nonterminal "S1", .terminal "a"], [.nonterminal "S1", .terminal "b"], [.epsilon]]⟩,
    ⟨"S1", [[.epsilon, .nonterminal "S1"], [.terminal "c"]]⟩]⟩

theorem renumbered_wellFormed :
    Grammar.read "S -> S1 a | S1 b | &\n\nS1 -> & S1 | c" = .ok renumbered ∧
      (renumbered.transformed [.factor {}, .epsilonFree, .proper]).WellFormed ∧
      .endOfInput ∉ (renumbered.transformed [.factor {}, .epsilonFree, .proper]).symbols := by
  have read : Grammar.read "S -> S1 a | S1 b | &\n\nS1 -> & S1 | c" = .ok renumbered := by decide +kernel
  exact ⟨read, transformed_wellFormed (Or.inl ⟨_, read⟩) _⟩

end Grammar

/-! Reading back what was made from text. -/

variable {line : List Char} {rule : Rule} {alternative : Alternative} {symbol : Symbol} {text : String} {g : Grammar}

/-- What stands in one piece in a line can stand in one piece in another. -/
theorem States.uncut (states : States line rule) (member : alternative ∈ rule.alternatives)
    (inside : symbol ∈ alternative) : Uncut symbol.text := by
  obtain ⟨before, after, pieces, cut, _, _, joined, written⟩ := states
  obtain ⟨piece, listed, _, words, worded, spelt⟩ := exists_entry written member
  obtain ⟨word, present, rfl, _⟩ := exists_entry spelt inside
  have within := worded.within present
  constructor
  · exact fun bar => joined.free piece listed (within.subset bar)
  · exact fun arrowed => (cut_iff.mp cut).2 (arrowed.trans (within.trans (joined.within listed)))

namespace Grammar

theorem uncut_of_read (read : Grammar.read text = .ok g) {token : String} (member : .terminal token ∈ g.terminals) :
    Uncut token := by
  obtain ⟨first, rest, all, _, gathers⟩ := read_iff_states.mp read
  obtain ⟨occurs, _⟩ := List.mem_filter.mp (mem_distinct.mp member)
  obtain ⟨production, listed, inside⟩ := List.mem_flatMap.mp occurs
  have owned := (mem_alternatives (wellFormed_read read).once).mpr listed
  rw [gathers_iff.mp gathers, mem_alternatives_ofProductions] at owned
  obtain ⟨rule, present, held⟩ := List.mem_flatMap.mp owned
  obtain ⟨alternative, held, same⟩ := List.mem_map.mp held
  obtain ⟨_, _, states⟩ := exists_entry all present
  obtain ⟨_, rfl⟩ := Production.mk.inj same
  exact states.uncut held inside

private theorem read_text_of_uncut (wellFormed : g.WellFormed) (listed : g.start ∈ g.nonterminals)
    (uncut : ∀ token, .terminal token ∈ g.terminals → Uncut token) :
    Grammar.read g.text = .ok ⟨g.start, g.printed⟩ := by
  refine read_text wellFormed listed fun rule member alternative inside symbol present => ?_
  have checked := wellFormed.symbols rule member alternative inside symbol present
  by_cases terminal : ∃ token, symbol = .terminal token
  · obtain ⟨token, rfl⟩ := terminal
    have owned : alternative ∈ g.alternatives rule.lhs := alternatives_of_mem wellFormed.once member ▸ inside
    exact uncut token (terminal_mem_terminals owned present)
  · exact uncut_of_not_terminal checked fun token same => terminal ⟨token, same⟩

private theorem start_leads (read : Grammar.read text = .ok g) : ∃ names, g.nonterminals = g.start :: names := by
  obtain ⟨first, rest, all, start, gathers⟩ := read_iff_states.mp read
  obtain ⟨alternative, others, some⟩ : ∃ alternative others, first.alternatives = alternative :: others := by
    obtain ⟨_, _, states⟩ := exists_entry all List.mem_cons_self
    exact List.exists_cons_of_ne_nil states.owned
  have same := gathers.nonterminals
  rw [List.flatMap_cons, Rule.productions, some, ← start] at same
  exact ⟨_, same⟩

private theorem printed_of_leading (once : g.nonterminals.Nodup) {names : List Name}
    (leading : g.nonterminals = g.start :: names) : g.printed = g.rules := by
  obtain ⟨rule, later, same, owner, tail⟩ := List.map_eq_cons_iff.mp leading
  have apart : ∀ other ∈ later, other.lhs ≠ g.start := by
    intro other member equal
    rw [leading] at once
    exact (List.nodup_cons.mp once).1 (tail ▸ List.mem_map.mpr ⟨other, member, equal⟩)
  have none : later.filter (·.lhs = g.start) = [] :=
    List.filter_eq_nil_iff.mpr fun other member => by simpa using apart other member
  have others : later.filter (·.lhs ≠ g.start) = later :=
    List.filter_eq_self.mpr fun other member => by simpa using apart other member
  rw [printed, same, List.filter_cons_of_pos (by simpa using owner), List.filter_cons_of_neg (by simpa using owner),
    none, others]
  rfl

/-- Whatever is made from a text by transforms is read back from its own text, provided that the start has a
line there to come first. A grammar that is as it was read is read back with its rules in their order. -/
theorem transformed_reads_back (read : Grammar.read text = .ok g) (transforms : List Transform)
    (listed : (g.transformed transforms).start ∈ (g.transformed transforms).nonterminals) :
    ∃ h, Grammar.read (g.transformed transforms).text = .ok h ∧ h.start = (g.transformed transforms).start ∧
      h.rules.Perm (g.transformed transforms).rules ∧ (g.transformed transforms).agrees h = true ∧
      (transforms = [] → h = g) := by
  have initially := wellFormed_read read
  have wellFormed := wellFormed_transformed initially transforms
  have uncut : ∀ token, .terminal token ∈ (g.transformed transforms).terminals → Uncut token :=
    fun token member => uncut_of_read read (terminals_transformed initially transforms member)
  refine ⟨_, read_text_of_uncut wellFormed listed uncut, rfl, printed_perm _, agrees_printed wellFormed, ?_⟩
  rintro rfl
  obtain ⟨names, leading⟩ := start_leads read
  exact congrArg (Grammar.mk g.start) (printed_of_leading initially.once leading)

/-- The two characters of an arrow stand apart everywhere but in the arrows of the rules. -/
def brokenArrows : Grammar :=
  ⟨"S", [⟨"S", [[.nonterminal "A", .terminal "-", .terminal ">"], [.nonterminal "A", .terminal "-", .nonterminal "B"],
      [.epsilon]]⟩,
    ⟨"A", [[.epsilon, .terminal "-"], [.terminal "-"]]⟩,
    ⟨"B", [[.terminal ">", .nonterminal "S"], [.nonterminal "B"]]⟩]⟩

theorem brokenArrows_reads_back :
    Grammar.read "S -> A - > | A - B\r\n\r\nA -> & - | -\nB -> > S | B\nS -> &" = .ok brokenArrows ∧
      ∃ h, Grammar.read (brokenArrows.transformed [.epsilonFree, .factor {}, .unitFree]).text = .ok h ∧
        h.start = (brokenArrows.transformed [.epsilonFree, .factor {}, .unitFree]).start ∧
        h.rules.Perm (brokenArrows.transformed [.epsilonFree, .factor {}, .unitFree]).rules := by
  have read : Grammar.read "S -> A - > | A - B\r\n\r\nA -> & - | -\nB -> > S | B\nS -> &" = .ok brokenArrows := by
    decide +kernel
  obtain ⟨h, again, start, order, _⟩ :=
    transformed_reads_back read [.epsilonFree, .factor {}, .unitFree] (by decide +kernel)
  exact ⟨read, h, again, start, order⟩

end Grammar

end TopDownGrammar
