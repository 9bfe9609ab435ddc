import TopDownGrammar.Grammar.Printer
import TopDownGrammar.Proofs.GivenProductions
import TopDownGrammar.Proofs.Readings

/-! Reading the text of a grammar back. The reader cuts the text of every rule at bars and arrows before it
looks at words, so what was printed is read back as it was if and only if no terminal holds a bar or an
arrow. One with an arrow makes its line unreadable, and one with a bar gives its nonterminal more
alternatives than it has. -/

namespace TopDownGrammar

variable {symbol : Symbol} {symbols : List Symbol} {alternative : Alternative} {alternatives : List Alternative}
  {rule found : Rule} {front piece line : List Char} {text : String} {g h : Grammar}

/-- A text that a line of a grammar can hold in one piece. -/
def Uncut (text : String) : Prop :=
  '|' ∉ text.toList ∧ ¬arrow <:+: text.toList

instance (text : String) : Decidable (Uncut text) :=
  inferInstanceAs (Decidable (_ ∧ _))

theorem uncut_of_not_terminal (checked : symbol.check = .ok ()) (other : ∀ text, symbol ≠ .terminal text) :
    Uncut symbol.text := by
  cases symbol with
  | nonterminal name =>
    have code := isNameCharacter_of_isName (Symbol.check_nonterminal.mp checked)
    refine ⟨fun member => absurd (code _ member) (by decide), fun within => ?_⟩
    exact absurd (code '-' (within.subset List.mem_cons_self)) (by decide)
  | terminal text => exact absurd rfl (other text)
  | epsilon => decide
  | endOfInput => cases checked

/-! Where bars, arrows and line ends stand. -/

private theorem arrow_infix_append_spaced : arrow <:+: front ++ spaced symbols ↔
    arrow <:+: front ∨ ∃ symbol ∈ symbols, arrow <:+: symbol.text.toList := by
  induction symbols generalizing front with
  | nil => simp [spaced]
  | cons symbol rest ih =>
    have split : front ++ spaced (symbol :: rest) = front ++ ' ' :: (symbol.text.toList ++ spaced rest) := by
      simp [spaced]
    rw [split, infix_append_cons (by decide), ih]
    simp

private theorem arrow_infix_spaced : arrow <:+: spaced symbols ↔ ∃ symbol ∈ symbols, arrow <:+: symbol.text.toList := by
  simpa [arrow] using (arrow_infix_append_spaced : arrow <:+: [] ++ spaced symbols ↔ _)

private theorem arrow_infix_barred : arrow <:+: barred alternatives ↔
    ∃ alternative ∈ alternatives, ∃ symbol ∈ alternative, arrow <:+: symbol.text.toList := by
  induction alternatives with
  | nil => simp [barred, arrow]
  | cons first rest ih =>
    cases rest with
    | nil => simp [barred, arrow_infix_spaced]
    | cons second rest =>
      have ended : arrow <:+: spaced first ++ [' '] ↔ arrow <:+: spaced first := by
        rw [infix_append_cons (by decide)]
        simp [arrow]
      rw [barred_cons_cons, infix_append_cons (by decide), ended, arrow_infix_spaced, ih]
      simp

/-- There is one bar between two alternatives, and all others come from symbols. -/
private theorem length_split_barred (nonempty : alternatives ≠ []) : (Text.split (· == '|') (barred alternatives)).length =
    alternatives.length + (alternatives.flatMap spaced).count '|' := by
  rw [Text.length_split]
  change (barred alternatives).count '|' + 1 = _
  induction alternatives with
  | nil => exact absurd rfl nonempty
  | cons first rest ih =>
    cases rest with
    | nil => simp [barred, Nat.add_comm]
    | cons second rest =>
      have later := ih (by simp)
      have front : (first :: second :: rest).flatMap spaced = spaced first ++ (second :: rest).flatMap spaced :=
        List.flatMap_cons
      have blank : [' '].count '|' = 0 := by decide
      rw [barred_cons_cons, List.count_append, List.count_append, blank, List.count_cons_self, later, front,
        List.count_append, List.length_cons (a := first)]
      omega

private theorem length_split_barred_eq_iff (nonempty : alternatives ≠ []) :
    (Text.split (· == '|') (barred alternatives)).length = alternatives.length ↔
      ∀ alternative ∈ alternatives, ∀ symbol ∈ alternative, '|' ∉ symbol.text.toList := by
  rw [length_split_barred nonempty, Nat.add_eq_left, List.count_eq_zero]
  simp only [List.mem_flatMap, bar_mem_spaced, not_exists, not_and]

/-! Reading one rule back. -/

/-- The symbols of an alternative can all stand in a production, and there is one. -/
def Readable (alternative : Alternative) : Prop :=
  alternative ≠ [] ∧ ∀ symbol ∈ alternative, symbol.check = .ok ()

private theorem words_append_spaced (checked : ∀ symbol ∈ symbols, symbol.check = .ok ()) (front : List Char) :
    Text.words (front ++ spaced symbols) = Text.words front ++ symbols.map (·.text.toList) := by
  induction symbols generalizing front with
  | nil => simp [spaced]
  | cons symbol rest ih =>
    obtain ⟨nonempty, solid⟩ := Symbol.text_word (checked symbol List.mem_cons_self)
    have split : front ++ spaced (symbol :: rest) = (front ++ ' ' :: symbol.text.toList) ++ spaced rest := by
      simp [spaced]
    rw [split, ih fun other member => checked other (List.mem_cons_of_mem _ member),
      Text.words_append_cons (by decide), Text.words_token nonempty solid, List.append_assoc]
    rfl

private theorem readAlternative_of_words (readable : Readable alternative)
    (words : Text.words piece = alternative.map (·.text.toList)) : readAlternative piece = .ok alternative := by
  refine readAlternative_eq_ok.mpr ⟨readable.1, ?_⟩
  rw [words, List.forall₂_map_left_iff, List.forall₂_same]
  intro symbol member
  rw [String.ofList_toList]
  exact Symbol.read_text (readable.2 symbol member)

private theorem read_barred (nonempty : alternatives ≠ []) (readable : ∀ alternative ∈ alternatives, Readable alternative)
    (unbarred : ∀ alternative ∈ alternatives, ∀ symbol ∈ alternative, '|' ∉ symbol.text.toList) :
    List.Forall₂ (fun piece alternative => readAlternative piece = .ok alternative)
      (Text.split (· == '|') (barred alternatives)) alternatives := by
  induction alternatives with
  | nil => exact absurd rfl nonempty
  | cons first rest ih =>
    have words := words_append_spaced (readable first List.mem_cons_self).2 []
    have free : ∀ c ∈ spaced first, (c == '|') = false := by
      intro c member
      rw [beq_eq_false_iff_ne]
      rintro rfl
      obtain ⟨symbol, present, inside⟩ := bar_mem_spaced.mp member
      exact unbarred first List.mem_cons_self symbol present inside
    cases rest with
    | nil =>
      have single : barred [first] = spaced first := by simp [barred]
      rw [single, Text.split_of_free free]
      exact .cons (readAlternative_of_words (readable first List.mem_cons_self) words) .nil
    | cons second rest =>
      have ended : ∀ c ∈ spaced first ++ [' '], (c == '|') = false := by
        intro c member
        rcases List.mem_append.mp member with inside | last
        · exact free c inside
        · rw [List.mem_singleton.mp last]
          decide
      rw [barred_cons_cons, Text.split_append_cons (by rfl), Text.split_of_free ended]
      refine .cons (readAlternative_of_words (readable first List.mem_cons_self) ?_) ?_
      · rw [Text.words_append_cons (by decide)]
        simpa [Text.words, Text.split] using words
      · exact ih (by simp) (fun other member => readable other (List.mem_cons_of_mem _ member))
          fun other member => unbarred other (List.mem_cons_of_mem _ member)

/-- A rule is read from its text if no second arrow comes in its way. -/
theorem readLine_text (named : isName rule.lhs = true) : readLine rule.text.toList = .ok found ↔
    ¬arrow <:+: barred rule.alternatives ∧ found.lhs = rule.lhs ∧
      List.Forall₂ (fun piece alternative => readAlternative piece = .ok alternative)
        (Text.split (· == '|') (barred rule.alternatives)) found.alternatives := by
  have code := isNameCharacter_of_isName named
  have free : '-' ∉ rule.lhs.toList ++ [' '] := by
    intro member
    rcases List.mem_append.mp member with inside | last
    · exact absurd (code _ inside) (by decide)
    · exact absurd last (by decide)
  obtain ⟨nonempty, solid⟩ := Symbol.text_word (Symbol.check_nonterminal.mpr named)
  have trimmed : String.ofList (Text.trim (rule.lhs.toList ++ [' '])) = rule.lhs := by
    have cut : Text.trim (rule.lhs.toList ++ [' ']) = rule.lhs.toList :=
      Text.trim_append_blank nonempty solid (by decide)
    rw [cut, String.ofList_toList]
  rw [readLine_eq_ok, toList_text, cutAtArrow_append free]
  constructor
  · intro parts
    obtain ⟨_, _, cut, single, ⟨same, _⟩, all⟩ := parts
    obtain ⟨rfl, rfl⟩ := Prod.mk.inj (Option.some.inj cut)
    exact ⟨single, same.symm.trans trimmed, all⟩
  · intro parts
    obtain ⟨single, same, all⟩ := parts
    exact ⟨_, _, rfl, single, ⟨trimmed.trans same.symm, same ▸ named⟩, all⟩

namespace Grammar

def printed (g : Grammar) : List Rule :=
  g.rules.filter (·.lhs = g.start) ++ g.rules.filter (·.lhs ≠ g.start)

theorem printed_perm (g : Grammar) : g.printed.Perm g.rules := by
  have apart : g.rules.filter (·.lhs ≠ g.start) = g.rules.filter fun rule => !decide (rule.lhs = g.start) := by
    simp
  rw [printed, apart]
  exact List.filter_append_perm _ _

private theorem printed_eq_cons (listed : g.start ∈ g.nonterminals) :
    ∃ first rest, g.printed = first :: rest ∧ first.lhs = g.start := by
  obtain ⟨rule, member, same⟩ := List.mem_map.mp listed
  have kept : rule ∈ g.rules.filter (·.lhs = g.start) := List.mem_filter.mpr ⟨member, by simpa using same⟩
  cases leading : g.rules.filter (·.lhs = g.start) with
  | nil => simp [leading] at kept
  | cons first rest =>
    have here : first ∈ g.rules.filter (·.lhs = g.start) := leading ▸ List.mem_cons_self
    exact ⟨first, _, by rw [printed, leading, List.cons_append], by simpa using (List.mem_filter.mp here).2⟩

private theorem readable_of_mem (wellFormed : g.WellFormed) (member : rule ∈ g.rules) :
    ∀ alternative ∈ rule.alternatives, Readable alternative :=
  fun alternative inside => ⟨wellFormed.nonempty rule member alternative inside,
    wellFormed.symbols rule member alternative inside⟩

private theorem unbroken_text (wellFormed : g.WellFormed) (member : rule ∈ g.rules) : '\n' ∉ rule.text.toList := by
  intro inside
  have solid : ∀ symbol : Symbol, symbol.check = .ok () → '\n' ∉ symbol.text.toList := by
    intro symbol checked present
    exact absurd ((Symbol.text_word checked).2 _ present) (by decide)
  rw [toList_text, List.append_assoc] at inside
  rcases List.mem_append.mp inside with inName | later
  · exact solid (.nonterminal rule.lhs) (Symbol.check_nonterminal.mpr (wellFormed.names rule member)) inName
  · simp only [List.singleton_append, List.mem_cons, (by decide : '\n' ≠ ' '), (by decide : '\n' ≠ '-'),
      (by decide : '\n' ≠ '>'), false_or] at later
    obtain blank | bar | ⟨alternative, owned, symbol, present, here⟩ := mem_barred later
    · exact absurd blank (by decide)
    · exact absurd bar (by decide)
    · exact solid symbol ((readable_of_mem wellFormed member alternative owned).2 symbol present) here

private theorem lines_text (wellFormed : g.WellFormed) (listed : g.start ∈ g.nonterminals) :
    (Text.lines g.text.toList).filter (!·.all Text.isBlank) = g.printed.map (·.text.toList) := by
  obtain ⟨first, rest, same, _⟩ := printed_eq_cons listed
  have unbroken : ∀ line ∈ g.printed.map (·.text.toList), '\n' ∉ line := by
    intro line member
    obtain ⟨rule, present, rfl⟩ := List.mem_map.mp member
    exact unbroken_text wellFormed (g.printed_perm.mem_iff.mp present)
  have lines : Text.lines g.text.toList = g.printed.map (·.text.toList) := by
    have joined : g.text.toList = ['\n'].intercalate (g.printed.map (·.text.toList)) := by
      simp [Grammar.text, printed, String.toList_intercalate, Function.comp_def]
    rw [Text.lines, joined]
    exact Text.split_intercalate (by simp [same]) unbroken
  rw [lines, List.filter_eq_self]
  intro line member
  obtain ⟨rule, _, rfl⟩ := List.mem_map.mp member
  rw [toList_text]
  simp [Text.isBlank]

def ReadBack (rule found : Rule) : Prop :=
  readLine rule.text.toList = .ok found

private theorem map_lhs_of_readBack {rules found : List Rule} (named : ∀ rule ∈ rules, isName rule.lhs = true)
    (all : List.Forall₂ ReadBack rules found) : found.map (·.lhs) = rules.map (·.lhs) := by
  induction all with
  | nil => rfl
  | cons here _ ih =>
    have same := ((readLine_text (named _ List.mem_cons_self)).mp here).2.1
    have later := ih fun rule member => named rule (List.mem_cons_of_mem _ member)
    rw [List.map_cons, List.map_cons, same, later]

private theorem isName_of_printed (wellFormed : g.WellFormed) : ∀ rule ∈ g.printed, isName rule.lhs = true :=
  fun rule member => wellFormed.names rule (g.printed_perm.mem_iff.mp member)

/-- Rules read back one by one are gathered to themselves: no two are of one nonterminal, and none is empty. -/
private theorem group_of_readBack (wellFormed : g.WellFormed) {rules : List Rule} (all : List.Forall₂ ReadBack g.printed rules) :
    group (rules.flatMap Rule.productions) = rules := by
  have named := isName_of_printed wellFormed
  apply group_productions
  · rw [map_lhs_of_readBack named all]
    exact (g.printed_perm.map _).nodup_iff.mpr wellFormed.once
  · intro found member empty
    obtain ⟨rule, present, passed⟩ := exists_entry all member
    have pieces := ((readLine_text (named rule present)).mp passed).2.2
    rw [empty, List.forall₂_nil_right_iff] at pieces
    exact Text.split_ne_nil _ _ pieces

private theorem start_of_readBack (wellFormed : g.WellFormed) (listed : g.start ∈ g.nonterminals) {first : Rule}
    {rest : List Rule} (all : List.Forall₂ ReadBack g.printed (first :: rest)) : first.lhs = g.start := by
  obtain ⟨leader, others, same, owner⟩ := printed_eq_cons listed
  have owners := map_lhs_of_readBack (isName_of_printed wellFormed) all
  rw [same] at owners
  exact (List.cons.inj owners).1.trans owner

/-- What is read from the text of a grammar has its nonterminals, each with what became of its alternatives. -/
theorem read_text_iff (wellFormed : g.WellFormed) (listed : g.start ∈ g.nonterminals) :
    Grammar.read g.text = .ok h ↔ h.start = g.start ∧ List.Forall₂ ReadBack g.printed h.rules := by
  rw [Grammar.read_eq_ok, lines_text wellFormed listed]
  simp only [List.forall₂_map_left_iff]
  constructor
  · intro found
    obtain ⟨first, rest, all, rfl⟩ := found
    refine ⟨start_of_readBack wellFormed listed all, ?_⟩
    change List.Forall₂ ReadBack g.printed (group _)
    rw [group_of_readBack wellFormed all]
    exact all
  · intro found
    obtain ⟨start, all⟩ := found
    obtain ⟨h, rules⟩ := h
    cases rules with
    | nil =>
      obtain ⟨leader, others, same, _⟩ := printed_eq_cons listed
      rw [same] at all
      cases all
    | cons first rest =>
      refine ⟨first, rest, all, ?_⟩
      rw [ofProductions, group_of_readBack wellFormed all, start_of_readBack wellFormed listed all, ← start]

/-- Every line of the text of a grammar is read back to its rule unless one of its symbols is cut. -/
theorem readBack_self_iff (wellFormed : g.WellFormed) (member : rule ∈ g.rules) :
    ReadBack rule rule ↔ ∀ alternative ∈ rule.alternatives, ∀ symbol ∈ alternative, Uncut symbol.text := by
  have bars := length_split_barred_eq_iff (wellFormed.owned rule member)
  rw [ReadBack, readLine_text (wellFormed.names rule member), arrow_infix_barred]
  constructor
  · intro parts alternative inside symbol present
    obtain ⟨straight, _, all⟩ := parts
    exact ⟨bars.mp all.length_eq alternative inside symbol present,
      fun cut => straight ⟨alternative, inside, symbol, present, cut⟩⟩
  · intro uncut
    refine ⟨?_, rfl, ?_⟩
    · intro cut
      obtain ⟨alternative, inside, symbol, present, within⟩ := cut
      exact (uncut alternative inside symbol present).2 within
    · exact read_barred (wellFormed.owned rule member) (readable_of_mem wellFormed member)
        fun alternative inside symbol present => (uncut alternative inside symbol present).1

theorem read_text (wellFormed : g.WellFormed) (listed : g.start ∈ g.nonterminals)
    (uncut : ∀ rule ∈ g.rules, ∀ alternative ∈ rule.alternatives, ∀ symbol ∈ alternative, Uncut symbol.text) :
    Grammar.read g.text = .ok ⟨g.start, g.printed⟩ := by
  rw [read_text_iff wellFormed listed]
  refine ⟨rfl, List.forall₂_same.mpr fun rule member => ?_⟩
  have present := g.printed_perm.mem_iff.mp member
  exact (readBack_self_iff wellFormed present).mpr (uncut rule present)

theorem agrees_printed (wellFormed : g.WellFormed) : g.agrees ⟨g.start, g.printed⟩ = true := by
  have order := g.printed_perm
  have once : (⟨g.start, g.printed⟩ : Grammar).nonterminals.Nodup := (order.map _).nodup_iff.mpr wellFormed.once
  refine agrees_iff.mpr ⟨rfl, order.length_eq.symm, fun rule member => ?_⟩
  have present := order.mem_iff.mpr member
  exact ⟨List.mem_map.mpr ⟨rule, present, rfl⟩, alternatives_of_mem once present⟩

/-- A rule that is read back to alternatives of its own is read back to itself. -/
theorem readBack_self (wellFormed : g.WellFormed) (listed : g.start ∈ g.nonterminals)
    (read : Grammar.read g.text = .ok h) (same : g.agrees h = true) (member : rule ∈ g.rules) : ReadBack rule rule := by
  obtain ⟨_, all⟩ := (read_text_iff wellFormed listed).mp read
  obtain ⟨_, _, equal⟩ := agrees_iff.mp same
  have named : ∀ rule ∈ g.printed, isName rule.lhs = true :=
    fun rule member => wellFormed.names rule (g.printed_perm.mem_iff.mp member)
  have once : h.nonterminals.Nodup := by
    rw [nonterminals, map_lhs_of_readBack named all]
    exact (g.printed_perm.map _).nodup_iff.mpr wellFormed.once
  obtain ⟨found, present, passed⟩ := exists_result all (g.printed_perm.mem_iff.mpr member)
  have owner := ((readLine_text (wellFormed.names rule member)).mp passed).2.1
  have contents : found.alternatives = rule.alternatives := by
    rw [← (equal rule member).2, ← owner, alternatives_of_mem once present]
  have unchanged : found = rule := by
    cases found
    cases rule
    exact congrArg₂ Rule.mk owner contents
  exact unchanged ▸ passed

/-- A grammar built by hand is read back from its text if and only if no terminal given for it is cut. -/
theorem reads_back_iff {start : Symbol} {productions : List (Symbol × List Symbol)} {rhs : List Symbol}
    (built : Grammar.build start productions = .ok g) (owner : (start, rhs) ∈ productions) :
    (∃ h, Grammar.read g.text = .ok h ∧ g.agrees h = true) ↔
      ∀ entry ∈ productions, ∀ text, .terminal text ∈ entry.2 → Uncut text := by
  have wellFormed := wellFormed_build built
  have listed := listed_build built owner
  constructor
  · intro found entry member text inside
    obtain ⟨h, read, same⟩ := found
    obtain ⟨name, alternative, owned, present⟩ := (terminal_build_iff built).mp ⟨entry, member, inside⟩
    obtain ⟨rule, listing, rfl, inRule⟩ := mem_productions.mp (production_of_alternative owned)
    have whole := readBack_self wellFormed listed read same listing
    exact (readBack_self_iff wellFormed listing).mp whole alternative inRule _ present
  · intro uncut
    refine ⟨_, read_text wellFormed listed ?_, agrees_printed wellFormed⟩
    intro rule member alternative inside symbol present
    have checked := wellFormed.symbols rule member alternative inside symbol present
    by_cases terminal : ∃ text, symbol = .terminal text
    · obtain ⟨text, rfl⟩ := terminal
      have owned : alternative ∈ g.alternatives rule.lhs := by
        rw [alternatives_of_mem wellFormed.once member]
        exact inside
      obtain ⟨entry, given, occurs⟩ := (terminal_build_iff built).mpr ⟨rule.lhs, alternative, owned, present⟩
      exact uncut entry given text occurs
    · exact uncut_of_not_terminal checked fun text same => terminal ⟨text, same⟩

def dashed : Grammar :=
  ⟨"S", [⟨"S", [[.terminal "-", .terminal ">"], [.nonterminal "A", .terminal "-"]]⟩, ⟨"A", [[.epsilon]]⟩]⟩

/-- Neither a dash in front of a word `>` nor one at the end of a line makes an arrow. -/
theorem dashed_reads_back : Grammar.build (.nonterminal "S") [(.nonterminal "S", [.terminal "-", .terminal ">"]),
    (.nonterminal "A", []), (.nonterminal "S", [.nonterminal "A", .terminal "-"])] = .ok dashed ∧
      ∃ h, Grammar.read dashed.text = .ok h ∧ dashed.agrees h = true := by
  have built : Grammar.build (.nonterminal "S") [(.nonterminal "S", [.terminal "-", .terminal ">"]),
    (.nonterminal "A", []), (.nonterminal "S", [.nonterminal "A", .terminal "-"])] = .ok dashed := by decide +kernel
  refine ⟨built, (reads_back_iff built List.mem_cons_self).mpr ?_⟩
  have solid : Uncut "-" ∧ Uncut ">" := by decide
  simp [solid]

def barredWord : Grammar :=
  ⟨"S", [⟨"S", [[.terminal "a|b"]]⟩]⟩

/-- One alternative of one terminal is read as two alternatives. -/
theorem barredWord_not_read_back :
    Grammar.build (.nonterminal "S") [(.nonterminal "S", [.terminal "a|b"])] = .ok barredWord ∧
      ¬∃ h, Grammar.read barredWord.text = .ok h ∧ barredWord.agrees h = true := by
  refine ⟨by decide +kernel, ?_⟩
  intro found
  obtain ⟨h, read, same⟩ := found
  have halved : Grammar.read barredWord.text = .ok ⟨"S", [⟨"S", [[.terminal "a"], [.terminal "b"]]⟩]⟩ := by
    decide +kernel
  obtain rfl := Except.ok.inj (halved.symm.trans read)
  exact absurd same (by decide +kernel)

end Grammar

end TopDownGrammar
