import TopDownGrammar.Proofs.Readings
import TopDownGrammar.Proofs.SymbolTexts
import TopDownGrammar.Proofs.TextParts

/-! The format of a grammar's text. A line that is not blank states a rule or has a fault, and of several
faults one comes first. The reader accepts just the texts whose lines all state rules, and otherwise reports
the fault of the first line that does not. -/

namespace TopDownGrammar

variable {symbol : Symbol} {token : String} {piece line : List Char} {alternative : Alternative} {rule : Rule}
  {fault : LineFault} {texts : List (List Char)}

def Spells (word : List Char) (symbol : Symbol) : Prop :=
  symbol.text.toList = word ∧ symbol.check = .ok ()

/-- The piece consists of the texts of the symbols, of which there is at least one. -/
def Writes (piece : List Char) (alternative : Alternative) : Prop :=
  alternative ≠ [] ∧ ∃ words, Text.Worded piece words ∧ List.Forall₂ Spells words alternative

/-- The line has one arrow, with the nonterminal of the rule before it and the alternatives, between bars,
behind it. -/
def States (line : List Char) (rule : Rule) : Prop :=
  ∃ before after pieces, Cut line before after ∧ Text.Trimmed before rule.lhs.toList ∧ isName rule.lhs = true ∧
    Text.Joined '|' pieces after ∧ List.Forall₂ Writes pieces rule.alternatives

def Sound (line : List Char) : Prop :=
  Text.Blank line ∨ ∃ rule, States line rule

/-- What is wrong with a piece that writes no alternative. -/
inductive Miswritten (piece : List Char) : LineFault → Prop where
  | invalidSymbol {before after : List (List Char)} {word : List Char}
      (words : Text.Worded piece (before ++ word :: after)) (unspelt : ∀ symbol, ¬Spells word symbol)
      (earlier : ∀ other ∈ before, ∃ symbol, Spells other symbol) :
      Miswritten piece (.invalidSymbol (.invalid (String.ofList word)))
  | empty (blank : Text.Blank piece) : Miswritten piece .emptyAlternative

/-- What is wrong first with a line that states no rule. -/
inductive Faulty (line : List Char) : LineFault → Prop where
  | missingArrow (none : ¬arrow <:+: line) : Faulty line .missingArrow
  | multipleArrows (many : ManyArrows line) : Faulty line .multipleArrows
  | leftHandSide {before after : List Char} {token : String} (cut : Cut line before after)
      (trimmed : Text.Trimmed before token.toList) (unnamed : isName token = false) :
      Faulty line (.leftHandSide (.expected token .nonterminal))
  | alternative {before after piece : List Char} {earlier later : List (List Char)} {name : Name} {fault : LineFault}
      (cut : Cut line before after) (trimmed : Text.Trimmed before name.toList) (named : isName name = true)
      (joined : Text.Joined '|' (earlier ++ piece :: later) after) (miswritten : Miswritten piece fault)
      (written : ∀ other ∈ earlier, ∃ alternative, Writes other alternative) : Faulty line fault

/-! Words and pieces. -/

private theorem cause_of_symbolRead {cause : SymbolError} (failed : Symbol.read token = .error cause) :
    cause = .invalid token := by
  unfold Symbol.read at failed
  split at failed
  · cases failed
  · split at failed
    · cases failed
    · split at failed
      · cases failed
      · exact (Except.error.inj failed).symm

theorem symbolRead_eq_error {cause : SymbolError} : Symbol.read token = .error cause ↔
    cause = .invalid token ∧ ∀ symbol, Symbol.read token ≠ .ok symbol := by
  cases found : Symbol.read token with
  | ok symbol => simp
  | error other => simp [cause_of_symbolRead found, eq_comm]

theorem spells_iff {word : List Char} : Symbol.read (String.ofList word) = .ok symbol ↔ Spells word symbol := by
  rw [symbolRead_eq_ok, Spells, ← String.toList_inj, String.toList_ofList]

theorem readAlternative_iff_writes : readAlternative piece = .ok alternative ↔ Writes piece alternative := by
  simp only [readAlternative_eq_ok, Writes, spells_iff, ← Text.words_eq_iff, exists_eq_left']

theorem readAlternative_eq_error : readAlternative piece = .error fault ↔ Miswritten piece fault := by
  constructor
  · intro failed
    unfold readAlternative at failed
    split at failed
    next cause unread =>
      obtain rfl := Except.error.inj failed
      obtain ⟨before, word, after, same, unspelt, earlier⟩ := mapM_eq_error.mp unread
      obtain ⟨rfl, none⟩ := symbolRead_eq_error.mp unspelt
      refine .invalidSymbol (Text.words_eq_iff.mp same) (fun symbol spells => none symbol (spells_iff.mpr spells)) ?_
      exact fun other member => (earlier other member).imp fun symbol => spells_iff.mp
    next found =>
      obtain rfl := Except.error.inj failed
      have none := List.forall₂_nil_right_iff.mp (mapM_eq_ok.mp found)
      exact .empty (Text.words_eq_nil.mp none)
    next => cases failed
  · intro wrong
    cases wrong with
    | @invalidSymbol before after word words unspelt earlier =>
      have unread : Symbol.read (String.ofList word) = .error (.invalid (String.ofList word)) :=
        symbolRead_eq_error.mpr ⟨rfl, fun symbol passed => unspelt symbol (spells_iff.mp passed)⟩
      have read : ∀ other ∈ before, ∃ symbol, Symbol.read (String.ofList other) = .ok symbol :=
        fun other member => (earlier other member).imp fun symbol => spells_iff.mpr
      have stopped := mapM_eq_error.mpr ⟨before, word, after, Text.words_eq_iff.mpr words, unread, read⟩
      rw [readAlternative, stopped]
    | empty blank =>
      rw [readAlternative, Text.words_eq_nil.mpr blank]
      rfl

/-! Lines. -/

theorem readLine_iff_states : readLine line = .ok rule ↔ States line rule := by
  simp only [readLine_eq_ok, States, cut_iff, ← Text.trim_eq_iff, ← Text.split_eq_iff, readAlternative_iff_writes,
    ← String.toList_inj, String.toList_ofList]
  constructor
  · intro found
    obtain ⟨before, after, cut, straight, ⟨trimmed, named⟩, written⟩ := found
    exact ⟨before, after, _, ⟨cut, straight⟩, trimmed, named, rfl, written⟩
  · intro found
    obtain ⟨before, after, _, ⟨cut, straight⟩, trimmed, named, rfl, written⟩ := found
    exact ⟨before, after, cut, straight, ⟨trimmed, named⟩, written⟩

/-- A rule that a line states can stand in a grammar. -/
theorem States.admissible (states : States line rule) {production : Production}
    (member : production ∈ rule.productions) : Grammar.Admissible production := by
  obtain ⟨_, _, _, _, _, named, _, written⟩ := states
  obtain ⟨alternative, inside, rfl⟩ := List.mem_map.mp member
  obtain ⟨_, _, some, _, _, spelt⟩ := exists_entry written inside
  refine ⟨named, fun symbol present => ?_, some⟩
  obtain ⟨_, _, _, checked⟩ := exists_entry spelt present
  exact checked

theorem States.owned (states : States line rule) : rule.alternatives ≠ [] := by
  obtain ⟨_, _, pieces, _, _, _, joined, written⟩ := states
  intro none
  rw [none, List.forall₂_nil_right_iff] at written
  exact joined.some written

theorem readName_eq_error {cause : SymbolError} :
    readName token = .error cause ↔ cause = .expected token .nonterminal ∧ isName token = false := by
  unfold readName
  split
  next named => simp [named]
  next unnamed => simpa [unnamed] using eq_comm

private theorem faulty_of_readLine (failed : readLine line = .error fault) : Faulty line fault := by
  unfold readLine at failed
  split at failed
  next uncut =>
    obtain rfl := Except.error.inj failed
    exact .missingArrow (cutAtArrow_eq_none.mp uncut)
  next before after cut =>
    split at failed
    next within =>
      obtain rfl := Except.error.inj failed
      exact .multipleArrows (manyArrows_iff.mpr ⟨before, after, cut, isSome_cutAtArrow.mp within⟩)
    next straight =>
      have only : Cut line before after := cut_iff.mpr ⟨cut, mt isSome_cutAtArrow.mpr straight⟩
      have trimmed : Text.Trimmed before (String.ofList (Text.trim before)).toList :=
        Text.trim_eq_iff.mp String.toList_ofList.symm
      split at failed
      next cause refused =>
        obtain rfl := Except.error.inj failed
        obtain ⟨rfl, unnamed⟩ := readName_eq_error.mp refused
        exact .leftHandSide only trimmed unnamed
      next name accepted =>
        obtain ⟨rfl, named⟩ := readName_eq_ok.mp accepted
        rcases bind_eq_error.mp failed with stopped | ⟨_, _, same⟩
        · obtain ⟨earlier, piece, later, pieces, wrong, fine⟩ := mapM_eq_error.mp stopped
          refine .alternative only trimmed named (Text.split_eq_iff.mp pieces) (readAlternative_eq_error.mp wrong) ?_
          exact fun other member => (fine other member).imp fun alternative => readAlternative_iff_writes.mp
        · cases same

private theorem readLine_of_faulty (faulty : Faulty line fault) : readLine line = .error fault := by
  have opened : ∀ {before after}, Cut line before after →
      cutAtArrow line = some (before, after) ∧ (cutAtArrow after).isSome = false := by
    intro before after only
    obtain ⟨cut, straight⟩ := cut_iff.mp only
    exact ⟨cut, Bool.eq_false_iff.mpr (mt isSome_cutAtArrow.mp straight)⟩
  cases faulty with
  | missingArrow none => simp [readLine, cutAtArrow_eq_none.mpr none]
  | multipleArrows many =>
    obtain ⟨before, after, cut, within⟩ := manyArrows_iff.mp many
    simp [readLine, cut, isSome_cutAtArrow.mpr within]
  | leftHandSide only trimmed unnamed =>
    obtain ⟨cut, straight⟩ := opened only
    simp [readLine, cut, straight, Text.trim_eq_iff.mpr trimmed, readName, unnamed]
  | alternative only trimmed named joined wrong written =>
    obtain ⟨cut, straight⟩ := opened only
    have fine : ∀ other ∈ _, ∃ alternative, readAlternative other = .ok alternative :=
      fun other member => (written other member).imp fun alternative => readAlternative_iff_writes.mpr
    have stopped := mapM_eq_error.mpr ⟨_, _, _, Text.split_eq_iff.mpr joined, readAlternative_eq_error.mpr wrong, fine⟩
    simp [readLine, cut, straight, Text.trim_eq_iff.mpr trimmed, readName, named, stopped, bind, Except.bind]

theorem readLine_eq_error : readLine line = .error fault ↔ Faulty line fault :=
  ⟨faulty_of_readLine, readLine_of_faulty⟩

private theorem not_sound_of_faulty (solid : ¬Text.Blank line) (faulty : Faulty line fault) : ¬Sound line := by
  rintro (blank | ⟨rule, states⟩)
  · exact solid blank
  · cases (readLine_eq_error.mpr faulty).symm.trans (readLine_iff_states.mpr states)

/-! Texts. A carriage return at the end of a line is a blank behind everything that the reader looks for. -/

private theorem readAlternative_snoc {c : Char} (blank : Text.isBlank c = true) (piece : List Char) :
    readAlternative (piece ++ [c]) = readAlternative piece := by
  have nothing : Text.words [] = [] := rfl
  rw [readAlternative, readAlternative, Text.words_append_cons blank, nothing, List.append_nil]

private theorem readLine_snoc {c : Char} (blank : Text.isBlank c = true) (line : List Char) :
    readLine (line ++ [c]) = readLine line := by
  have noArrow : c ∉ arrow := by
    intro member
    simp only [arrow, List.mem_cons, List.not_mem_nil, or_false] at member
    rcases member with rfl | rfl <;> cases blank
  have noBar : (c == '|') = false := by
    rw [beq_eq_false_iff_ne]
    rintro rfl
    cases blank
  unfold readLine
  rw [cutAtArrow_snoc noArrow]
  cases cutAtArrow line with
  | none => rfl
  | some both =>
    obtain ⟨before, after⟩ := both
    obtain ⟨front, last, same, longer⟩ := Text.split_snoc (· == '|') noBar after
    have pieces : (Text.split (· == '|') (after ++ [c])).mapM readAlternative =
        (Text.split (· == '|') after).mapM readAlternative := by
      rw [same, longer, List.mapM_append, List.mapM_append, List.mapM_cons, List.mapM_cons, readAlternative_snoc blank]
    simp only [Option.map_some, cutAtArrow_snoc noArrow, Option.isSome_map, pieces]

/-- The reader sees no difference between the lines that it cuts and those of the text. -/
private theorem readLines_of_ends {rows ended tail : List (List Char)} (all : List.Forall₂ Text.Ends rows ended)
    (last : tail = [] ∨ tail = [[]]) (number : Nat) : readLines number (ended ++ tail) = readLines number rows := by
  induction all generalizing number with
  | nil => rcases last with rfl | rfl <;> rfl
  | @cons row line rows ended here _ ih =>
    have same : line.all Text.isBlank = row.all Text.isBlank ∧ readLine line = readLine row := by
      rcases here with rfl | rfl
      · exact ⟨rfl, rfl⟩
      · exact ⟨by simp [Text.isBlank], readLine_snoc rfl row⟩
    rw [List.cons_append, readLines, readLines, same.1, same.2, ih]

theorem readLines_rows (text : List Char) (number : Nat) :
    readLines number (Text.lines text) = readLines number (Text.rows text) := by
  obtain ⟨ended, tail, same, all, last⟩ := Text.lines_rows text
  rw [same, readLines_of_ends all last]

private theorem readLines_cons_eq_error {number : Nat} {failure : ReadError} :
    readLines number (line :: texts) = .error failure ↔
      (¬Text.Blank line ∧ ∃ fault, Faulty line fault ∧ failure = .atLine number fault) ∨
        Sound line ∧ readLines (number + 1) texts = .error failure := by
  rw [readLines]
  split
  next empty =>
    have blank := Text.blank_iff.mp empty
    simp only [blank, Sound, not_true_eq_false, false_and, true_or, true_and, false_or]
  next some =>
    have solid : ¬Text.Blank line := mt Text.blank_iff.mpr some
    split
    next fault failed =>
      have unsound : ¬Sound line := not_sound_of_faulty solid (readLine_eq_error.mp failed)
      rw [or_iff_left fun both => unsound both.1, Except.error.injEq, and_iff_right solid]
      constructor
      · intro same
        exact ⟨fault, readLine_eq_error.mp failed, same.symm⟩
      · intro found
        obtain ⟨other, faulty, rfl⟩ := found
        rw [Except.error.inj (failed.symm.trans (readLine_eq_error.mpr faulty))]
    next rule passed =>
      have sound : Sound line := Or.inr ⟨rule, readLine_iff_states.mp passed⟩
      have faultless : ¬∃ fault, Faulty line fault ∧ failure = .atLine number fault := by
        rintro ⟨fault, faulty, _⟩
        cases passed.symm.trans (readLine_eq_error.mpr faulty)
      rw [or_iff_right fun both => faultless both.2, and_iff_right sound, bind_eq_error]
      refine or_iff_left ?_
      rintro ⟨_, _, same⟩
      cases same

theorem readLines_eq_error (number : Nat) {failure : ReadError} : readLines number texts = .error failure ↔
    ∃ before line after fault, texts = before ++ line :: after ∧ failure = .atLine (number + before.length) fault ∧
      ¬Text.Blank line ∧ Faulty line fault ∧ ∀ earlier ∈ before, Sound earlier := by
  induction texts generalizing number with
  | nil => simp [readLines]
  | cons text rest ih =>
    have further : ∀ before : List (List Char), number + 1 + before.length = number + (text :: before).length :=
      fun before => by rw [List.length_cons, Nat.add_right_comm, Nat.add_assoc]
    rw [readLines_cons_eq_error, ih]
    constructor
    · rintro (⟨solid, fault, faulty, rfl⟩ | ⟨sound, before, line, after, fault, rfl, rfl, solid, faulty, earlier⟩)
      · exact ⟨[], text, rest, fault, rfl, rfl, solid, faulty, by simp⟩
      · exact ⟨text :: before, line, after, fault, rfl, congrArg (ReadError.atLine · fault) (further before), solid,
          faulty, List.forall_mem_cons.mpr ⟨sound, earlier⟩⟩
    · rintro ⟨before, line, after, fault, same, rfl, solid, faulty, earlier⟩
      cases before with
      | nil =>
        obtain ⟨rfl, rfl⟩ := List.cons.inj same
        exact Or.inl ⟨solid, fault, faulty, rfl⟩
      | cons first before =>
        obtain ⟨rfl, rfl⟩ := List.cons.inj same
        obtain ⟨sound, earlier⟩ := List.forall_mem_cons.mp earlier
        exact Or.inr ⟨sound, before, line, after, fault, rfl, congrArg (ReadError.atLine · fault) (further before).symm,
          solid, faulty, earlier⟩

namespace Grammar

variable {g : Grammar} {text : String}

theorem read_eq_error_iff {failure : ReadError} (somewhere : failure ≠ .noProductions) :
    Grammar.read text = .error failure ↔ readLines 1 (Text.rows text.toList) = .error failure := by
  rw [← readLines_rows]
  unfold Grammar.read
  split
  next failed => rw [failed, Except.error.injEq, Except.error.injEq]
  next none => simp [none, somewhere.symm]
  next some => simp [some]

private theorem readRows_eq_ok {rules : List Rule} : readLines 1 (Text.rows text.toList) = .ok rules ↔
    List.Forall₂ States ((Text.rows text.toList).filter (¬Text.Blank ·)) rules := by
  have filled : (Text.rows text.toList).filter (¬Text.Blank ·) = (Text.rows text.toList).filter (!·.all Text.isBlank) :=
    List.filter_congr fun row _ => by simp only [← Text.blank_iff, decide_not, Bool.decide_eq_true]
  simp only [readLines_eq_ok, filled, readLine_iff_states]

private theorem read_eq_noProductions : Grammar.read text = .error .noProductions ↔
    ∀ row ∈ Text.rows text.toList, Text.Blank row := by
  have located : readLines 1 (Text.rows text.toList) ≠ .error .noProductions := by
    intro failed
    obtain ⟨_, _, _, _, _, same, _⟩ := (readLines_eq_error 1).mp failed
    cases same
  have none : readLines 1 (Text.rows text.toList) = .ok [] ↔ ∀ row ∈ Text.rows text.toList, Text.Blank row := by
    rw [readRows_eq_ok, List.forall₂_nil_right_iff, List.filter_eq_nil_iff]
    simp
  rw [← none]
  rw [← readLines_rows] at located ⊢
  unfold Grammar.read
  split
  next failure failed =>
    rw [failed] at located ⊢
    exact iff_of_false (fun same => located (congrArg _ (Except.error.inj same))) (fun same => nomatch same)
  next empty => simp [empty]
  next some => simp [some]

theorem read_iff_states : Grammar.read text = .ok g ↔ ∃ first rest,
    List.Forall₂ States ((Text.rows text.toList).filter (¬Text.Blank ·)) (first :: rest) ∧
      g.start = first.lhs ∧ g.Gathers ((first :: rest).flatMap Rule.productions) := by
  simp only [Grammar.read_eq_ok, ← readLines_eq_ok 1, readLines_rows, readRows_eq_ok, gathers_iff]
  refine exists_congr fun first => exists_congr fun rest => and_congr_right fun _ => ?_
  constructor
  · rintro rfl
    exact ⟨rfl, rfl⟩
  · intro both
    rw [← both.1]
    exact both.2

private theorem read_eq_error_atLine {number : Nat} : Grammar.read text = .error (.atLine number fault) ↔
    ∃ before row after, Text.rows text.toList = before ++ row :: after ∧ number = before.length + 1 ∧
      ¬Text.Blank row ∧ Faulty row fault ∧ ∀ earlier ∈ before, Sound earlier := by
  rw [read_eq_error_iff (by simp), readLines_eq_error]
  simp only [ReadError.atLine.injEq, Nat.add_comm 1]
  constructor
  · rintro ⟨before, row, after, _, same, ⟨number, rfl⟩, rest⟩
    exact ⟨before, row, after, same, number, rest⟩
  · rintro ⟨before, row, after, same, number, rest⟩
    exact ⟨before, row, after, fault, same, ⟨number, rfl⟩, rest⟩

theorem wellFormed_read (read : Grammar.read text = .ok g) : g.WellFormed := by
  obtain ⟨first, rest, all, start, gathers⟩ := read_iff_states.mp read
  rw [gathers_iff.mp gathers]
  refine wellFormed_ofProductions ?_ fun production member => ?_
  · obtain ⟨_, _, _, _, _, _, _, named, _⟩ := exists_entry all List.mem_cons_self
    exact start ▸ named
  · obtain ⟨rule, listed, inside⟩ := List.mem_flatMap.mp member
    obtain ⟨_, _, states⟩ := exists_entry all listed
    exact states.admissible inside

/-- What the reader makes of a text. A grammar is read if some line is not blank and all such lines state
rules, and it has just the productions of the text. Otherwise the error is that nothing is written, or the
first fault of the first line that has one. -/
theorem read_exact (text : String) :
    ((∃ g, Grammar.read text = .ok g) ↔
      (∃ row ∈ Text.rows text.toList, ¬Text.Blank row) ∧ ∀ row ∈ Text.rows text.toList, Sound row) ∧
    (∀ g, Grammar.read text = .ok g ↔ ∃ first rest,
      List.Forall₂ States ((Text.rows text.toList).filter (¬Text.Blank ·)) (first :: rest) ∧
        g.start = first.lhs ∧ g.Gathers ((first :: rest).flatMap Rule.productions)) ∧
    (Grammar.read text = .error .noProductions ↔ ∀ row ∈ Text.rows text.toList, Text.Blank row) ∧
    ∀ number fault, Grammar.read text = .error (.atLine number fault) ↔
      ∃ before row after, Text.rows text.toList = before ++ row :: after ∧ number = before.length + 1 ∧
        ¬Text.Blank row ∧ Faulty row fault ∧ ∀ earlier ∈ before, Sound earlier := by
  refine ⟨?_, fun g => read_iff_states, read_eq_noProductions, fun number fault => read_eq_error_atLine⟩
  constructor
  · intro found
    obtain ⟨g, read⟩ := found
    obtain ⟨first, rest, all, _⟩ := read_iff_states.mp read
    constructor
    · obtain ⟨row, member, _⟩ := exists_entry all List.mem_cons_self
      obtain ⟨present, solid⟩ := List.mem_filter.mp member
      exact ⟨row, present, of_decide_eq_true solid⟩
    · intro row present
      by_cases blank : Text.Blank row
      · exact Or.inl blank
      · obtain ⟨rule, _, states⟩ := exists_result all (List.mem_filter.mpr ⟨present, decide_eq_true blank⟩)
        exact Or.inr ⟨rule, states⟩
  · intro both
    obtain ⟨⟨row, present, solid⟩, sound⟩ := both
    cases result : Grammar.read text with
    | ok g => exact ⟨g, rfl⟩
    | error failure =>
      cases failure with
      | noProductions => exact absurd (read_eq_noProductions.mp result row present) solid
      | atLine number fault =>
        obtain ⟨before, other, after, same, _, filled, faulty, _⟩ := read_eq_error_atLine.mp result
        have inside : other ∈ Text.rows text.toList := same ▸ List.mem_append_right _ List.mem_cons_self
        exact absurd (sound other inside) (not_sound_of_faulty filled faulty)

-- The bar at the end of the third line and the bad token of the fifth are both faults, but the third line is first.
example : Grammar.read "\r\nS -> A b\r\nA -> a |\r\n\r\nA -> a B_\n" = .error (.atLine 3 .emptyAlternative) := by
  decide +kernel

end Grammar

end TopDownGrammar
