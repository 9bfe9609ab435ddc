import TopDownGrammar.Symbol

/-! The texts of symbols. Names are capital letters and digits, terminals hold nothing blank and nothing uppercase, so the
classes are apart and a symbol that can stand in a production is read back from its text. The classes of tokens are said
once more without the functions that tell them apart, and each way of reading or checking a symbol goes by them, so all
ways agree on every text. -/

namespace TopDownGrammar

inductive TokenClass where
  | nonterminal
  | terminal
  | epsilon

namespace TokenClass

def Holds : TokenClass → String → Prop
  | nonterminal, text =>
    ∃ letter digits, text.toList = letter :: digits ∧ letter.isUpper = true ∧ digits.all Char.isDigit = true
  | terminal, text => text.toList ≠ [] ∧
    ∀ c ∈ text.toList, Text.isUppercase c = false ∧ Text.isBlank c = false ∧ c ≠ '&' ∧ c ≠ '$'
  | epsilon, text => text = "&"

def symbol : TokenClass → String → Symbol
  | nonterminal, text => .nonterminal text
  | terminal, text => .terminal text
  | epsilon, _ => .epsilon

end TokenClass

variable {text : String} {symbol : Symbol} {c : Char} {kind first second : TokenClass}

private theorem isUpper_iff : c.isUpper = true ↔ 65 ≤ c.toNat ∧ c.toNat ≤ 90 :=
  decide_eq_true_iff

private theorem isDigit_iff : c.isDigit = true ↔ 48 ≤ c.toNat ∧ c.toNat ≤ 57 := by
  simp only [Char.isDigit, Bool.and_eq_true, decide_eq_true_eq]
  exact Iff.rfl

private theorem isUppercase_of_isUpper (upper : c.isUpper = true) : Text.isUppercase c = true := by
  rw [isUpper_iff] at upper
  refine List.any_eq_true.mpr ⟨⟨0x0041, 0x005A, 1⟩, List.mem_cons_self, ?_⟩
  simp only [Text.CodeRun.holds, Bool.and_eq_true, decide_eq_true_eq, beq_iff_eq]
  omega

/-- A character that a name can hold. -/
def isNameCharacter (c : Char) : Bool :=
  c.isUpper || c.isDigit

private theorem code_of_isNameCharacter (held : isNameCharacter c = true) :
    48 ≤ c.toNat ∧ c.toNat ≤ 57 ∨ 65 ≤ c.toNat ∧ c.toNat ≤ 90 := by
  rw [isNameCharacter, Bool.or_eq_true, isUpper_iff, isDigit_iff] at held
  omega

private theorem not_isBlank_of_isNameCharacter (held : isNameCharacter c = true) : Text.isBlank c = false := by
  have code := code_of_isNameCharacter held
  simp only [Text.isBlank, Bool.or_eq_false_iff, Bool.and_eq_false_iff, decide_eq_false_iff_not, beq_eq_false_iff_ne]
  omega

theorem isName_iff : isName text = true ↔
    ∃ letter digits, text.toList = letter :: digits ∧ letter.isUpper = true ∧ digits.all Char.isDigit = true := by
  unfold isName
  cases text.toList with
  | nil => simp
  | cons letter digits =>
    simp only [Bool.and_eq_true]
    constructor
    · exact fun both => ⟨letter, digits, rfl, both⟩
    · rintro ⟨_, _, same, both⟩
      obtain ⟨rfl, rfl⟩ := List.cons.inj same
      exact both

theorem isNameCharacter_of_isName (named : isName text = true) : ∀ c ∈ text.toList, isNameCharacter c = true := by
  obtain ⟨letter, digits, same, upper, rest⟩ := isName_iff.mp named
  intro c member
  rw [same] at member
  rcases List.mem_cons.mp member with rfl | inside
  · simp [isNameCharacter, upper]
  · simp [isNameCharacter, List.all_eq_true.mp rest c inside]

theorem isTerminalText_iff : isTerminalText text = true ↔
    text.toList ≠ [] ∧ ∀ c ∈ text.toList, isTerminalCharacter c = true := by
  simp [isTerminalText, List.all_eq_true]

private theorem not_isName_of_isTerminalText (terminal : isTerminalText text = true) : isName text = false := by
  rw [Bool.eq_false_iff]
  intro named
  obtain ⟨letter, _, same, upper, _⟩ := isName_iff.mp named
  have allowed := (isTerminalText_iff.mp terminal).2 letter (same ▸ List.mem_cons_self)
  simp [isTerminalCharacter, isUppercase_of_isUpper upper] at allowed

theorem Symbol.check_nonterminal {name : Name} : (Symbol.nonterminal name).check = .ok () ↔ isName name = true := by
  simp only [Symbol.check]
  split <;> simp_all

theorem Symbol.check_terminal : (Symbol.terminal text).check = .ok () ↔ isTerminalText text = true := by
  simp only [Symbol.check]
  split <;> simp_all

theorem Symbol.text_word (checked : symbol.check = .ok ()) :
    symbol.text.toList ≠ [] ∧ ∀ c ∈ symbol.text.toList, Text.isBlank c = false := by
  cases symbol with
  | nonterminal name =>
    have named := Symbol.check_nonterminal.mp checked
    obtain ⟨letter, digits, same, _⟩ := isName_iff.mp named
    refine ⟨by simp [Symbol.text, same], ?_⟩
    exact fun c member => not_isBlank_of_isNameCharacter (isNameCharacter_of_isName named c member)
  | terminal text =>
    obtain ⟨nonempty, allowed⟩ := isTerminalText_iff.mp (Symbol.check_terminal.mp checked)
    refine ⟨nonempty, fun c member => ?_⟩
    have held := allowed c member
    simp only [isTerminalCharacter, Bool.and_eq_true, Bool.not_eq_true'] at held
    exact held.1.1.2
  | epsilon =>
    refine ⟨by simp [Symbol.text], fun c member => ?_⟩
    obtain rfl : c = '&' := by simpa [Symbol.text] using member
    rfl
  | endOfInput => cases checked

theorem Symbol.read_text (checked : symbol.check = .ok ()) : Symbol.read symbol.text = .ok symbol := by
  cases symbol with
  | nonterminal name => exact if_pos (Symbol.check_nonterminal.mp checked)
  | terminal text =>
    have terminal := Symbol.check_terminal.mp checked
    simp [Symbol.read, Symbol.text, not_isName_of_isTerminalText terminal, terminal]
  | epsilon => rfl
  | endOfInput => cases checked

theorem readName_eq_ok {name : Name} :
    readName text = .ok name ↔ text = name ∧ isName name = true := by
  unfold readName
  split
  next named => exact ⟨fun same => Except.ok.inj same ▸ ⟨rfl, named⟩, fun both => both.1 ▸ rfl⟩
  next unnamed => exact iff_of_false (fun same => nomatch same) (fun both => unnamed (both.1 ▸ both.2))

theorem symbolRead_eq_ok : Symbol.read text = .ok symbol ↔ symbol.text = text ∧ symbol.check = .ok () := by
  constructor
  · intro found
    unfold Symbol.read at found
    split at found
    next named =>
      obtain rfl := Except.ok.inj found
      exact ⟨rfl, Symbol.check_nonterminal.mpr named⟩
    next =>
      split at found
      next terminal =>
        obtain rfl := Except.ok.inj found
        exact ⟨rfl, Symbol.check_terminal.mpr terminal⟩
      next =>
        split at found
        next empty =>
          obtain rfl := Except.ok.inj found
          exact ⟨empty.symm, rfl⟩
        next => cases found
  · intro both
    obtain ⟨rfl, checked⟩ := both
    exact Symbol.read_text checked

/-! The classes of tokens. -/

private theorem holds_nonterminal : TokenClass.nonterminal.Holds text ↔ isName text = true :=
  isName_iff.symm

private theorem holds_terminal : TokenClass.terminal.Holds text ↔ isTerminalText text = true := by
  simp [TokenClass.Holds, isTerminalText_iff, isTerminalCharacter, and_assoc]

private theorem symbolRead_of_holds (holds : kind.Holds text) : Symbol.read text = .ok (kind.symbol text) := by
  cases kind with
  | nonterminal => exact Symbol.read_text (Symbol.check_nonterminal.mpr (holds_nonterminal.mp holds))
  | terminal => exact Symbol.read_text (Symbol.check_terminal.mpr (holds_terminal.mp holds))
  | epsilon =>
    obtain rfl : text = "&" := holds
    rfl

theorem symbolRead_iff_holds :
    Symbol.read text = .ok symbol ↔ ∃ kind : TokenClass, kind.Holds text ∧ kind.symbol text = symbol := by
  constructor
  · intro read
    obtain ⟨rfl, checked⟩ := symbolRead_eq_ok.mp read
    cases symbol with
    | nonterminal name => exact ⟨.nonterminal, holds_nonterminal.mpr (Symbol.check_nonterminal.mp checked), rfl⟩
    | terminal text => exact ⟨.terminal, holds_terminal.mpr (Symbol.check_terminal.mp checked), rfl⟩
    | epsilon => exact ⟨.epsilon, rfl, rfl⟩
    | endOfInput => cases checked
  · rintro ⟨kind, holds, rfl⟩
    exact symbolRead_of_holds holds

/-- What is read of a text tells its class, so it has only one. -/
theorem TokenClass.Holds.unique (holds : first.Holds text) (also : second.Holds text) : first = second := by
  have same : first.symbol text = second.symbol text :=
    Except.ok.inj ((symbolRead_of_holds holds).symm.trans (symbolRead_of_holds also))
  cases first <;> cases second <;> first | rfl | nomatch same

theorem readNonterminal_eq_ok : Symbol.readNonterminal text = .ok symbol ↔
    Symbol.read text = .ok symbol ∧ symbol.isNonterminal = true := by
  rw [symbolRead_eq_ok]
  constructor
  · intro read
    unfold Symbol.readNonterminal at read
    cases found : readName text with
    | error cause =>
      rw [found] at read
      cases read
    | ok name =>
      rw [found] at read
      obtain rfl := Except.ok.inj read
      obtain ⟨rfl, named⟩ := readName_eq_ok.mp found
      exact ⟨⟨rfl, Symbol.check_nonterminal.mpr named⟩, rfl⟩
  · rintro ⟨⟨rfl, checked⟩, known⟩
    cases symbol with
    | nonterminal name =>
      have named := readName_eq_ok.mpr ⟨rfl, Symbol.check_nonterminal.mp checked⟩
      exact congrArg (Except.map Symbol.nonterminal) named
    | _ => cases known

theorem readTerminal_eq_ok : Symbol.readTerminal text = .ok symbol ↔
    Symbol.read text = .ok symbol ∧ symbol.isTerminal = true := by
  rw [symbolRead_eq_ok]
  constructor
  · intro read
    unfold Symbol.readTerminal at read
    split at read
    next plain =>
      obtain rfl := Except.ok.inj read
      exact ⟨⟨rfl, Symbol.check_terminal.mpr plain⟩, rfl⟩
    next => cases read
  · rintro ⟨⟨rfl, checked⟩, known⟩
    cases symbol with
    | terminal text => exact if_pos (Symbol.check_terminal.mp checked)
    | _ => cases known

/-- A symbol can stand in a production if and only if it is read back from its text. A text is read if it is a
token of one of the classes, as the symbol that the token stands for, and the readers for nonterminals and for
terminals read the same symbol where it is of their kind and nothing elsewhere. -/
theorem tokenClasses_exact :
    (∀ symbol : Symbol, symbol.check = .ok () ↔ Symbol.read symbol.text = .ok symbol) ∧
    (∀ text (first second : TokenClass), first.Holds text → second.Holds text → first = second) ∧
    ∀ text : String,
      ((∃ symbol, Symbol.read text = .ok symbol) ↔ ∃ kind : TokenClass, kind.Holds text) ∧
      ∀ symbol : Symbol,
        (Symbol.read text = .ok symbol ↔ ∃ kind : TokenClass, kind.Holds text ∧ kind.symbol text = symbol) ∧
        (Symbol.read text = .ok symbol ↔ symbol.text = text ∧ symbol.check = .ok ()) ∧
        (Symbol.readNonterminal text = .ok symbol ↔ Symbol.read text = .ok symbol ∧ symbol.isNonterminal = true) ∧
        (Symbol.readTerminal text = .ok symbol ↔ Symbol.read text = .ok symbol ∧ symbol.isTerminal = true) := by
  refine ⟨?_, fun _ _ _ holds => holds.unique, fun text => ⟨?_, fun symbol => ?_⟩⟩
  · intro symbol
    rw [symbolRead_eq_ok, and_iff_right rfl]
  · constructor
    · rintro ⟨symbol, read⟩
      obtain ⟨kind, holds, _⟩ := symbolRead_iff_holds.mp read
      exact ⟨kind, holds⟩
    · rintro ⟨kind, holds⟩
      exact ⟨kind.symbol text, symbolRead_of_holds holds⟩
  · exact ⟨symbolRead_iff_holds, symbolRead_eq_ok, readNonterminal_eq_ok, readTerminal_eq_ok⟩

-- A Roman numeral is uppercase and a titlecase letter is not. A name that is written with a blank is no token.
example : Symbol.read "Ⅷ" = .error (.invalid "Ⅷ") ∧ Symbol.read "ǅ" = .ok (.terminal "ǅ") ∧
    (Symbol.nonterminal "A 1").check = .error (.expected "A 1" .nonterminal) :=
  ⟨rfl, rfl, rfl⟩

end TopDownGrammar
