import TopDownGrammar.Text

/-! The alphabet of a grammar and its textual form. A token belongs to at most one class
of symbols: a nonterminal is a capital letter and digits, a terminal holds no uppercase
character, no blank, no `&` and no `$`, and `&` alone is the empty string. -/

namespace TopDownGrammar

abbrev Name := String

/-- The end of the input, written `$`, is met in FOLLOW sets only. Names and texts are not
checked on construction, see `Symbol.check`. -/
inductive Symbol where
  | nonterminal (name : Name)
  | terminal (text : String)
  | epsilon
  | endOfInput
deriving DecidableEq, Repr, Inhabited

inductive SymbolClass where
  | nonterminal
  | terminal
deriving DecidableEq, Repr

def SymbolClass.text : SymbolClass → String
  | nonterminal => "nonterminal"
  | terminal => "terminal"

inductive SymbolError where
  | invalid (token : String)
  | expected (token : String) (wanted : SymbolClass)
deriving DecidableEq, Repr

def SymbolError.message : SymbolError → String
  | invalid token => s!"'{token}' is not a valid symbol"
  | expected token wanted => s!"'{token}' is not a valid {wanted.text}"

/-- A capital letter `A` to `Z` and any number of digits `0` to `9`. -/
def isName (text : String) : Bool :=
  match text.toList with
  | [] => false
  | letter :: digits => letter.isUpper && digits.all Char.isDigit

def isTerminalCharacter (c : Char) : Bool :=
  !Text.isUppercase c && !Text.isBlank c && c != '&' && c != '$'

def isTerminalText (text : String) : Bool :=
  !text.isEmpty && text.toList.all isTerminalCharacter

def readName (text : String) : Except SymbolError Name :=
  if isName text then .ok text else .error (.expected text .nonterminal)

namespace Symbol

def text : Symbol → String
  | nonterminal name => name
  | terminal text => text
  | epsilon => "&"
  | endOfInput => "$"

def isNonterminal : Symbol → Bool
  | nonterminal _ => true
  | _ => false

def isTerminal : Symbol → Bool
  | terminal _ => true
  | _ => false

def isEpsilon : Symbol → Bool
  | epsilon => true
  | _ => false

def readNonterminal (token : String) : Except SymbolError Symbol :=
  (readName token).map nonterminal

def readTerminal (token : String) : Except SymbolError Symbol :=
  if isTerminalText token then .ok (terminal token) else .error (.expected token .terminal)

/-- The symbol that a token of a grammar's text stands for. The end of the input has no
place in a production, so `$` is not read. -/
def read (token : String) : Except SymbolError Symbol :=
  if isName token then .ok (nonterminal token)
  else if isTerminalText token then .ok (terminal token)
  else if token = epsilon.text then .ok epsilon
  else .error (.invalid token)

/-- Accepts the symbols that can stand in a production. -/
def check : Symbol → Except SymbolError Unit
  | nonterminal name => if isName name then .ok () else .error (.expected name .nonterminal)
  | terminal text => if isTerminalText text then .ok () else .error (.expected text .terminal)
  | epsilon => .ok ()
  | endOfInput => .error (.invalid endOfInput.text)

/-- The name of a symbol that can stand on the left of a production. -/
def nameOf : Symbol → Except SymbolError Name
  | nonterminal name => readName name
  | other => .error (.expected other.text .nonterminal)

/-! The order in which symbols are listed: nonterminals, terminals, the empty string, the
end of the input, and within a class by text, code point by code point. -/

def before : Symbol → Symbol → Bool
  | nonterminal a, nonterminal b => a < b
  | nonterminal _, _ => true
  | _, nonterminal _ => false
  | terminal a, terminal b => a < b
  | terminal _, _ => true
  | _, terminal _ => false
  | epsilon, endOfInput => true
  | _, _ => false

instance : LT Symbol := ⟨fun a b => a.before b = true⟩

instance : DecidableLT Symbol := fun a b => inferInstanceAs (Decidable (a.before b = true))

theorem lt_def {a b : Symbol} : a < b ↔ a.before b = true := Iff.rfl

theorem lt_irrefl (a : Symbol) : ¬ a < a := by
  intro below
  cases a <;> simp only [lt_def, before, decide_eq_true_eq, Bool.false_eq_true] at below
  all_goals exact String.lt_irrefl _ below

theorem lt_trans {a b c : Symbol} (first : a < b) (second : b < c) : a < c := by
  cases a <;> cases b <;> cases c <;>
    simp only [lt_def, before, decide_eq_true_eq, Bool.false_eq_true] at first second ⊢
  all_goals exact String.lt_trans first second

private theorem text_lt_or_eq_or_gt (a b : String) : a < b ∨ a = b ∨ b < a := by
  by_cases below : a < b
  · exact .inl below
  · by_cases above : b < a
    · exact .inr (.inr above)
    · exact .inr (.inl (String.le_antisymm (String.not_lt.1 above) (String.not_lt.1 below)))

theorem lt_or_eq_or_gt (a b : Symbol) : a < b ∨ a = b ∨ b < a := by
  cases a <;> cases b <;>
    simp only [lt_def, before, decide_eq_true_eq, nonterminal.injEq, terminal.injEq, true_or, or_true]
  all_goals exact text_lt_or_eq_or_gt _ _

instance : Trans (fun a b : Symbol => a < b) (fun a b : Symbol => a < b) (fun a b : Symbol => a < b) :=
  ⟨lt_trans⟩

instance : Std.Asymm fun a b : Symbol => a < b :=
  ⟨fun a _ below above => lt_irrefl a (lt_trans below above)⟩

instance : Std.Trichotomous fun a b : Symbol => a < b :=
  ⟨fun a b notBelow notAbove => (lt_or_eq_or_gt a b).resolve_left notBelow |>.resolve_right notAbove⟩

def sort (symbols : List Symbol) : List Symbol :=
  symbols.mergeSort fun a b => !b.before a

end Symbol

end TopDownGrammar
