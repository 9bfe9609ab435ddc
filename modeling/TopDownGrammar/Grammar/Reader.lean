import TopDownGrammar.Grammar.Basic

/-! Grammars from text. Every line that is not blank holds one `->`, a nonterminal before it,
and after it the alternatives of that nonterminal between bars, each a list of tokens between
blanks. The first such line gives the start. -/

namespace TopDownGrammar

inductive LineFault where
  | missingArrow
  | multipleArrows
  | leftHandSide (cause : SymbolError)
  | invalidSymbol (cause : SymbolError)
  | emptyAlternative
deriving DecidableEq, Repr

/-- Lines are counted from one, blank lines included. -/
inductive ReadError where
  | noProductions
  | atLine (line : Nat) (fault : LineFault)
deriving DecidableEq, Repr

def LineFault.message (line : Nat) : LineFault → String
  | missingArrow => s!"expected a `->` on line {line}"
  | multipleArrows => s!"expected a single `->` on line {line}"
  | leftHandSide cause => s!"{cause.message} on the left of line {line}"
  | invalidSymbol cause => s!"{cause.message} on line {line}"
  | emptyAlternative => s!"expected a sequence of symbols next to the `|` on line {line}"

def ReadError.message : ReadError → String
  | noProductions => "the grammar has no productions"
  | atLine line fault => fault.message line

/-- The line that the error was found on, if it is tied to one. -/
def ReadError.line? : ReadError → Option Nat
  | noProductions => none
  | atLine line _ => some line

/-- The text before and after the first `->`. -/
def cutAtArrow : List Char → Option (List Char × List Char)
  | '-' :: '>' :: after => some ([], after)
  | c :: rest => (cutAtArrow rest).map fun (before, after) => (c :: before, after)
  | [] => none

def readAlternative (piece : List Char) : Except LineFault Alternative :=
  match (Text.words piece).mapM fun word => Symbol.read (String.ofList word) with
  | .error cause => .error (.invalidSymbol cause)
  | .ok [] => .error .emptyAlternative
  | .ok symbols => .ok symbols

/-- The fault reported is the first of: no arrow, a second arrow, the left-hand side, and the
alternatives from left to right. -/
def readLine (line : List Char) : Except LineFault Rule :=
  match cutAtArrow line with
  | none => .error .missingArrow
  | some (before, after) =>
    if (cutAtArrow after).isSome then .error .multipleArrows
    else match readName (String.ofList (Text.trim before)) with
      | .error cause => .error (.leftHandSide cause)
      | .ok name => do return ⟨name, ← (Text.split (· == '|') after).mapM readAlternative⟩

/-- The rules on the lines that are not blank, `line` being the number of the first line. -/
def readLines (line : Nat) : List (List Char) → Except ReadError (List Rule)
  | [] => .ok []
  | text :: rest =>
    if text.all Text.isBlank then readLines (line + 1) rest
    else match readLine text with
      | .error fault => .error (.atLine line fault)
      | .ok rule => do return rule :: (← readLines (line + 1) rest)

def Grammar.read (text : String) : Except ReadError Grammar :=
  match readLines 1 (Text.lines text.toList) with
  | .error fault => .error fault
  | .ok [] => .error .noProductions
  | .ok (first :: rest) => .ok (.ofProductions first.lhs ((first :: rest).flatMap Rule.productions))

end TopDownGrammar
