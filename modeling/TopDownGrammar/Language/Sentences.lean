import TopDownGrammar.Derivation
import TopDownGrammar.Grammar.Canonical
import TopDownGrammar.Proper

/-! The short sentences of a language, found breadth first. The search runs on the proper form,
where no sequence but the start is longer than what it leads to, so a sequence that has grown too
long is given up. -/

namespace TopDownGrammar

/-- Neighbours that are equal become one. -/
def squeeze [DecidableEq α] : List α → List α
  | a :: b :: rest => if a = b then squeeze (b :: rest) else a :: squeeze (b :: rest)
  | short => short

def ascending (sequences : List (List Symbol)) : List (List Symbol) :=
  squeeze (sortSequences sequences)

/-- The sequences that wait for their visit, all that ever waited, and the sentences so far. -/
structure Search where
  queue : List (List Symbol)
  seen : List (List Symbol)
  found : List (List Symbol)
deriving DecidableEq, Repr

namespace Search

/-- The first sequence is let in whatever its length. -/
def initial (form : List Symbol) : Search :=
  ⟨[form], [form], []⟩

/-- Lets a sequence wait unless it is too long or has waited before. -/
def offer (bound : Nat) (search : Search) (form : List Symbol) : Search :=
  if (visible form).length ≤ bound ∧ form ∉ search.seen then
    { search with queue := search.queue ++ [form], seen := form :: search.seen }
  else search

/-- A sequence without nonterminals is a sentence, any other is replaced by its successors. -/
def visit (g : Grammar) (bound : Nat) (search : Search) (form : List Symbol) : Search :=
  if form.any Symbol.isNonterminal then (g.successors form).foldl (offer bound) search
  else { search with found := visible form :: search.found }

/-- Visits the sequence that has waited longest. -/
def step (g : Grammar) (bound : Nat) (search : Search) : Option Search :=
  match search.queue with
  | [] => none
  | form :: rest => some (visit g bound { search with queue := rest } form)

/-- Goes on until no sequence waits. Only a search without end has no result. -/
def run (g : Grammar) (bound : Nat) (search : Search) : Option Search :=
  match search.step g bound with
  | none => some search
  | some next => next |>.run g bound
partial_fixpoint

end Search

namespace Grammar

def search (g : Grammar) (bound : Nat) : Option Search :=
  let proper := g.proper
  Search.run proper bound (.initial [.nonterminal proper.start])

/-- The sentences of at most `bound` terminals in ascending order. -/
def sentences (g : Grammar) (bound : Nat) : List (List Symbol) :=
  ascending ((g.search bound).elim [] (·.found))

end Grammar

end TopDownGrammar
