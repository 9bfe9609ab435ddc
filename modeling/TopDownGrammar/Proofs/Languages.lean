import Mathlib.Computability.Language
import Mathlib.Order.CompletePartialOrder
import TopDownGrammar.Derivation
import TopDownGrammar.Proofs.Rules

/-! The languages of the nonterminals as the least solution of the productions. A value gives a
language to every nonterminal, a sequence is read as the product of what its symbols stand for,
and a value is closed when every alternative is read within the language of its nonterminal. Two
grammars are compared by showing that the languages of one are closed for the other. -/

namespace TopDownGrammar.Grammar

variable {g h : Grammar} {name : Name} {value other : Name → Language Symbol} {form sentence : List Symbol}

def language (g : Grammar) (name : Name) : Language Symbol :=
  {sentence | g.Generates name sentence}

/-- The end of the input stands for nothing, because no sentence holds it. -/
def meaning (value : Name → Language Symbol) : Symbol → Language Symbol
  | .nonterminal name => value name
  | .terminal text => {[.terminal text]}
  | .epsilon => 1
  | .endOfInput => 0

def reading (value : Name → Language Symbol) (form : List Symbol) : Language Symbol :=
  (form.map (meaning value)).prod

def Closed (g : Grammar) (value : Name → Language Symbol) : Prop :=
  ∀ name, ∀ alternative ∈ g.alternatives name, reading value alternative ≤ value name

theorem mem_language : sentence ∈ g.language name ↔ g.Generates name sentence := Iff.rfl

@[simp] theorem reading_nil (value : Name → Language Symbol) : reading value [] = 1 := rfl

@[simp] theorem reading_cons (value : Name → Language Symbol) (symbol : Symbol) (form : List Symbol) :
    reading value (symbol :: form) = meaning value symbol * reading value form := by
  simp [reading]

theorem reading_singleton (value : Name → Language Symbol) (symbol : Symbol) :
    reading value [symbol] = meaning value symbol := by
  simp

@[simp] theorem reading_append (value : Name → Language Symbol) (first second : List Symbol) :
    reading value (first ++ second) = reading value first * reading value second := by
  simp [reading]

@[simp] theorem reading_visible (value : Name → Language Symbol) (form : List Symbol) :
    reading value (visible form) = reading value form := by
  induction form with
  | nil => rfl
  | cons symbol rest ih =>
    cases symbol with
    | epsilon => simp [meaning, ih]
    | _ => simp_all [visible, Symbol.isEpsilon]

@[simp] theorem reading_compact (value : Name → Language Symbol) (form : List Symbol) :
    reading value (compact form) = reading value form := by
  rw [← reading_visible, visible_compact, reading_visible]

/-- Only the nonterminals of a sequence matter for how it is read. -/
theorem reading_le (below : ∀ name, .nonterminal name ∈ form → value name ≤ other name) :
    reading value form ≤ reading other form := by
  induction form with
  | nil => exact le_refl _
  | cons symbol rest ih =>
    have tail := ih fun name member => below name (List.mem_cons_of_mem _ member)
    have head : meaning value symbol ≤ meaning other symbol := by
      cases symbol with
      | nonterminal name => exact below name List.mem_cons_self
      | _ => exact le_refl _
    simpa only [reading_cons] using mul_le_mul' head tail

theorem reading_mono (below : ∀ name, value name ≤ other name) : reading value form ≤ reading other form :=
  reading_le fun name _ => below name

/-- A nonterminal of the empty language empties every sequence that it stands in. -/
theorem not_mem_reading (empty : ∀ word, word ∉ value name) (member : .nonterminal name ∈ form) :
    sentence ∉ reading value form := by
  induction form generalizing sentence with
  | nil => cases member
  | cons symbol rest ih =>
    rw [reading_cons, Language.mem_mul]
    intro found
    obtain ⟨front, left, rear, right, _⟩ := found
    rcases List.mem_cons.mp member with rfl | later
    · exact empty front left
    · exact ih later right

theorem mem_reading_terminals (terminals : sentence.all Symbol.isTerminal = true) :
    sentence ∈ reading value sentence := by
  induction sentence with
  | nil => rfl
  | cons symbol rest ih =>
    simp only [List.all_cons, Bool.and_eq_true] at terminals
    cases symbol with
    | terminal text =>
      have itself : [.terminal text] ∈ meaning value (.terminal text) := rfl
      rw [reading_cons]
      exact Language.append_mem_mul itself (ih terminals.2)
    | _ => simp [Symbol.isTerminal] at terminals

theorem Derives.mem_reading (closed : g.Closed value) (derives : g.Derives form sentence)
    (terminals : sentence.all Symbol.isTerminal = true) : sentence ∈ reading value form := by
  induction derives with
  | refl => exact mem_reading_terminals terminals
  | step step _ ih =>
    have later := ih terminals
    cases step with
    | @replace before after name alternative owned =>
      rw [reading_visible, reading_append, reading_append] at later
      rw [reading_append, reading_cons, ← mul_assoc]
      exact mul_le_mul' (mul_le_mul' (le_refl _) (closed name alternative owned)) (le_refl _) later

/-- The languages of a grammar lie below every closed value. -/
theorem language_le (closed : g.Closed value) (name : Name) : g.language name ≤ value name := by
  intro sentence generates
  have read := Derives.mem_reading closed generates.2 generates.1
  rw [reading_cons, reading_nil, mul_one] at read
  exact read

theorem derives_of_mem_reading (read : sentence ∈ reading g.language form) :
    sentence.all Symbol.isTerminal = true ∧ g.Derives (visible form) sentence := by
  induction form generalizing sentence with
  | nil =>
    obtain rfl := (Language.mem_one _).mp read
    exact ⟨rfl, .refl _⟩
  | cons symbol rest ih =>
    rw [reading_cons, Language.mem_mul] at read
    obtain ⟨front, left, rear, right, rfl⟩ := read
    obtain ⟨rearTerminals, rearDerives⟩ := ih right
    cases symbol with
    | nonterminal name =>
      obtain ⟨frontTerminals, frontDerives⟩ := mem_language.mp left
      have plainFront := frontDerives.plain (by simp)
      refine ⟨by simp [frontTerminals, rearTerminals], ?_⟩
      exact frontDerives.append rearDerives (epsilon_not_mem_visible rest) plainFront
    | terminal text =>
      obtain rfl : front = [.terminal text] := left
      refine ⟨by simp [Symbol.isTerminal, rearTerminals], ?_⟩
      exact (Derives.refl [.terminal text]).append rearDerives (epsilon_not_mem_visible rest) (by simp)
    | epsilon =>
      obtain rfl := (Language.mem_one _).mp left
      exact ⟨rearTerminals, rearDerives⟩
    | endOfInput => exact absurd left (Language.notMem_zero _)

/-- The languages of a grammar are closed, so they are its least closed value. -/
theorem language_closed (g : Grammar) : g.Closed g.language := by
  intro name alternative owned sentence read
  obtain ⟨terminals, derives⟩ := derives_of_mem_reading read
  exact ⟨terminals, (derives_alternative owned).trans derives⟩

theorem mem_reading_iff :
    sentence ∈ reading g.language form ↔
      sentence.all Symbol.isTerminal = true ∧ g.Derives (visible form) sentence := by
  refine ⟨derives_of_mem_reading, ?_⟩
  intro found
  obtain ⟨terminals, derives⟩ := found
  rw [← reading_visible]
  exact Derives.mem_reading g.language_closed derives terminals

theorem language_unfold (generates : sentence ∈ g.language name) :
    ∃ alternative ∈ g.alternatives name, sentence ∈ reading g.language alternative := by
  let once : Name → Language Symbol := fun name =>
    {sentence | ∃ alternative ∈ g.alternatives name, sentence ∈ reading g.language alternative}
  have below : ∀ name, once name ≤ g.language name := by
    intro name sentence found
    obtain ⟨alternative, owned, read⟩ := found
    exact g.language_closed name alternative owned read
  have closed : g.Closed once := by
    intro name alternative owned sentence read
    exact ⟨alternative, owned, reading_mono below read⟩
  exact language_le closed name generates

theorem nil_mem_language (owned : [.epsilon] ∈ g.alternatives name) : [] ∈ g.language name := by
  apply g.language_closed name _ owned
  rw [reading_singleton]
  exact Language.nil_mem_one

theorem language_eq_empty (unowned : g.alternatives name = []) : sentence ∉ g.language name := by
  intro generates
  obtain ⟨alternative, owned, _⟩ := language_unfold generates
  rw [unowned] at owned
  cases owned

/-- Only which alternatives there are counts for the languages, not their order or number. -/
theorem language_le_of_subset (kept : ∀ name, ∀ alternative ∈ g.alternatives name, alternative ∈ h.alternatives name)
    (name : Name) : g.language name ≤ h.language name :=
  language_le (fun name alternative owned => h.language_closed name alternative (kept name alternative owned)) name

end TopDownGrammar.Grammar
