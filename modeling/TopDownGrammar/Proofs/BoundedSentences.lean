import TopDownGrammar.Proofs.ProperForm
import TopDownGrammar.Proofs.SearchRuns

/-! The search finds the short sentences. It meets finitely many sequences, because all are short
and over the symbols of the grammar, and it does not lose a sentence by giving up on what is too
long, because a sequence of a proper grammar is never longer than the sentences it leads to. -/

namespace TopDownGrammar

section Ascending

variable {α : Type} [DecidableEq α]

private theorem mem_squeeze {entries : List α} {entry : α} : entry ∈ squeeze entries ↔ entry ∈ entries := by
  fun_induction squeeze entries with
  | case1 a rest ih => simp [ih]
  | case2 a b rest _ ih => simp [ih]
  | case3 short => rfl

end Ascending

private theorem mem_ascending {sequences : List (List Symbol)} {sequence : List Symbol} :
    sequence ∈ ascending sequences ↔ sequence ∈ sequences := by
  rw [ascending, mem_squeeze, sortSequences, List.mem_mergeSort]

def sequencesOver (alphabet : List Symbol) : Nat → List (List Symbol)
  | 0 => [[]]
  | length + 1 => [] :: alphabet.flatMap fun symbol => (sequencesOver alphabet length).map (symbol :: ·)

private theorem mem_sequencesOver {alphabet form : List Symbol} {length : Nat} (within : form ⊆ alphabet)
    (short : form.length ≤ length) : form ∈ sequencesOver alphabet length := by
  induction form generalizing length with
  | nil => cases length <;> exact List.mem_cons_self
  | cons head rest ih =>
    cases length with
    | zero => cases short
    | succ length =>
      obtain ⟨front, rear⟩ := List.cons_subset.mp within
      have later := ih rear (Nat.le_of_succ_le_succ short)
      exact List.mem_cons_of_mem _ (List.mem_flatMap.mpr ⟨head, front, List.mem_map_of_mem later⟩)

private theorem length_written (symbols : List Symbol) : (written symbols).length ≤ max symbols.length 1 := by
  unfold written
  split
  · exact Nat.le_max_right _ _
  · exact Nat.le_max_left _ _

namespace Grammar

open Search

variable {g : Grammar} {bound : Nat} {form second sentence : List Symbol}

private theorem Step.from_visible (step : g.Step form second) : g.Step (visible form) second := by
  cases step with
  | @replace before after name alternative owned =>
    have kept : visible (.nonterminal name :: after) = .nonterminal name :: visible after := rfl
    rw [visible_append, kept]
    simpa using Step.replace (visible before) (visible after) owned

private theorem Step.subset (step : g.Step form second) : second ⊆ form ++ g.symbols := by
  intro symbol member
  rcases step.origin member with old | ⟨name, _, alternative, owned, inside⟩
  · exact List.mem_append_left _ old
  · exact List.mem_append_right _ (mem_symbols_of_alternative owned inside)

section Reached

variable (path : Relation.ReflTransGen (Moves g bound) [.nonterminal g.start] form)

include path

private theorem subset_of_moves : form ⊆ .epsilon :: g.symbols := by
  induction path with
  | refl =>
    intro symbol member
    rw [List.mem_singleton.mp member]
    exact List.mem_cons_of_mem _ List.mem_cons_self
  | tail _ moves ih =>
    obtain ⟨second, step, rfl⟩ := mem_successors.mp moves.1
    intro symbol member
    rcases mem_written member with rfl | inside
    · exact List.mem_cons_self
    · rcases List.mem_append.mp (step.subset inside) with old | new
      · exact ih old
      · exact List.mem_cons_of_mem _ new

private theorem length_of_moves : form.length ≤ max bound 1 := by
  cases path with
  | refl => exact Nat.le_max_right _ _
  | tail _ moves =>
    obtain ⟨second, step, rfl⟩ := mem_successors.mp moves.1
    have short := moves.2
    rw [visible_written, visible_of_plain step.plain] at short
    have written := length_written second
    omega

private theorem derives_of_moves : g.Derives [.nonterminal g.start] (visible form) := by
  induction path with
  | refl => exact .refl _
  | tail _ moves ih =>
    obtain ⟨second, step, rfl⟩ := mem_successors.mp moves.1
    rw [visible_written, visible_of_plain step.plain]
    exact ih.trans (.step step.from_visible (.refl _))

private theorem length_visible_of_moves (finished : form.any Symbol.isNonterminal = false) : (visible form).length ≤ bound := by
  cases path with
  | refl => cases finished
  | tail _ moves => exact moves.2

theorem generates_of_moves (wellFormed : g.WellFormed) (finished : form.any Symbol.isNonterminal = false) :
    g.Generates g.start (visible form) := by
  refine ⟨List.all_eq_true.mpr ?_, derives_of_moves path⟩
  intro symbol member
  obtain ⟨inside, solid⟩ := mem_visible.mp member
  cases symbol with
  | terminal text => rfl
  | nonterminal name => exact absurd rfl (List.any_eq_false.mp finished _ inside)
  | epsilon => exact absurd rfl solid
  | endOfInput =>
    rcases List.mem_cons.mp (subset_of_moves path inside) with same | listed
    · cases same
    · exact absurd listed wellFormed.unmarked_symbols

end Reached

namespace ProperForm

variable (proper : g.ProperForm)

include proper

/-- Once a step has been made from the start, no symbol can vanish any more. -/
private theorem solid_of_step (known : form = [.nonterminal g.start] ∨ ∀ symbol ∈ form, [] ∉ meaning g.language symbol)
    (step : g.Step form second) : ∀ symbol ∈ second, [] ∉ meaning g.language symbol := by
  cases step with
  | @replace before after name alternative owned =>
    intro symbol member
    obtain ⟨inside, visible⟩ := mem_visible.mp member
    rcases known with start | solid
    · obtain ⟨rfl, rfl⟩ : before = [] ∧ after = [] := by
        have single := congrArg List.length start
        simp only [List.length_append, List.length_cons, List.length_nil] at single
        exact ⟨List.length_eq_zero_iff.mp (by omega), List.length_eq_zero_iff.mp (by omega)⟩
      rw [List.nil_append, List.append_nil] at inside
      apply proper.solid owned ?_ symbol inside
      intro same
      subst same
      exact visible (List.mem_singleton.mp inside)
    · have plain : alternative ≠ [.epsilon] := by
        intro same
        subst same
        exact solid _ (List.mem_append_right _ List.mem_cons_self) (nil_mem_language owned)
      rcases List.mem_append.mp inside with inner | later
      · rcases List.mem_append.mp inner with earlier | new
        · exact solid symbol (List.mem_append_left _ earlier)
        · exact proper.solid owned plain symbol new
      · exact solid symbol (List.mem_append_right _ (List.mem_cons_of_mem _ later))

/-- A derivation of a short sentence passes through short sequences only. -/
private theorem moves_of_derives (known : form = [.nonterminal g.start] ∨ ∀ symbol ∈ form, [] ∉ meaning g.language symbol)
    (derives : g.Derives form sentence) (terminals : sentence.all Symbol.isTerminal = true)
    (short : sentence.length ≤ bound) :
    Relation.ReflTransGen (Moves g bound) (written form) (written sentence) := by
  induction derives with
  | refl => exact .refl
  | @step first second last one more ih =>
    have solid := proper.solid_of_step known one
    have shorter := length_le_of_mem_reading solid (Derives.mem_reading g.language_closed more terminals)
    have shown : written first = first := by
      cases one
      simp [written]
    refine Relation.ReflTransGen.head ⟨?_, ?_⟩ (ih (Or.inr solid) terminals short)
    · rw [shown]
      exact mem_successors.mpr ⟨second, one, rfl⟩
    · rw [visible_written, visible_of_plain one.plain]
      exact Nat.le_trans shorter short

end ProperForm

private theorem finished_written (terminals : sentence.all Symbol.isTerminal = true) :
    (written sentence).any Symbol.isNonterminal = false ∧ visible (written sentence) = sentence := by
  have terminal := List.all_eq_true.mp terminals
  constructor
  · apply List.any_eq_false.mpr
    intro symbol member nonterminal
    rcases mem_written member with rfl | inside
    · cases nonterminal
    · cases symbol with
      | nonterminal name => cases terminal _ inside
      | _ => cases nonterminal
  · rw [visible_written]
    apply visible_of_plain
    intro inside
    cases terminal _ inside

/-- The search on a proper grammar can only reach so much, and from that comes each short sentence. -/
theorem mem_reached_iff (wellFormed : g.WellFormed) :
    (∃ form, Relation.ReflTransGen (Moves g.proper bound) [.nonterminal g.proper.start] form ∧
      form.any Symbol.isNonterminal = false ∧ sentence = visible form) ↔
    sentence.length ≤ bound ∧ g.Generates g.start sentence := by
  have same : g.proper.Generates g.proper.start sentence ↔ g.Generates g.start sentence := by
    rw [← mem_language, language_proper_start wellFormed, mem_language]
  rw [← same]
  constructor
  · intro reached
    obtain ⟨form, path, finished, rfl⟩ := reached
    exact ⟨length_visible_of_moves path finished, generates_of_moves path (wellFormed_proper wellFormed) finished⟩
  · intro meant
    obtain ⟨short, generates⟩ := meant
    have proper := properForm_proper wellFormed ⟨sentence, same.mp generates⟩
    obtain ⟨finished, shown⟩ := finished_written generates.1
    exact ⟨written sentence, proper.moves_of_derives (Or.inl rfl) generates.2 generates.1 short, finished, shown.symm⟩

/-- The search ends, and what it finds are the sentences of the grammar up to the bound. -/
theorem search_complete (wellFormed : g.WellFormed) (bound : Nat) :
    (∃ ended, g.search bound = some ended ∧ ended.queue = []) ∧
    ∀ sentence, sentence ∈ g.sentences bound ↔ sentence.length ≤ bound ∧ g.Generates g.start sentence := by
  have inside : ∀ form, Relation.ReflTransGen (Moves g.proper bound) [.nonterminal g.proper.start] form →
      form ∈ sequencesOver (.epsilon :: g.proper.symbols) (max bound 1) :=
    fun form path => mem_sequencesOver (subset_of_moves path) (length_of_moves path)
  obtain ⟨ended, result, empty, found⟩ := run_initial inside
  have search : g.search bound = some ended := result
  refine ⟨⟨ended, search, empty⟩, ?_⟩
  intro sentence
  rw [sentences, search, Option.elim_some, mem_ascending, found, mem_reached_iff wellFormed]

def nested : Grammar :=
  ⟨"S", [⟨"S", [[.terminal "a", .nonterminal "S", .terminal "b"], [.epsilon], [.nonterminal "T"]]⟩,
    ⟨"T", [[.nonterminal "S"], [.nonterminal "T", .epsilon, .nonterminal "U"]]⟩]⟩

theorem nested_sentences :
    nested.WellFormed ∧ (∃ ended, nested.search 2 = some ended ∧ ended.queue = []) ∧
      [] ∈ nested.sentences 2 ∧ [.terminal "a", .terminal "b"] ∈ nested.sentences 2 := by
  have wellFormed : nested.WellFormed := by decide
  obtain ⟨ends, sentences⟩ := search_complete wellFormed 2
  have vanishes : [.epsilon] ∈ nested.alternatives "S" := by decide
  have grows : [.terminal "a", .nonterminal "S", .terminal "b"] ∈ nested.alternatives "S" := by decide
  have first : nested.Derives [.nonterminal "S"] [.terminal "a", .nonterminal "S", .terminal "b"] :=
    derives_alternative grows
  have last : nested.Derives [.terminal "a", .nonterminal "S", .terminal "b"] [.terminal "a", .terminal "b"] :=
    .step (.replace [.terminal "a"] [.terminal "b"] vanishes) (.refl _)
  refine ⟨wellFormed, ends, ?_, ?_⟩
  · exact (sentences _).mpr ⟨by decide, rfl, derives_alternative vanishes⟩
  · exact (sentences _).mpr ⟨by decide, rfl, first.trans last⟩

end Grammar

end TopDownGrammar
