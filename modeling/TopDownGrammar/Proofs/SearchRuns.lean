import Mathlib.Logic.Relation
import TopDownGrammar.Derivation
import TopDownGrammar.Language.Sentences
import TopDownGrammar.Proofs.Rules

/-! Runs of the breadth-first search. What is seen has been reached by short successors, and what no
longer waits has had all of its own let in, so a search that ends has seen everything reachable. It
ends because every visit takes one sequence out of the queue and none comes in twice. -/

namespace TopDownGrammar

private theorem mem_places {α : Type} {entries before after : List α} {entry : α} :
    (before, entry, after) ∈ places entries ↔ entries = before ++ entry :: after := by
  induction entries generalizing before with
  | nil => simp [places]
  | cons head rest ih =>
    rw [places, List.mem_cons, List.mem_map]
    constructor
    · intro found
      rcases found with same | ⟨⟨front, middle, rear⟩, member, same⟩
      · obtain ⟨rfl, rfl, rfl⟩ := same
        rfl
      · obtain ⟨rfl, rfl, rfl⟩ := same
        rw [ih.mp member]
        rfl
    · intro same
      cases before with
      | nil =>
        obtain ⟨rfl, rfl⟩ := List.cons.inj same
        exact Or.inl rfl
      | cons first before =>
        obtain ⟨rfl, later⟩ := List.cons.inj same
        exact Or.inr ⟨(before, entry, after), ih.mpr later, rfl⟩

namespace Grammar

variable {g : Grammar} {form next : List Symbol}

theorem mem_successors : next ∈ g.successors form ↔ ∃ second, g.Step form second ∧ next = written second := by
  rw [successors, List.mem_flatMap]
  constructor
  · intro found
    obtain ⟨⟨before, symbol, after⟩, place, expanded⟩ := found
    obtain rfl := mem_places.mp place
    obtain ⟨alternative, owned, rfl⟩ := List.mem_map.mp expanded
    cases symbol with
    | nonterminal name => exact ⟨_, .replace before after owned, rfl⟩
    | _ => cases owned
  · intro found
    obtain ⟨second, step, rfl⟩ := found
    cases step with
    | replace before after owned => exact ⟨_, mem_places.mpr rfl, List.mem_map.mpr ⟨_, owned, rfl⟩⟩

private theorem Step.any_nonterminal (step : g.Step form next) : form.any Symbol.isNonterminal = true := by
  cases step
  simp [Symbol.isNonterminal]

end Grammar

namespace Search

variable {g : Grammar} {bound : Nat} {first form : List Symbol} {search before after : Search}

def Moves (g : Grammar) (bound : Nat) (form next : List Symbol) : Prop :=
  next ∈ g.successors form ∧ (visible next).length ≤ bound

/-- What letting some sequences wait does to a search. -/
structure Offered (bound : Nat) (forms : List (List Symbol)) (before after : Search) : Prop where
  seen : before.seen ⊆ after.seen
  queue : before.queue ⊆ after.queue
  taken : ∀ form ∈ forms, (visible form).length ≤ bound → form ∈ after.seen
  fresh : ∀ form ∈ after.seen, form ∈ before.seen ∨ form ∈ forms ∧ (visible form).length ≤ bound ∧ form ∈ after.queue
  waiting : ∀ form ∈ after.queue, form ∈ before.queue ∨ form ∈ after.seen
  distinct : before.seen.Nodup → after.seen.Nodup
  balance : after.seen.length + before.queue.length = before.seen.length + after.queue.length

private theorem offered_none (search : Search) (found : List (List Symbol)) :
    Offered bound [] search { search with found } where
  seen := List.Subset.refl _
  queue := List.Subset.refl _
  taken _ member := absurd member List.not_mem_nil
  fresh _ member := Or.inl member
  waiting _ member := Or.inl member
  distinct once := once
  balance := rfl

private theorem offered_one (search : Search) (form : List Symbol) :
    Offered bound [form] search (search.offer bound form) := by
  unfold offer
  split
  next allowed =>
    obtain ⟨short, new⟩ := allowed
    constructor
    · exact List.subset_cons_self _ _
    · exact List.subset_append_left _ _
    · intro other member _
      exact List.mem_cons.mpr (Or.inl (List.mem_singleton.mp member))
    · intro other member
      rcases List.mem_cons.mp member with rfl | old
      · exact Or.inr ⟨List.mem_singleton_self _, short, List.mem_append_right _ (List.mem_singleton_self _)⟩
      · exact Or.inl old
    · intro other member
      rcases List.mem_append.mp member with old | last
      · exact Or.inl old
      · exact Or.inr (List.mem_cons.mpr (Or.inl (List.mem_singleton.mp last)))
    · exact fun once => List.nodup_cons.mpr ⟨new, once⟩
    · simp only [List.length_cons, List.length_append, List.length_nil]
      omega
  next refused =>
    have nothing : Offered bound [] search search := offered_none search search.found
    refine { nothing with taken := ?_, fresh := fun other member => Or.inl member }
    intro other member short
    obtain rfl := List.mem_singleton.mp member
    exact Classical.byContradiction fun new => refused ⟨short, new⟩

private theorem Offered.trans {middle : Search} {some others : List (List Symbol)}
    (one : Offered bound some before middle) (two : Offered bound others middle after) :
    Offered bound (some ++ others) before after where
  seen := List.Subset.trans one.seen two.seen
  queue := List.Subset.trans one.queue two.queue
  taken := by
    intro form member short
    rcases List.mem_append.mp member with early | late
    · exact two.seen (one.taken form early short)
    · exact two.taken form late short
  fresh := by
    intro form member
    rcases two.fresh form member with old | ⟨late, short, queued⟩
    · rcases one.fresh form old with older | ⟨early, short, queued⟩
      · exact Or.inl older
      · exact Or.inr ⟨List.mem_append_left _ early, short, two.queue queued⟩
    · exact Or.inr ⟨List.mem_append_right _ late, short, queued⟩
  waiting := by
    intro form member
    rcases two.waiting form member with old | seen
    · exact (one.waiting form old).imp_right fun seen => two.seen seen
    · exact Or.inr seen
  distinct once := two.distinct (one.distinct once)
  balance := by
    have first := one.balance
    have second := two.balance
    omega

private theorem offered_all (forms : List (List Symbol)) (search : Search) :
    Offered bound forms search (forms.foldl (offer bound) search) := by
  induction forms generalizing search with
  | nil => exact offered_none search search.found
  | cons form rest ih => exact (offered_one search form).trans (ih _)

/-- Nothing is left to be drawn from a sequence. -/
structure Settled (g : Grammar) (bound : Nat) (search : Search) (form : List Symbol) : Prop where
  moves : ∀ next, Moves g bound form next → next ∈ search.seen
  finds : form.any Symbol.isNonterminal = false → visible form ∈ search.found

private theorem Settled.mono (settled : Settled g bound before form) (seen : before.seen ⊆ after.seen)
    (found : before.found ⊆ after.found) : Settled g bound after form :=
  ⟨fun next moves => seen (settled.moves next moves), fun finished => found (settled.finds finished)⟩

/-- What holds throughout a search from `first`. -/
structure Valid (g : Grammar) (bound : Nat) (first : List Symbol) (search : Search) : Prop where
  begun : first ∈ search.seen
  distinct : search.seen.Nodup
  waiting : search.queue ⊆ search.seen
  reached : ∀ form ∈ search.seen, Relation.ReflTransGen (Moves g bound) first form
  settled : ∀ form ∈ search.seen, form ∈ search.queue ∨ Settled g bound search form
  sentences : ∀ sentence ∈ search.found, ∃ form ∈ search.seen,
    form.any Symbol.isNonterminal = false ∧ sentence = visible form

theorem valid_initial (g : Grammar) (bound : Nat) (first : List Symbol) : Valid g bound first (initial first) where
  begun := List.mem_singleton_self _
  distinct := List.nodup_singleton _
  waiting := List.Subset.refl _
  reached form member := by
    rw [List.mem_singleton.mp member]
  settled form member := Or.inl member
  sentences sentence member := absurd member List.not_mem_nil

private theorem found_offered (forms : List (List Symbol)) (search : Search) :
    (forms.foldl (offer bound) search).found = search.found := by
  induction forms generalizing search with
  | nil => rfl
  | cons form rest ih =>
    rw [List.foldl_cons, ih, offer]
    split <;> rfl

private theorem offered_visit (g : Grammar) (bound : Nat) (search : Search) (form : List Symbol) :
    Offered bound (g.successors form) search (visit g bound search form) := by
  unfold visit
  split
  next => exact offered_all _ _
  next finished =>
    have none : g.successors form = [] := by
      apply List.eq_nil_iff_forall_not_mem.mpr
      intro next member
      obtain ⟨second, step, _⟩ := Grammar.mem_successors.mp member
      exact finished step.any_nonterminal
    rw [none]
    exact offered_none search _

private theorem mem_found_visit {sentence : List Symbol} :
    sentence ∈ (visit g bound search form).found ↔
      sentence ∈ search.found ∨ form.any Symbol.isNonterminal = false ∧ sentence = visible form := by
  unfold visit
  split
  next unfinished => simp [found_offered, unfinished]
  next finished => simp [finished, or_comm]

private theorem step_eq (moved : search.step g bound = some after) :
    ∃ form rest, search.queue = form :: rest ∧ after = visit g bound { search with queue := rest } form := by
  unfold step at moved
  split at moved
  next => cases moved
  next form rest same => exact ⟨form, rest, same, (Option.some.inj moved).symm⟩

private theorem queue_eq_nil (ended : search.step g bound = none) : search.queue = [] := by
  unfold step at ended
  split at ended
  next empty => exact empty
  next => cases ended

/-- A step takes one sequence out of the queue for good. -/
private theorem step_balance (moved : search.step g bound = some after) :
    after.seen.length + search.queue.length = search.seen.length + after.queue.length + 1 := by
  obtain ⟨form, rest, same, rfl⟩ := step_eq moved
  have balance := (offered_visit g bound { search with queue := rest } form).balance
  rw [same, List.length_cons]
  simp only at balance
  omega

theorem Valid.step (valid : Valid g bound first search) (moved : search.step g bound = some after) :
    Valid g bound first after := by
  obtain ⟨form, rest, same, rfl⟩ := step_eq moved
  have offered := offered_visit g bound { search with queue := rest } form
  have current : form ∈ search.seen := valid.waiting (same ▸ List.mem_cons_self)
  have found : search.found ⊆ (visit g bound { search with queue := rest } form).found :=
    fun sentence member => mem_found_visit.mpr (Or.inl member)
  constructor
  case begun => exact offered.seen valid.begun
  case distinct => exact offered.distinct valid.distinct
  case waiting =>
    intro other member
    rcases offered.waiting other member with old | seen
    · exact offered.seen (valid.waiting (same ▸ List.mem_cons_of_mem _ old))
    · exact seen
  case reached =>
    intro other member
    rcases offered.fresh other member with old | ⟨successor, short, _⟩
    · exact valid.reached other old
    · exact (valid.reached form current).tail ⟨successor, short⟩
  case settled =>
    intro other member
    rcases offered.fresh other member with old | ⟨_, _, queued⟩
    · rcases valid.settled other old with waits | settled
      · rcases List.mem_cons.mp (same ▸ waits) with rfl | later
        · refine Or.inr ⟨fun next moves => offered.taken next moves.1 moves.2, ?_⟩
          exact fun finished => mem_found_visit.mpr (Or.inr ⟨finished, rfl⟩)
        · exact Or.inl (offered.queue later)
      · exact Or.inr (settled.mono offered.seen found)
    · exact Or.inl queued
  case sentences =>
    intro sentence member
    rcases mem_found_visit.mp member with old | ⟨finished, rfl⟩
    · obtain ⟨origin, seen, terminal, rfl⟩ := valid.sentences sentence old
      exact ⟨origin, offered.seen seen, terminal, rfl⟩
    · exact ⟨form, offered.seen current, finished, rfl⟩

theorem Valid.run {scope : List (List Symbol)}
    (inside : ∀ form, Relation.ReflTransGen (Moves g bound) first form → form ∈ scope)
    (valid : Valid g bound first search) :
    ∃ ended, run g bound search = some ended ∧ ended.queue = [] ∧ Valid g bound first ended := by
  generalize left : scope.length + search.queue.length - search.seen.length = rank
  induction rank using Nat.strongRecOn generalizing search with
  | ind rank ih =>
    rw [Search.run]
    cases moved : search.step g bound with
    | none =>
      exact ⟨search, rfl, queue_eq_nil moved, valid⟩
    | some next =>
      have after := valid.step moved
      have balance := step_balance moved
      have capped := after.distinct.length_le_of_subset fun form member => inside form (after.reached form member)
      have lower : scope.length + next.queue.length - next.seen.length < rank := by omega
      exact ih _ lower after rfl

/-- A search ends with the sentences among all that can be reached. -/
theorem run_initial {scope : List (List Symbol)}
    (inside : ∀ form, Relation.ReflTransGen (Moves g bound) first form → form ∈ scope) :
    ∃ ended, run g bound (initial first) = some ended ∧ ended.queue = [] ∧ ∀ sentence, sentence ∈ ended.found ↔
      ∃ form, Relation.ReflTransGen (Moves g bound) first form ∧
        form.any Symbol.isNonterminal = false ∧ sentence = visible form := by
  obtain ⟨ended, same, empty, valid⟩ := Valid.run inside (valid_initial g bound first)
  have settled : ∀ form ∈ ended.seen, Settled g bound ended form := by
    intro form member
    refine (valid.settled form member).resolve_left ?_
    rw [empty]
    exact List.not_mem_nil
  have complete : ∀ form, Relation.ReflTransGen (Moves g bound) first form → form ∈ ended.seen := by
    intro form path
    induction path with
    | refl => exact valid.begun
    | tail _ moves ih => exact (settled _ ih).moves _ moves
  refine ⟨ended, same, empty, ?_⟩
  intro sentence
  constructor
  · intro found
    obtain ⟨form, seen, finished, rfl⟩ := valid.sentences sentence found
    exact ⟨form, valid.reached form seen, finished, rfl⟩
  · intro meant
    obtain ⟨form, path, finished, rfl⟩ := meant
    exact (settled form (complete form path)).finds finished

end Search

end TopDownGrammar
