import TopDownGrammar.Factoring
import TopDownGrammar.Proofs.ClosureSets
import TopDownGrammar.Proofs.FirstSets

/-! Head sets hold what can come to stand in front of a nonterminal's derivations, in a grammar where
every alternative with the empty string in front may also vanish. For the grammar itself they are
exact if and only if the owners of such alternatives can vanish anyway. A nonterminal with an
alternative that begins with itself always counts as left recursive. -/

namespace TopDownGrammar

variable {heads : SetFamily} {form : List Symbol} {alternative : Alternative} {shown : Symbol}

/-- What a symbol shows under given head sets. A nonterminal shows itself. -/
def headFront (heads : SetFamily) : Symbol → Symbol → Prop
  | .nonterminal name, shown => shown = .nonterminal name ∨ shown ∈ heads.get name
  | .epsilon, shown => shown = .epsilon
  | _, _ => False

private theorem mem_headsOf : shown ∈ headsOf heads form ↔ Shows (headFront heads) form shown := by
  induction form with
  | nil => exact SymbolSet.mem_singleton
  | cons symbol rest ih =>
    cases symbol with
    | nonterminal name =>
      have itself : shown = .nonterminal name → shown ≠ .epsilon := fun same => by simp [same]
      simp only [headsOf, Shows, headFront, SetFamily.get, reduceCtorEq, false_or]
      cases heads.get? name with
      | none => simpa using itself
      | some set =>
        rw [Option.getD_some, SymbolSet.mem_insert, mem_ite_epsilon, ih]
        tauto
    | epsilon => simp [headsOf, Shows, headFront, ih]
    | _ => simp [headsOf, Shows, headFront]

theorem mem_alternativeHeads : shown ∈ alternativeHeads heads alternative ↔
    Shows (headFront heads) alternative shown ∨ alternative.head? = some .epsilon ∧ shown = .epsilon := by
  unfold alternativeHeads
  split
  next front => rw [SymbolSet.mem_insert, mem_headsOf, and_iff_right front, or_comm]
  next other => rw [mem_headsOf, or_iff_left fun both => other both.1]

private theorem origin_head (shows : Shows (headFront heads) form shown) :
    shown = .epsilon ∨ shown ∈ form ∧ shown.isNonterminal = true ∨ ∃ name, shown ∈ heads.get name := by
  rcases shows.origin with vanishes | ⟨symbol, member, here⟩
  · exact Or.inl vanishes
  · cases symbol with
    | nonterminal name =>
      rcases here with rfl | known
      · exact Or.inr (Or.inl ⟨member, rfl⟩)
      · exact Or.inr (Or.inr ⟨name, known⟩)
    | epsilon => exact Or.inl here
    | _ => exact here.elim

namespace Grammar

variable {g h : Grammar} {name front : Name} {rest : List Symbol}

/-- What the head set of a nonterminal is to hold: the nonterminals that stand in front after one
step or more, and the empty string if the nonterminal can vanish. -/
def HeadedBy (g : Grammar) (name : Name) : Symbol → Prop
  | .nonterminal head => ∃ form rest, g.Step [.nonterminal name] form ∧ g.Derives form (.nonterminal head :: rest)
  | .epsilon => g.Derives [.nonterminal name] []
  | _ => False

theorem headedBy_iff : g.HeadedBy name shown ↔ (shown.isNonterminal = true ∨ shown = .epsilon) ∧
    ∃ alternative ∈ g.alternatives name, g.Leading (visible alternative) shown := by
  cases shown with
  | nonterminal head => simp [HeadedBy, Leading, Symbol.isNonterminal, step_nonterminal]
  | epsilon =>
    simp only [HeadedBy, leading_epsilon, Symbol.isNonterminal, or_true, true_and]
    constructor
    · intro vanishes
      cases vanishes with
      | step step more =>
        obtain ⟨alternative, owned, rfl⟩ := step_nonterminal.mp step
        exact ⟨alternative, owned, more⟩
    · intro found
      obtain ⟨alternative, owned, more⟩ := found
      exact (derives_alternative owned).trans more
  | _ => simp [HeadedBy, Symbol.isNonterminal]

private theorem HeadedBy.leading (headed : g.HeadedBy name shown) : g.Leading [.nonterminal name] shown := by
  obtain ⟨_, alternative, owned, leading⟩ := headedBy_iff.mp headed
  exact leading.after (derives_alternative owned)

theorem growHeads_draws (g : Grammar) :
    SetFamily.Draws g.nonterminals
      (fun heads name shown => ∃ alternative ∈ g.alternatives name, shown ∈ alternativeHeads heads alternative)
      g.growHeads where
  keyed _ := SetFamily.keyed_tabulate _ _
  mem heads name listed shown := by simp only [growHeads, SetFamily.get_tabulate listed, mem_foldl_union]

theorem heads_keyed (g : Grammar) : g.heads.Keyed g.nonterminals :=
  g.growHeads_draws.settle_keyed (SetFamily.keyed_tabulate _ _)

theorem heads_closed (owned : alternative ∈ g.alternatives name)
    (drawn : shown ∈ alternativeHeads g.heads alternative) : shown ∈ g.heads.get name := by
  refine g.growHeads_draws.settle_closed (.epsilon :: g.occurrences) (SetFamily.keyed_tabulate _ _) ?_ ?_ ?_
    (mem_nonterminals_of_alternative owned) ⟨alternative, owned, drawn⟩
  · exact fun name shown member => absurd member SetFamily.not_mem_tabulate_empty
  · intro heads inside name shown drawn
    obtain ⟨alternative, owned, member⟩ := drawn
    rcases mem_alternativeHeads.mp member with shows | ⟨_, vanishes⟩
    · rcases origin_head shows with vanishes | ⟨occurs, _⟩ | ⟨other, known⟩
      · exact List.mem_cons.mpr (Or.inl vanishes)
      · exact List.mem_cons_of_mem _ (mem_occurrences owned occurs)
      · exact inside other shown known
    · exact List.mem_cons.mpr (Or.inl vanishes)
  · simp [nonterminals]

theorem mem_heads_of_shows (owned : alternative ∈ g.alternatives name)
    (shows : Shows (headFront g.heads) alternative shown) : shown ∈ g.heads.get name :=
  heads_closed owned (mem_alternativeHeads.mpr (Or.inl shows))

/-- The head sets hold no more than what derivations bring to the front, in any grammar with the same
alternatives where the owners of those with the empty string in front can vanish. -/
theorem headedBy_of_mem_heads
    (kept : ∀ name, ∀ alternative ∈ g.alternatives name, alternative ∈ h.alternatives name)
    (vanish : ∀ name, ∀ alternative ∈ g.alternatives name, alternative.head? = some .epsilon →
      h.Derives [.nonterminal name] []) :
    ∀ name, ∀ shown ∈ g.heads.get name, h.HeadedBy name shown := by
  refine g.growHeads_draws.settle_induction h.HeadedBy ?_ ?_
  · exact fun name shown member => absurd member SetFamily.not_mem_tabulate_empty
  · intro heads known name shown drawn
    obtain ⟨alternative, owned, member⟩ := drawn
    rcases mem_alternativeHeads.mp member with shows | ⟨front, rfl⟩
    · refine headedBy_iff.mpr ⟨?_, alternative, kept name alternative owned, leading_of_shows ?_ shows⟩
      · rcases origin_head shows with vanishes | ⟨_, kind⟩ | ⟨other, old⟩
        · exact Or.inr vanishes
        · exact Or.inl kind
        · exact (headedBy_iff.mp (known other shown old)).1
      · intro symbol _ shown here
        cases symbol with
        | nonterminal other =>
          rcases here with rfl | old
          · exact leading_self _
          · exact (known other shown old).leading
        | epsilon => exact here ▸ leading_self _
        | _ => exact here.elim
    · exact vanish name alternative owned front

/-- They hold no less either, in any grammar whose alternatives show only what is in them. -/
theorem mem_heads_of_headedBy
    (shown_in : ∀ name, ∀ alternative ∈ h.alternatives name, ∀ shown,
      Shows (headFront g.heads) alternative shown → shown ∈ g.heads.get name)
    (headed : h.HeadedBy name shown) : shown ∈ g.heads.get name := by
  have covers : h.Covers (headFront g.heads) :=
    ⟨fun _ => Iff.rfl, fun name alternative owned shown shows => Or.inr (shown_in name alternative owned shown shows)⟩
  obtain ⟨kind, alternative, owned, leading⟩ := headedBy_iff.mp headed
  refine shown_in name alternative owned shown (covers.shows_of_leading ?_ leading)
  intro _
  cases shown with
  | nonterminal head => exact Or.inl rfl
  | _ => simp_all [Symbol.isNonterminal]

private theorem front_mem_heads (owned : .nonterminal front :: rest ∈ g.alternatives name) :
    .nonterminal front ∈ g.heads.get name :=
  mem_heads_of_shows owned (Or.inl ⟨Or.inl rfl, by simp⟩)

theorem isExpandable_iff (listed : front ∈ g.nonterminals) :
    isExpandable g.heads (.nonterminal front :: rest) = true ↔ .nonterminal front ∉ g.heads.get front := by
  simp [isExpandable, g.heads_keyed.get? listed]

theorem front_ne_of_expandable (expandable : isExpandable g.heads (.nonterminal front :: rest) = true)
    (owned : .nonterminal front :: rest ∈ g.alternatives name) : front ≠ name := by
  intro same
  subst same
  exact (isExpandable_iff (mem_nonterminals_of_alternative owned)).mp expandable (front_mem_heads owned)

/-- The grammar in which an alternative with the empty string in front may vanish as a whole. -/
def loosened (g : Grammar) : Grammar :=
  .ofProductions g.start (g.productions.flatMap fun production =>
    if production.rhs.head? = some .epsilon then [production, ⟨production.lhs, [.epsilon]⟩] else [production])

private theorem mem_alternatives_loosened (once : g.nonterminals.Nodup) : alternative ∈ g.loosened.alternatives name ↔
    alternative ∈ g.alternatives name ∨
      alternative = [.epsilon] ∧ ∃ other ∈ g.alternatives name, other.head? = some .epsilon := by
  rw [loosened, mem_alternatives_ofProductions, List.mem_flatMap]
  constructor
  · intro found
    obtain ⟨⟨owner, body⟩, listed, inside⟩ := found
    have owned := (mem_alternatives once).mpr listed
    split at inside
    next front =>
      simp only [List.mem_cons, Production.mk.injEq, List.not_mem_nil, or_false] at inside
      obtain ⟨rfl, rfl⟩ | ⟨rfl, rfl⟩ := inside
      · exact Or.inl owned
      · exact Or.inr ⟨rfl, body, owned, front⟩
    next =>
      obtain ⟨rfl, rfl⟩ := Production.mk.inj (List.mem_singleton.mp inside)
      exact Or.inl owned
  · intro found
    rcases found with owned | ⟨rfl, other, owned, front⟩
    · refine ⟨_, production_of_alternative owned, ?_⟩
      split <;> simp
    · exact ⟨_, production_of_alternative owned, by simp [front]⟩

private theorem mem_heads_loosened (once : g.nonterminals.Nodup) :
    shown ∈ g.heads.get name ↔ g.loosened.HeadedBy name shown := by
  constructor
  · refine headedBy_of_mem_heads ?_ ?_ name shown
    · exact fun name alternative owned => (mem_alternatives_loosened once).mpr (Or.inl owned)
    · intro name alternative owned front
      exact derives_alternative ((mem_alternatives_loosened once).mpr (Or.inr ⟨rfl, alternative, owned, front⟩))
  · refine mem_heads_of_headedBy ?_
    intro name alternative held shown shows
    rcases (mem_alternatives_loosened once).mp held with owned | ⟨rfl, other, owned, front⟩
    · exact mem_heads_of_shows owned shows
    · rw [shows_singleton] at shows
      exact heads_closed owned (mem_alternativeHeads.mpr (Or.inr ⟨front, shows⟩))

private theorem epsilon_mem_heads (owned : alternative ∈ g.alternatives name) (front : alternative.head? = some .epsilon) :
    .epsilon ∈ g.heads.get name :=
  heads_closed owned (mem_alternativeHeads.mpr (Or.inr ⟨front, rfl⟩))

theorem derives_nil_iff (wellFormed : g.WellFormed) :
    .nonterminal name ∈ g.nullable ↔ g.Derives [.nonterminal name] [] := by
  rw [nonterminal_mem_nullable wellFormed, mem_language, Generates]
  exact and_iff_right rfl

/-- The head sets are those of the loosened grammar. FIRST and the nullable set agree on which
nonterminals can vanish, and the head sets agree with them, and with all derivations, if and only if
no alternative with the empty string in front belongs to a nonterminal that cannot vanish. -/
theorem heads_exact_iff (wellFormed : g.WellFormed) :
    g.heads.keys = g.nonterminals ∧
    (∀ name ∈ g.nonterminals, ∃ set, g.heads.get? name = some set ∧
      ∀ symbol, symbol ∈ set ↔ g.loosened.HeadedBy name symbol) ∧
    (∀ name ∈ g.nonterminals, (.nonterminal name ∈ g.nullable ↔ g.Derives [.nonterminal name] []) ∧
      (.epsilon ∈ g.first.get name ↔ g.Derives [.nonterminal name] [])) ∧
    ((∀ name ∈ g.nonterminals, ∀ symbol, symbol ∈ g.heads.get name ↔ g.HeadedBy name symbol) ↔
      ∀ production ∈ g.productions, production.rhs.head? = some .epsilon →
        .nonterminal production.lhs ∈ g.nullable) := by
  refine ⟨g.heads_keyed.keys, ?_, ?_, ?_, ?_⟩
  · intro name listed
    exact ⟨_, g.heads_keyed.get? listed, fun _ => mem_heads_loosened wellFormed.once⟩
  · intro name _
    exact ⟨derives_nil_iff wellFormed, mem_first wellFormed⟩
  · intro exact production listed front
    have owned := (mem_alternatives wellFormed.once).mpr listed
    rw [derives_nil_iff wellFormed]
    exact (exact _ (mem_nonterminals_of_alternative owned) .epsilon).mp (epsilon_mem_heads owned front)
  · intro vanishing name _ symbol
    constructor
    · refine headedBy_of_mem_heads (fun _ _ owned => owned) ?_ name symbol
      intro owner alternative owned front
      exact (derives_nil_iff wellFormed).mp (vanishing _ (production_of_alternative owned) front)
    · refine mem_heads_of_headedBy ?_
      exact fun owner alternative owned shown shows => heads_closed owned (mem_alternativeHeads.mpr (Or.inl shows))

def leftmost : Grammar :=
  ⟨"S", [⟨"S", [[.nonterminal "A", .nonterminal "B", .nonterminal "S"], [.terminal "s"]]⟩,
    ⟨"A", [[.epsilon, .nonterminal "C"], [.epsilon]]⟩,
    ⟨"B", [[.nonterminal "A", .nonterminal "A"], [.nonterminal "Z", .nonterminal "C"]]⟩]⟩

theorem leftmost_heads :
    leftmost.WellFormed ∧ leftmost.HeadedBy "S" (.nonterminal "S") ∧ leftmost.HeadedBy "B" (.nonterminal "C") ∧
      ¬leftmost.HeadedBy "S" .epsilon := by
  have wellFormed : leftmost.WellFormed := by decide
  have exact := (heads_exact_iff wellFormed).2.2.2.mpr (by decide +kernel)
  have ownS : .nonterminal "S" ∈ leftmost.heads.get "S" := by decide +kernel
  have inB : .nonterminal "C" ∈ leftmost.heads.get "B" := by decide +kernel
  have solid : .epsilon ∉ leftmost.heads.get "S" := by decide +kernel
  exact ⟨wellFormed, (exact "S" (by decide) _).mp ownS, (exact "B" (by decide) _).mp inB,
    mt (exact "S" (by decide) _).mpr solid⟩

def disguised : Grammar :=
  ⟨"S", [⟨"S", [[.nonterminal "A", .nonterminal "B"]]⟩, ⟨"A", [[.epsilon, .terminal "a"]]⟩,
    ⟨"B", [[.terminal "b"]]⟩]⟩

/-- Head sets are not exact where the empty string stands in front of a terminal. -/
theorem disguised_heads_inexact : disguised.WellFormed ∧
    ¬∀ name ∈ disguised.nonterminals, ∀ symbol, symbol ∈ disguised.heads.get name ↔ disguised.HeadedBy name symbol := by
  have wellFormed : disguised.WellFormed := by decide
  refine ⟨wellFormed, fun exact => ?_⟩
  have vanishes : .epsilon ∈ disguised.heads.get "A" := by decide +kernel
  have stays : .nonterminal "A" ∉ disguised.nullable := by decide +kernel
  exact stays ((derives_nil_iff wellFormed).mpr ((exact "A" (by decide) .epsilon).mp vanishes))

end Grammar

end TopDownGrammar
