import TopDownGrammar.Proofs.FactoringSteps
import TopDownGrammar.Proofs.HeadSets
import TopDownGrammar.Proofs.Languages

/-! Factoring keeps the language of every nonterminal. For each rewrite the languages of the old
grammar are closed for the new one and the other way around; only the fresh nonterminal, which
the old grammar does not know, gets a language of its own. -/

namespace TopDownGrammar.Grammar

variable {g next : Grammar} {conflict : Conflict} {name : Name} {alternative : Alternative}

theorem language_merge {a : Alternative} (wellFormed : g.WellFormed) (located : g.Located conflict a a) :
    (g.dropAlternative conflict.nonterminal conflict.later).language = g.language := by
  funext name
  apply le_antisymm
  · exact language_le_of_subset (fun _ _ => (mem_alternatives_merge wellFormed located).mp) name
  · exact language_le_of_subset (fun _ _ => (mem_alternatives_merge wellFormed located).mpr) name

section Factor

variable {shared : Symbol} {restA restB : List Symbol}
  (wellFormed : g.WellFormed) (located : g.Located conflict (shared :: restA) (shared :: restB))

/-- The fresh nonterminal stands for the two remainders, every other one for what it stood for. -/
private def factoredValue (g : Grammar) (fresh : Name) (restA restB : List Symbol) (name : Name) : Language Symbol :=
  if name = fresh then reading g.language restA + reading g.language restB else g.language name

private theorem factoredValue_le {fresh : Name} (form : List Symbol) (unused : .nonterminal fresh ∉ form) :
    reading (factoredValue g fresh restA restB) form ≤ reading g.language form := by
  apply reading_le
  intro name member
  have other : name ≠ fresh := fun same => unused (same ▸ member)
  exact le_of_eq (if_neg other)

private theorem factoredValue_keeps {name : Name} {alternative : Alternative}
    (other : name ≠ g.freshName conflict.nonterminal) (owned : alternative ∈ g.alternatives name) :
    reading (factoredValue g (g.freshName conflict.nonterminal) restA restB) alternative ≤
      factoredValue g (g.freshName conflict.nonterminal) restA restB name := by
  rw [factoredValue, if_neg other]
  exact (factoredValue_le alternative (freshName_not_mem_alternative _ owned)).trans (g.language_closed name alternative owned)

include located

private theorem reading_factored :
    reading (factoredValue g (g.freshName conflict.nonterminal) restA restB)
      [shared, .nonterminal (g.freshName conflict.nonterminal)] ≤ g.language conflict.nonterminal := by
  have unused := freshName_not_mem_alternative conflict.nonterminal (List.mem_of_getElem? located.earlier)
  have front : reading (factoredValue g (g.freshName conflict.nonterminal) restA restB) [shared] ≤
      reading g.language [shared] :=
    factoredValue_le [shared] fun present => unused (List.mem_cons.mpr (Or.inl (List.mem_singleton.mp present)))
  rw [reading_singleton, reading_singleton] at front
  rw [reading_cons, reading_singleton, meaning, factoredValue, if_pos rfl]
  refine (mul_le_mul' front (le_refl _)).trans ?_
  rw [mul_add, ← reading_cons, ← reading_cons]
  intro sentence either
  rcases either with left | right
  · exact g.language_closed _ _ (List.mem_of_getElem? located.earlier) left
  · exact g.language_closed _ _ (List.mem_of_getElem? located.later) right

include wellFormed

private theorem language_factorOut_le :
    (g.factorOut conflict.nonterminal conflict.earlier conflict.later shared).Closed
      (factoredValue g (g.freshName conflict.nonterminal) restA restB) := by
  have unusedA := freshName_not_mem_alternative conflict.nonterminal (List.mem_of_getElem? located.earlier)
  have unusedB := freshName_not_mem_alternative conflict.nonterminal (List.mem_of_getElem? located.later)
  intro name alternative owned
  rcases origin_factorOut wellFormed located owned with ⟨rfl, remainder⟩ | old | ⟨rfl, rfl⟩
  · rw [factoredValue, if_pos rfl]
    rcases remainder with rfl | rfl
    · rw [reading_compact]
      refine (factoredValue_le restA fun present => unusedA (List.mem_cons_of_mem _ present)).trans ?_
      exact fun sentence => Or.inl
    · rw [reading_compact]
      refine (factoredValue_le restB fun present => unusedB (List.mem_cons_of_mem _ present)).trans ?_
      exact fun sentence => Or.inr
  · exact factoredValue_keeps (ne_freshName wellFormed (mem_nonterminals_of_alternative old) _) old
  · rw [factoredValue, if_neg (fresh_ne_nonterminal wellFormed located)]
    exact reading_factored located

private theorem le_language_factorOut :
    g.Closed (g.factorOut conflict.nonterminal conflict.earlier conflict.later shared).language := by
  let result := g.factorOut conflict.nonterminal conflict.earlier conflict.later shared
  have joined : meaning result.language shared * result.language (g.freshName conflict.nonterminal) ≤
      result.language conflict.nonterminal := by
    have closed := result.language_closed _ _ (factored_mem wellFormed located)
    simpa only [reading_cons, reading_nil, mul_one, meaning] using closed
  have remainder : ∀ rest, rest = restA ∨ rest = restB →
      reading result.language (shared :: rest) ≤ result.language conflict.nonterminal := by
    intro rest either
    have closed := result.language_closed _ _ (remainder_mem wellFormed located either)
    rw [reading_compact] at closed
    rw [reading_cons]
    exact (mul_le_mul' (le_refl _) closed).trans joined
  intro name alternative owned
  rcases kept_factorOut wellFormed located owned with kept | ⟨rfl, rfl | rfl⟩
  · exact result.language_closed _ _ kept
  · exact remainder restA (Or.inl rfl)
  · exact remainder restB (Or.inr rfl)

theorem language_factorOut (known : name ≠ g.freshName conflict.nonterminal) :
    (g.factorOut conflict.nonterminal conflict.earlier conflict.later shared).language name = g.language name := by
  apply le_antisymm
  · have below := language_le (language_factorOut_le wellFormed located) name
    rwa [factoredValue, if_neg known] at below
  · exact language_le (le_language_factorOut wellFormed located) name

end Factor

private theorem reading_expandFront {expanded : Alternative} (member : expanded ∈ g.expandFront alternative) :
    reading g.language expanded ≤ reading g.language alternative := by
  rcases mem_expandFront.mp member with ⟨front, rest, body, rfl, owned, rfl⟩ | ⟨_, rfl⟩
  · rw [reading_compact, reading_append, reading_cons]
    exact mul_le_mul' (g.language_closed front body owned) (le_refl _)
  · exact le_of_eq (reading_compact _ _)

private theorem reading_expandFront_le_language (expandable : isExpandable g.heads alternative = true)
    (owned : alternative ∈ g.alternatives name)
    (unchanged : ∀ other, other ≠ name → next.alternatives other = g.alternatives other)
    (included : ∀ expanded ∈ g.expandFront alternative, reading next.language expanded ≤ next.language name) :
    reading next.language alternative ≤ next.language name := by
  unfold expandFront at included
  split at included
  next front rest =>
    have different := front_ne_of_expandable expandable owned
    rw [reading_cons]
    intro sentence read
    obtain ⟨left, generated, right, tail, rfl⟩ := Language.mem_mul.mp read
    obtain ⟨body, possessed, inner⟩ := language_unfold generated
    refine included _ (List.mem_map.mpr ⟨body, unchanged front different ▸ possessed, rfl⟩) ?_
    rw [reading_compact, reading_append]
    exact Language.append_mem_mul inner tail
  next =>
    have whole := included _ (List.mem_singleton_self _)
    rwa [reading_compact] at whole

section Expand

variable {position : Nat} (wellFormed : g.WellFormed)
  (found : (g.alternatives name)[position]? = some alternative)

include wellFormed found

theorem language_expandAt (expandable : isExpandable g.heads alternative = true) :
    (g.expandAt name position).language = g.language := by
  have owned := List.mem_of_getElem? found
  have below : (g.expandAt name position).Closed g.language := by
    intro other expanded member
    rcases origin_expandAt wellFormed found member with old | ⟨rfl, inside⟩
    · exact g.language_closed _ _ old
    · exact (reading_expandFront inside).trans (g.language_closed _ _ owned)
  have above : g.Closed (g.expandAt name position).language := by
    intro other alternative member
    rcases kept_expandAt wellFormed found member with kept | ⟨rfl, rfl⟩
    · exact language_closed _ _ _ kept
    · refine reading_expandFront_le_language expandable owned ?_ ?_
      · exact fun _ => alternatives_expandAt_of_ne wellFormed found
      · intro expanded inside
        exact language_closed _ _ _ ((mem_expandAt wellFormed found expanded).mpr (Or.inl inside))
  funext other
  exact le_antisymm (language_le below other) (language_le above other)

end Expand

/-- A nonterminal that owns rules keeps one, because a step leaves the other side of its conflict. -/
theorem Rewrites.keeps_listed (rewrites : g.Rewrites conflict next) (wellFormed : g.WellFormed)
    (listed : name ∈ g.nonterminals) : name ∈ next.nonterminals := by
  obtain ⟨alternative, owned⟩ := wellFormed.exists_alternative listed
  by_cases here : name = conflict.nonterminal
  · subst here
    cases rewrites with
    | merge located => exact mem_nonterminals_of_alternative ((mem_alternatives_merge wellFormed located).mpr owned)
    | factor visible located => exact mem_nonterminals_of_alternative (factored_mem wellFormed located)
    | @expand a b _ position other located sides found expandable =>
      rcases sides with ⟨rfl, rfl⟩ | ⟨rfl, rfl⟩
      · exact mem_nonterminals_of_alternative ((mem_expandAt wellFormed found b).mpr
          (Or.inr ⟨_, Nat.ne_of_gt located.ordered, located.later⟩))
      · exact mem_nonterminals_of_alternative ((mem_expandAt wellFormed found a).mpr
          (Or.inr ⟨_, Nat.ne_of_lt located.ordered, located.earlier⟩))
  · apply mem_nonterminals_of_alternative
    rwa [rewrites.alternatives_elsewhere wellFormed here (ne_freshName wellFormed listed _)]

private theorem Rewrites.start (rewrites : g.Rewrites conflict next) : next.start = g.start := by
  cases rewrites <;> rfl

theorem Rewrites.language (rewrites : g.Rewrites conflict next) (wellFormed : g.WellFormed)
    (known : name = g.start ∨ name ∈ g.nonterminals) : next.language name = g.language name := by
  cases rewrites with
  | merge located => rw [language_merge wellFormed located]
  | factor visible located =>
    refine language_factorOut wellFormed located ?_
    rcases known with rfl | listed
    · exact (g.freshName_ne_start _).symm
    · exact ne_freshName wellFormed listed _
  | expand located sides found expandable => rw [language_expandAt wellFormed found expandable]

theorem factorSteps_keeps {expandIndirect : Bool} (holds : Grammar → Prop)
    (kept : ∀ g next, holds g → g.factorStep? expandIndirect = some next → holds next) (budget : Nat)
    (initially : holds g) : holds (factorSteps expandIndirect budget g).grammar := by
  induction budget, g using steps_induction expandIndirect with
  | spent g => exact initially
  | stuck budget g stuck =>
    rw [factorSteps_of_stuck stuck]
    exact initially
  | step budget g next stepped ih =>
    rw [factorSteps_of_step stepped]
    exact ih (kept g next initially stepped)

/-- What factoring may not change about a grammar. -/
structure Kept (g h : Grammar) : Prop where
  wellFormed : h.WellFormed
  start : h.start = g.start
  listed : ∀ name ∈ g.nonterminals, name ∈ h.nonterminals
  language : ∀ name, name = g.start ∨ name ∈ g.nonterminals → h.language name = g.language name

theorem Kept.step {h : Grammar} (kept : g.Kept h) (rewrites : h.Rewrites conflict next) : g.Kept next := by
  refine ⟨rewrites.wellFormed kept.wellFormed, rewrites.start.trans kept.start, ?_, ?_⟩
  · exact fun name member => rewrites.keeps_listed kept.wellFormed (kept.listed name member)
  · intro name known
    have still : name = h.start ∨ name ∈ h.nonterminals :=
      known.imp (fun same => same.trans kept.start.symm) (kept.listed name)
    rw [rewrites.language kept.wellFormed still, kept.language name known]

theorem factor_kept (wellFormed : g.WellFormed) (options : FactorOptions) : g.Kept (g.factor options).grammar := by
  refine factorSteps_keeps g.Kept ?_ options.maxSteps ⟨wellFormed, rfl, fun _ => id, fun _ _ => rfl⟩
  intro h next kept stepped
  obtain ⟨conflict, _, rewrites⟩ := rewrites_of_factorStep kept.wellFormed.once stepped
  exact kept.step rewrites

/-- Factoring keeps the start and the sentences of every nonterminal that owns rules, so also the
language, whichever steps are taken and however many. -/
theorem factor_preserves_sentences (wellFormed : g.WellFormed) (options : FactorOptions) :
    (g.factor options).grammar.start = g.start ∧
      (∀ name ∈ g.nonterminals, ∀ sentence,
        (g.factor options).grammar.Generates name sentence ↔ g.Generates name sentence) ∧
      ∀ sentence, (g.factor options).grammar.Generates (g.factor options).grammar.start sentence ↔
        g.Generates g.start sentence := by
  have kept := factor_kept wellFormed options
  have same : ∀ name, name = g.start ∨ name ∈ g.nonterminals → ∀ sentence,
      (g.factor options).grammar.Generates name sentence ↔ g.Generates name sentence := by
    intro name known sentence
    rw [← mem_language, kept.language name known, mem_language]
  refine ⟨kept.start, fun name listed => same name (Or.inr listed), ?_⟩
  rw [kept.start]
  exact same g.start (Or.inl rfl)

/-- The alternatives of `S` meet only once `A` is expanded, those of `C` at once. -/
def overlapping : Grammar :=
  ⟨"S", [⟨"S", [[.nonterminal "A", .nonterminal "B"], [.nonterminal "B", .nonterminal "C"]]⟩,
    ⟨"A", [[.terminal "a", .nonterminal "A"], [.epsilon]]⟩,
    ⟨"B", [[.terminal "b", .nonterminal "B"], [.terminal "d"]]⟩,
    ⟨"C", [[.terminal "c", .nonterminal "C"], [.terminal "c"]]⟩]⟩

theorem overlapping_preserves_sentences :
    overlapping.WellFormed ∧ (overlapping.factor {}).steps = 3 ∧
      (overlapping.factor {}).grammar.start = "S" ∧
      (∀ name ∈ ["S", "A", "B", "C"], ∀ sentence,
        (overlapping.factor {}).grammar.Generates name sentence ↔ overlapping.Generates name sentence) ∧
      ∀ sentence, (overlapping.factor {}).grammar.Generates (overlapping.factor {}).grammar.start sentence ↔
        overlapping.Generates "S" sentence :=
  ⟨by decide, by decide +kernel, factor_preserves_sentences (by decide) {}⟩

end TopDownGrammar.Grammar
