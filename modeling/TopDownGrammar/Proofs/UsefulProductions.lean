import TopDownGrammar.Proofs.UsefulSymbols

/-! What is left of a grammar without useless symbols. Every derivation of a sentence from the start meets
productive nonterminals only, so the productions that it takes part in are kept. In what is kept everything that
the start derives goes on to a sentence, so nothing useless is left and nothing useful is missing. -/

namespace TopDownGrammar.Grammar

variable {g h : Grammar} {name : Name} {alternative : Alternative} {form first last : List Symbol}

/-- The nonterminal stands in a sequence on the way from the start to a sentence. -/
def Useful (g : Grammar) (name : Name) : Prop :=
  ∃ before after sentence, g.Derives [.nonterminal g.start] (before ++ .nonterminal name :: after) ∧
    g.Derives (before ++ .nonterminal name :: after) sentence ∧ sentence.all Symbol.isTerminal = true

/-- The production is applied on the way from the start to a sentence. -/
def TakesPart (g : Grammar) (name : Name) (alternative : Alternative) : Prop :=
  alternative ∈ g.alternatives name ∧ ∃ before after sentence,
    g.Derives [.nonterminal g.start] (before ++ .nonterminal name :: after) ∧
      g.Derives (visible (before ++ alternative ++ after)) sentence ∧ sentence.all Symbol.isTerminal = true

noncomputable instance (g : Grammar) (name : Name) : DecidablePred (g.TakesPart name) :=
  fun _ => Classical.propDecidable _

theorem Derives.mono (kept : ∀ name, ∀ alternative ∈ g.alternatives name, alternative ∈ h.alternatives name)
    (derives : g.Derives first last) : h.Derives first last := by
  induction derives with
  | refl => exact .refl _
  | step step _ ih =>
    cases step with
    | replace before after owned => exact .step (.replace before after (kept _ _ owned)) ih

/-- What leads to productive nonterminals only has met no others. -/
theorem Derives.productiveOnly (once : g.nonterminals.Nodup) (fertile : .nonterminal g.start ∈ g.productive)
    (derives : g.Derives first last) (ended : allProductive g.productive last = true) :
    allProductive g.productive first = true ∧ g.productiveOnly.Derives first last := by
  induction derives with
  | refl => exact ⟨ended, .refl _⟩
  | step step _ ih =>
    obtain ⟨later, kept⟩ := ih ended
    cases step with
    | @replace before after name alternative owned =>
      have met : ∀ inner, .nonterminal inner ∈ before ++ alternative ++ after → .nonterminal inner ∈ g.productive :=
        fun inner member => allProductive_iff.mp later inner (mem_visible.mpr ⟨member, by simp⟩)
      have own : allProductive g.productive alternative = true :=
        allProductive_iff.mpr fun inner inside => met inner (by simp [inside])
      have stays := (mem_alternatives_productiveOnly fertile once).mpr ⟨owned, own⟩
      refine ⟨allProductive_iff.mpr ?_, .step (.replace before after stays) kept⟩
      intro inner member
      rcases List.mem_append.mp member with earlier | here
      · exact met inner (by simp [earlier])
      · rcases List.mem_cons.mp here with same | behind
        · exact same ▸ productive_closed owned own
        · exact met inner (by simp [behind])

private theorem allProductive_of_terminals (terminals : form.all Symbol.isTerminal = true) :
    allProductive g.productive form = true := by
  refine allProductive_iff.mpr fun inner member => ?_
  cases List.all_eq_true.mp terminals _ member

theorem leads_of_derives {before after : List Symbol} (once : g.nonterminals.Nodup)
    (derives : g.Derives [.nonterminal g.start] (before ++ .nonterminal name :: after)) :
    Relation.ReflTransGen g.Leads g.start name :=
  (nonterminal_mem_reachable once).mp (reachable_of_derives derives _ (by simp))

section Pruned

variable (wellFormed : g.WellFormed)

include wellFormed

private theorem alternatives_reachableOnly (name : Name) :
    g.reachableOnly.alternatives name =
      (g.alternatives name).filter fun _ => decide (.nonterminal name ∈ g.reachable) :=
  alternatives_filter wellFormed.owned wellFormed.once _ _ name

variable (fertile : .nonterminal g.start ∈ g.productive)

include fertile

private theorem alternatives_usefulOnly (name : Name) :
    g.usefulOnly.alternatives name = (g.alternatives name).filter fun alternative =>
      allProductive g.productive alternative && decide (.nonterminal name ∈ g.productiveOnly.reachable) := by
  rw [usefulOnly, alternatives_reachableOnly (wellFormed_productiveOnly wellFormed), productiveOnly_of_fertile fertile,
    alternatives_filter wellFormed.owned wellFormed.once, List.filter_filter]
  simp only [Bool.and_comm]

theorem TakesPart.kept (takesPart : g.TakesPart name alternative) : alternative ∈ g.usefulOnly.alternatives name := by
  obtain ⟨owned, before, after, sentence, reached, derives, terminals⟩ := takesPart
  have once := wellFormed.once
  have ended : allProductive g.productive sentence = true := allProductive_of_terminals terminals
  have applied := (derives.productiveOnly once fertile ended).1
  have whole := Derives.step (.replace before after owned) derives
  have met := (whole.productiveOnly once fertile ended).1
  have reachedOnly := (reached.productiveOnly once fertile met).2
  rw [← start_productiveOnly g] at reachedOnly
  refine (mem_alternatives_usefulOnly wellFormed fertile).mpr ⟨owned, ?_, ?_⟩
  · exact allProductive_iff.mpr fun inner inside =>
      allProductive_iff.mp applied inner (mem_visible.mpr ⟨by simp [inside], by simp⟩)
  · have leads := leads_of_derives (wellFormed_productiveOnly wellFormed).once reachedOnly
    rwa [start_productiveOnly] at leads

theorem exists_sentence_of_derives (derives : g.usefulOnly.Derives [.nonterminal g.start] form) :
    ∃ sentence, g.usefulOnly.Derives (visible form) sentence ∧ sentence.all Symbol.isTerminal = true := by
  have useful := wellFormed_usefulOnly wellFormed
  have origin : ∀ symbol ∈ form, symbol = .nonterminal g.start ∨
      ∃ owner, ∃ alternative ∈ g.usefulOnly.alternatives owner, symbol ∈ alternative := by
    intro symbol member
    rw [← start_usefulOnly g] at derives
    rcases (mem_reachable useful.once symbol).mp (reachable_of_derives derives symbol member) with start | found
    · exact Or.inl (start.trans (congrArg _ (start_usefulOnly g)))
    · obtain ⟨owner, alternative, owned, _, inside⟩ := found
      exact Or.inr ⟨owner, alternative, owned, inside⟩
  have readable : ∃ sentence, sentence ∈ reading g.usefulOnly.language form := by
    apply reading_nonempty
    · intro marked
      rcases origin _ marked with same | ⟨owner, alternative, owned, inside⟩
      · cases same
      · exact useful.unmarked owned inside
    · intro inner member
      rcases origin _ member with same | ⟨owner, alternative, owned, inside⟩
      · rw [Symbol.nonterminal.inj same, language_usefulOnly_start wellFormed]
        exact (nonterminal_mem_productive wellFormed).mp fertile
      · exact nonempty_of_occurs wellFormed fertile (Or.inr ⟨owner, alternative, owned, inside⟩)
  obtain ⟨sentence, read⟩ := readable
  obtain ⟨terminals, goesOn⟩ := mem_reading_iff.mp read
  exact ⟨sentence, goesOn, terminals⟩

private theorem useful_of_occurs (occurs : g.usefulOnly.Occurs name) : g.usefulOnly.Useful name := by
  obtain ⟨before, after, plainBefore, plainAfter, derives⟩ := derives_of_leads (leads_of_occurs wellFormed occurs)
  obtain ⟨sentence, goesOn, terminals⟩ := exists_sentence_of_derives wellFormed fertile derives
  rw [visible_of_plain (by simp [plainBefore, plainAfter])] at goesOn
  refine ⟨before, after, sentence, ?_, goesOn, terminals⟩
  rwa [start_usefulOnly]

private theorem takesPart_of_kept (kept : alternative ∈ g.usefulOnly.alternatives name) : g.TakesPart name alternative := by
  have within : ∀ name, ∀ alternative ∈ g.usefulOnly.alternatives name, alternative ∈ g.alternatives name :=
    fun name alternative owned => ((mem_alternatives_usefulOnly wellFormed fertile).mp owned).1
  obtain ⟨before, after, _, _, derives⟩ :=
    derives_of_leads (leads_of_occurs wellFormed (Or.inl (mem_nonterminals_of_alternative kept)))
  obtain ⟨sentence, goesOn, terminals⟩ := exists_sentence_of_derives wellFormed fertile
    (derives.trans (.step (.replace before after kept) (.refl _)))
  rw [visible_visible] at goesOn
  exact ⟨within name alternative kept, before, after, sentence, derives.mono within, goesOn.mono within, terminals⟩

/-- The productions that are kept are those that take part, in their order. -/
theorem alternatives_usefulOnly_eq (name : Name) :
    g.usefulOnly.alternatives name = (g.alternatives name).filter (g.TakesPart name ·) := by
  have kept := alternatives_usefulOnly wellFormed fertile name
  rw [kept]
  refine List.filter_congr fun alternative owned => ?_
  rw [Bool.eq_iff_iff, decide_eq_true_iff]
  constructor
  · intro passed
    apply takesPart_of_kept wellFormed fertile
    rw [kept]
    exact List.mem_filter.mpr ⟨owned, passed⟩
  · intro takesPart
    have member := takesPart.kept wellFormed fertile
    rw [kept] at member
    exact (List.mem_filter.mp member).2

end Pruned

/-- Taking out unproductive symbols, unreachable ones or both keeps the start and the sentences. If there are any
sentences, taking out both keeps exactly the productions that take part in one, and all nonterminals left are
useful. If there are none, the start is left to replace itself. -/
theorem usefulOnly_exact (wellFormed : g.WellFormed) :
    (∀ pruned ∈ [g.productiveOnly, g.reachableOnly, g.usefulOnly], pruned.start = g.start ∧
      ∀ sentence, pruned.Generates pruned.start sentence ↔ g.Generates g.start sentence) ∧
    ((∃ sentence, g.Generates g.start sentence) →
      (∀ name, g.usefulOnly.Occurs name → g.usefulOnly.Useful name) ∧
      ∀ name, g.usefulOnly.alternatives name = (g.alternatives name).filter (g.TakesPart name ·)) ∧
    ((¬∃ sentence, g.Generates g.start sentence) →
      g.usefulOnly = ⟨g.start, [⟨g.start, [[.nonterminal g.start]]⟩]⟩) := by
  refine ⟨?_, ?_, ?_⟩
  · have keeps : ∀ pruned : Grammar, pruned.start = g.start → pruned.language g.start = g.language g.start →
        pruned.start = g.start ∧ ∀ sentence, pruned.Generates pruned.start sentence ↔ g.Generates g.start sentence := by
      intro pruned start same
      refine ⟨start, fun sentence => ?_⟩
      rw [start, ← mem_language, same, mem_language]
    intro pruned member
    simp only [List.mem_cons, List.not_mem_nil, or_false] at member
    rcases member with rfl | rfl | rfl
    · exact keeps _ (start_productiveOnly g) (language_productiveOnly_start wellFormed)
    · exact keeps _ rfl (language_reachableOnly wellFormed.once .refl)
    · exact keeps _ (start_usefulOnly g) (language_usefulOnly_start wellFormed)
  · intro nonempty
    have fertile := (nonterminal_mem_productive wellFormed).mpr nonempty
    exact ⟨fun name => useful_of_occurs wellFormed fertile, alternatives_usefulOnly_eq wellFormed fertile⟩
  · intro barren
    rw [usefulOnly_of_barren (mt (nonterminal_mem_productive wellFormed).mp barren), idle_eq]

/-- `C` is unproductive, and without it nothing leads to `A`. -/
def overgrown : Grammar :=
  ⟨"S", [⟨"S", [[.nonterminal "A", .nonterminal "C"], [.terminal "a", .nonterminal "B"], [.terminal "a", .nonterminal "B"]]⟩,
    ⟨"A", [[.terminal "a"]]⟩, ⟨"B", [[.terminal "b", .nonterminal "Z"], [.epsilon]]⟩,
    ⟨"C", [[.nonterminal "C", .terminal "c"]]⟩]⟩

theorem overgrown_usefulOnly :
    overgrown.WellFormed ∧ overgrown.usefulOnly.Generates "S" [.terminal "a"] ∧ overgrown.usefulOnly.Useful "B" ∧
      overgrown.TakesPart "S" [.terminal "a", .nonterminal "B"] ∧ ¬overgrown.TakesPart "A" [.terminal "a"] := by
  have wellFormed : overgrown.WellFormed := by decide
  obtain ⟨pruned, nonempty, _⟩ := usefulOnly_exact wellFormed
  have throughB : overgrown.Derives [.terminal "a", .nonterminal "B"] [.terminal "a"] :=
    .step (.replace [.terminal "a"] [] (by decide : [.epsilon] ∈ overgrown.alternatives "B")) (.refl _)
  have generates : overgrown.Generates "S" [.terminal "a"] :=
    ⟨rfl, .step (.replace [] [] (by decide : [.terminal "a", .nonterminal "B"] ∈ overgrown.alternatives "S")) throughB⟩
  obtain ⟨useful, kept⟩ := nonempty ⟨_, generates⟩
  have left : [.terminal "a", .nonterminal "B"] ∈ overgrown.usefulOnly.alternatives "S" := by decide +kernel
  have gone : overgrown.usefulOnly.alternatives "A" = [] := by decide +kernel
  refine ⟨wellFormed, ((pruned overgrown.usefulOnly (by simp)).2 _).mpr generates, ?_, ?_, ?_⟩
  · exact useful "B" (Or.inr ⟨"S", _, left, by simp⟩)
  · rw [kept "S"] at left
    exact of_decide_eq_true (List.mem_filter.mp left).2
  · intro takesPart
    have member : [.terminal "a"] ∈ (overgrown.alternatives "A").filter (overgrown.TakesPart "A" ·) :=
      List.mem_filter.mpr ⟨takesPart.1, decide_eq_true takesPart⟩
    rw [← kept "A", gone] at member
    cases member

end TopDownGrammar.Grammar
