import TopDownGrammar.Proofs.ClosureSets
import TopDownGrammar.Proper

/-! Taking useless symbols out of a grammar. An alternative with an unproductive nonterminal has no
sentences, and what the start does not lead to is no part of a derivation from it, so the language
stays. A grammar without sentences becomes one that visibly has none. -/

namespace TopDownGrammar.Grammar

variable {g : Grammar} {name : Name} {alternative : Alternative}

private theorem mem_alternatives_filter (once : g.nonterminals.Nodup) {start : Name} {test : Production → Bool} :
    alternative ∈ (ofProductions start (g.productions.filter test)).alternatives name ↔
      alternative ∈ g.alternatives name ∧ test ⟨name, alternative⟩ = true := by
  rw [mem_alternatives_ofProductions, List.mem_filter, mem_alternatives once]

private theorem wellFormed_filter (wellFormed : g.WellFormed) (test : Production → Bool) :
    (ofProductions g.start (g.productions.filter test)).WellFormed :=
  wellFormed_ofProductions wellFormed.start fun _ member => wellFormed.admissible (List.mem_filter.mp member).1

/-- The grammar whose only rule replaces the start by itself. -/
def idle (start : Name) : Grammar :=
  .ofProductions start [⟨start, [.nonterminal start]⟩]

theorem productiveOnly_of_barren (barren : .nonterminal g.start ∉ g.productive) : g.productiveOnly = idle g.start :=
  if_neg barren

theorem idle_eq (start : Name) : idle start = ⟨start, [⟨start, [[.nonterminal start]]⟩]⟩ := by
  simp [idle, ofProductions, group, distinct]

theorem reachableOnly_idle (start : Name) : (idle start).reachableOnly = idle start := by
  have found : .nonterminal start ∈ (idle start).reachable := (idle start).start_mem_reachable
  have listed : (idle start).productions = [⟨start, [.nonterminal start]⟩] := by
    simp [idle_eq, productions, Rule.productions]
  have same : (idle start).start = start := rfl
  simp only [reachableOnly, listed, same, List.filter_cons, List.filter_nil, decide_eq_true found, if_true]
  rfl

theorem language_idle (start name : Name) : (idle start).language name = 0 := by
  have closed : (idle start).Closed fun _ => 0 := by
    intro name alternative owned sentence read
    obtain ⟨_, rfl⟩ := Production.mk.inj (List.mem_singleton.mp (mem_alternatives_ofProductions.mp owned))
    rwa [reading_singleton] at read
  apply le_antisymm (language_le closed name)
  exact fun sentence member => absurd member (Language.notMem_zero sentence)

theorem start_productiveOnly (g : Grammar) : g.productiveOnly.start = g.start := by
  simp only [productiveOnly]
  split <;> rfl

section Productive

variable (fertile : .nonterminal g.start ∈ g.productive)

include fertile

theorem productiveOnly_of_fertile :
    g.productiveOnly = .ofProductions g.start (g.productions.filter (allProductive g.productive ·.rhs)) :=
  if_pos fertile

/-- Nothing is taken out of a grammar where all alternatives have productive nonterminals only. -/
theorem productiveOnly_eq_self (wellFormed : g.WellFormed)
    (all : ∀ production ∈ g.productions, allProductive g.productive production.rhs = true) : g.productiveOnly = g := by
  rw [productiveOnly_of_fertile fertile, List.filter_eq_self.mpr all, ofProductions_self wellFormed.owned wellFormed.once]

theorem mem_alternatives_productiveOnly (once : g.nonterminals.Nodup) :
    alternative ∈ g.productiveOnly.alternatives name ↔
      alternative ∈ g.alternatives name ∧ allProductive g.productive alternative = true := by
  rw [productiveOnly_of_fertile fertile, mem_alternatives_filter once]

theorem language_productiveOnly (wellFormed : g.WellFormed) (name : Name) :
    g.productiveOnly.language name = g.language name := by
  have below : ∀ name, g.productiveOnly.language name ≤ g.language name :=
    language_le_of_subset fun name alternative owned =>
      ((mem_alternatives_productiveOnly fertile wellFormed.once).mp owned).1
  apply le_antisymm (below name)
  apply language_le
  intro name alternative owned sentence read
  refine language_closed _ name alternative ?_ read
  refine (mem_alternatives_productiveOnly fertile wellFormed.once).mpr ⟨owned, allProductive_iff.mpr ?_⟩
  intro inner inside
  apply Classical.byContradiction
  intro unproductive
  refine not_mem_reading (fun word generates => unproductive ?_) inside read
  exact (nonterminal_mem_productive wellFormed).mpr ⟨word, below inner generates⟩

end Productive

theorem language_productiveOnly_start (wellFormed : g.WellFormed) :
    g.productiveOnly.language g.start = g.language g.start := by
  by_cases fertile : .nonterminal g.start ∈ g.productive
  · exact language_productiveOnly fertile wellFormed g.start
  · rw [productiveOnly_of_barren fertile, language_idle]
    apply le_antisymm
    · exact fun sentence member => absurd member (Language.notMem_zero sentence)
    · intro sentence generates
      exact absurd ((nonterminal_mem_productive wellFormed).mpr ⟨sentence, generates⟩) fertile

theorem wellFormed_productiveOnly (wellFormed : g.WellFormed) : g.productiveOnly.WellFormed := by
  by_cases fertile : .nonterminal g.start ∈ g.productive
  · rw [productiveOnly_of_fertile fertile]
    exact wellFormed_filter wellFormed _
  · rw [productiveOnly_of_barren fertile]
    refine wellFormed_ofProductions wellFormed.start ?_
    intro production member
    obtain rfl := List.mem_singleton.mp member
    exact ⟨wellFormed.start, by simp [Symbol.check, wellFormed.start], by simp⟩

private theorem nodup_productions_productiveOnly (once : g.productions.Nodup) : g.productiveOnly.productions.Nodup := by
  simp only [productiveOnly]
  split
  · exact nodup_productions_ofProductions _ (once.filter _)
  · exact nodup_productions_ofProductions _ (List.nodup_singleton _)

theorem wellFormed_reachableOnly (wellFormed : g.WellFormed) : g.reachableOnly.WellFormed :=
  wellFormed_filter wellFormed _

private theorem nodup_productions_reachableOnly (once : g.productions.Nodup) : g.reachableOnly.productions.Nodup :=
  nodup_productions_ofProductions _ (once.filter _)

/-- Nothing is taken out of a grammar where all nonterminals that own rules are reachable. -/
theorem reachableOnly_eq_self (wellFormed : g.WellFormed) (all : ∀ name ∈ g.nonterminals, .nonterminal name ∈ g.reachable) :
    g.reachableOnly = g := by
  have kept : g.productions.filter (.nonterminal ·.lhs ∈ g.reachable) = g.productions :=
    List.filter_eq_self.mpr fun production member => decide_eq_true (all _ (lhs_mem_nonterminals member))
  simp only [reachableOnly, kept, ofProductions_self wellFormed.owned wellFormed.once]

section Reachable

variable (once : g.nonterminals.Nodup)

include once

theorem mem_alternatives_reachableOnly :
    alternative ∈ g.reachableOnly.alternatives name ↔
      alternative ∈ g.alternatives name ∧ Relation.ReflTransGen g.Leads g.start name := by
  rw [← nonterminal_mem_reachable once]
  simp only [reachableOnly, mem_alternatives_filter once, decide_eq_true_eq]

theorem leads_reachableOnly (path : Relation.ReflTransGen g.Leads g.start name) :
    Relation.ReflTransGen g.reachableOnly.Leads g.start name := by
  induction path with
  | refl => exact .refl
  | tail earlier leads ih =>
    obtain ⟨alternative, owned, inside⟩ := leads
    exact ih.tail ⟨alternative, (mem_alternatives_reachableOnly once).mpr ⟨owned, earlier⟩, inside⟩

theorem language_reachableOnly (path : Relation.ReflTransGen g.Leads g.start name) :
    g.reachableOnly.language name = g.language name := by
  apply le_antisymm
  · exact language_le_of_subset (fun name alternative owned => ((mem_alternatives_reachableOnly once).mp owned).1) name
  · let value : Name → Language Symbol := fun name =>
      {sentence | Relation.ReflTransGen g.Leads g.start name → sentence ∈ g.reachableOnly.language name}
    have closed : g.Closed value := by
      intro name alternative owned sentence read path
      apply language_closed _ name alternative ((mem_alternatives_reachableOnly once).mpr ⟨owned, path⟩)
      refine reading_le ?_ read
      intro inner inside word member
      exact member (path.tail ⟨alternative, owned, inside⟩)
    exact fun sentence generates => language_le closed name generates path

end Reachable

def Occurs (g : Grammar) (name : Name) : Prop :=
  name ∈ g.nonterminals ∨ ∃ other, ∃ alternative ∈ g.alternatives other, .nonterminal name ∈ alternative

theorem wellFormed_usefulOnly (wellFormed : g.WellFormed) : g.usefulOnly.WellFormed :=
  wellFormed_reachableOnly (wellFormed_productiveOnly wellFormed)

theorem start_usefulOnly (g : Grammar) : g.usefulOnly.start = g.start :=
  start_productiveOnly g

theorem nodup_productions_usefulOnly (once : g.productions.Nodup) : g.usefulOnly.productions.Nodup :=
  nodup_productions_reachableOnly (nodup_productions_productiveOnly once)

theorem language_usefulOnly_start (wellFormed : g.WellFormed) : g.usefulOnly.language g.start = g.language g.start := by
  rw [← language_productiveOnly_start wellFormed, usefulOnly]
  apply language_reachableOnly (wellFormed_productiveOnly wellFormed).once
  rw [start_productiveOnly]

theorem usefulOnly_of_barren (barren : .nonterminal g.start ∉ g.productive) : g.usefulOnly = idle g.start := by
  rw [usefulOnly, productiveOnly_of_barren barren, reachableOnly_idle]

theorem mem_alternatives_usefulOnly (wellFormed : g.WellFormed) (fertile : .nonterminal g.start ∈ g.productive) :
    alternative ∈ g.usefulOnly.alternatives name ↔
      alternative ∈ g.alternatives name ∧ allProductive g.productive alternative = true ∧
        Relation.ReflTransGen g.productiveOnly.Leads g.start name := by
  rw [usefulOnly, mem_alternatives_reachableOnly (wellFormed_productiveOnly wellFormed).once,
    mem_alternatives_productiveOnly fertile wellFormed.once, start_productiveOnly, and_assoc]

private theorem path_of_occurs (wellFormed : g.WellFormed) (occurs : g.usefulOnly.Occurs name) :
    Relation.ReflTransGen g.productiveOnly.Leads g.productiveOnly.start name := by
  have once := (wellFormed_productiveOnly wellFormed).once
  rcases occurs with listed | ⟨other, alternative, owned, inside⟩
  · obtain ⟨alternative, owned⟩ := (wellFormed_usefulOnly wellFormed).exists_alternative listed
    exact ((mem_alternatives_reachableOnly once).mp owned).2
  · obtain ⟨held, path⟩ := (mem_alternatives_reachableOnly once).mp owned
    exact path.tail ⟨alternative, held, inside⟩

theorem leads_of_occurs (wellFormed : g.WellFormed) (occurs : g.usefulOnly.Occurs name) :
    Relation.ReflTransGen g.usefulOnly.Leads g.start name := by
  have path := leads_reachableOnly (wellFormed_productiveOnly wellFormed).once (path_of_occurs wellFormed occurs)
  rwa [start_productiveOnly] at path

theorem nonempty_of_occurs (wellFormed : g.WellFormed) (fertile : .nonterminal g.start ∈ g.productive)
    (occurs : g.usefulOnly.Occurs name) : ∃ sentence, sentence ∈ g.usefulOnly.language name := by
  have path := path_of_occurs wellFormed occurs
  have productive : .nonterminal name ∈ g.productive := by
    rcases Relation.ReflTransGen.cases_tail path with same | ⟨before, _, alternative, owned, inside⟩
    · rwa [same, start_productiveOnly]
    · exact allProductive_iff.mp ((mem_alternatives_productiveOnly fertile wellFormed.once).mp owned).2 name inside
  obtain ⟨sentence, generates⟩ := (nonterminal_mem_productive wellFormed).mp productive
  refine ⟨sentence, ?_⟩
  rwa [usefulOnly, language_reachableOnly (wellFormed_productiveOnly wellFormed).once path,
    language_productiveOnly fertile wellFormed]

theorem owned_of_occurs (wellFormed : g.WellFormed) (fertile : .nonterminal g.start ∈ g.productive)
    (occurs : g.usefulOnly.Occurs name) : name ∈ g.usefulOnly.nonterminals := by
  obtain ⟨sentence, generates⟩ := nonempty_of_occurs wellFormed fertile occurs
  obtain ⟨alternative, owned, _⟩ := language_unfold generates
  exact mem_nonterminals_of_alternative owned

end TopDownGrammar.Grammar
