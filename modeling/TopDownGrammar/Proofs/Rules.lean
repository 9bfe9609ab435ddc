import Mathlib.Data.List.Basic
import Mathlib.Data.List.Nodup
import TopDownGrammar.Grammar.Checked

/-! Looking up rules. As long as no nonterminal is listed twice, the alternatives of a
nonterminal, the rules and the productions are three views of the same thing. -/

namespace TopDownGrammar

namespace Grammar

variable {g : Grammar} {name : Name} {alternative : Alternative}

theorem alternatives_eq_or_nil (g : Grammar) (name : Name) :
    (∃ rule ∈ g.rules, rule.lhs = name ∧ g.alternatives name = rule.alternatives) ∨
      name ∉ g.nonterminals ∧ g.alternatives name = [] := by
  unfold alternatives
  cases search : g.rules.find? (·.lhs = name) with
  | some rule =>
    have same : rule.lhs = name := by simpa using List.find?_some search
    exact Or.inl ⟨rule, List.mem_of_find?_eq_some search, same, rfl⟩
  | none =>
    have absent := List.find?_eq_none.mp search
    refine Or.inr ⟨?_, rfl⟩
    intro listed
    obtain ⟨rule, member, same⟩ := List.mem_map.mp listed
    exact absent rule member (by simpa using same)

theorem mem_nonterminals_of_alternative (owned : alternative ∈ g.alternatives name) : name ∈ g.nonterminals := by
  rcases g.alternatives_eq_or_nil name with ⟨rule, member, rfl, _⟩ | ⟨_, none⟩
  · exact List.mem_map.mpr ⟨rule, member, rfl⟩
  · rw [none] at owned
    cases owned

theorem alternatives_eq_nil (unlisted : name ∉ g.nonterminals) : g.alternatives name = [] := by
  apply List.eq_nil_iff_forall_not_mem.mpr
  exact fun alternative owned => unlisted (mem_nonterminals_of_alternative owned)

theorem alternatives_of_mem (once : g.nonterminals.Nodup) {rule : Rule} (member : rule ∈ g.rules) :
    g.alternatives rule.lhs = rule.alternatives := by
  rcases g.alternatives_eq_or_nil rule.lhs with ⟨other, present, same, equal⟩ | ⟨absent, _⟩
  · rw [equal, List.inj_on_of_nodup_map once present member same]
  · exact absurd (List.mem_map.mpr ⟨rule, member, rfl⟩) absent

theorem mem_productions {production : Production} :
    production ∈ g.productions ↔
      ∃ rule ∈ g.rules, rule.lhs = production.lhs ∧ production.rhs ∈ rule.alternatives := by
  simp only [productions, List.mem_flatMap, Rule.productions, List.mem_map]
  constructor
  · intro found
    obtain ⟨rule, member, alternative, present, rfl⟩ := found
    exact ⟨rule, member, rfl, present⟩
  · intro found
    obtain ⟨rule, member, same, present⟩ := found
    exact ⟨rule, member, production.rhs, present, by rw [same]⟩

theorem production_of_alternative (owned : alternative ∈ g.alternatives name) :
    ⟨name, alternative⟩ ∈ g.productions := by
  rcases g.alternatives_eq_or_nil name with ⟨rule, member, same, equal⟩ | ⟨_, none⟩
  · exact mem_productions.mpr ⟨rule, member, same, equal ▸ owned⟩
  · rw [none] at owned
    cases owned

theorem mem_alternatives (once : g.nonterminals.Nodup) :
    alternative ∈ g.alternatives name ↔ ⟨name, alternative⟩ ∈ g.productions := by
  refine ⟨production_of_alternative, ?_⟩
  intro listed
  obtain ⟨rule, member, rfl, present⟩ := mem_productions.mp listed
  exact (alternatives_of_mem once member).symm ▸ present

theorem mem_nonterminals_iff (owned : ∀ rule ∈ g.rules, rule.alternatives ≠ []) (once : g.nonterminals.Nodup) :
    name ∈ g.nonterminals ↔ g.alternatives name ≠ [] := by
  constructor
  · intro listed
    obtain ⟨rule, member, rfl⟩ := List.mem_map.mp listed
    rw [alternatives_of_mem once member]
    exact owned rule member
  · intro some
    obtain ⟨alternative, present⟩ := List.exists_mem_of_ne_nil _ some
    exact mem_nonterminals_of_alternative present

theorem WellFormed.exists_alternative (wellFormed : g.WellFormed) (listed : name ∈ g.nonterminals) :
    ∃ alternative, alternative ∈ g.alternatives name :=
  List.exists_mem_of_ne_nil _ ((mem_nonterminals_iff wellFormed.owned wellFormed.once).mp listed)

theorem lhs_mem_symbols (listed : name ∈ g.nonterminals) (owned : ∀ rule ∈ g.rules, rule.alternatives ≠ []) :
    .nonterminal name ∈ g.symbols := by
  obtain ⟨rule, member, rfl⟩ := List.mem_map.mp listed
  obtain ⟨alternative, present⟩ := List.exists_mem_of_ne_nil _ (owned rule member)
  refine List.mem_cons_of_mem _ (List.mem_flatMap.mpr ⟨⟨rule.lhs, alternative⟩, ?_, List.mem_cons_self⟩)
  exact mem_productions.mpr ⟨rule, member, rfl, present⟩

theorem mem_symbols_of_alternative {symbol : Symbol} (owned : alternative ∈ g.alternatives name)
    (present : symbol ∈ alternative) : symbol ∈ g.symbols :=
  List.mem_cons_of_mem _ (List.mem_flatMap.mpr
    ⟨_, production_of_alternative owned, List.mem_cons_of_mem _ present⟩)

theorem mem_occurrences {symbol : Symbol} (owned : alternative ∈ g.alternatives name) (present : symbol ∈ alternative) :
    symbol ∈ g.occurrences :=
  List.mem_flatMap.mpr ⟨_, production_of_alternative owned, present⟩

theorem mem_alternatives_ofProductions {start : Name} {productions : List Production} :
    alternative ∈ (ofProductions start productions).alternatives name ↔ ⟨name, alternative⟩ ∈ productions := by
  rw [alternatives_ofProductions, List.mem_map]
  constructor
  · intro found
    obtain ⟨production, member, rfl⟩ := found
    obtain ⟨present, same⟩ := List.mem_filter.mp member
    have equal : production.lhs = name := by simpa using same
    exact equal ▸ present
  · intro present
    exact ⟨_, List.mem_filter.mpr ⟨present, by simp⟩, rfl⟩

theorem nodup_ofProductions (start : Name) (productions : List Production) :
    (ofProductions start productions).nonterminals.Nodup := by
  rw [nonterminals_ofProductions]
  exact nodup_distinct _

theorem mem_nonterminals_ofProductions {start : Name} {productions : List Production} :
    name ∈ (ofProductions start productions).nonterminals ↔ ∃ alternative, ⟨name, alternative⟩ ∈ productions := by
  rw [nonterminals_ofProductions, mem_distinct, List.mem_map]
  constructor
  · intro found
    obtain ⟨production, member, rfl⟩ := found
    exact ⟨_, member⟩
  · intro found
    obtain ⟨alternative, member⟩ := found
    exact ⟨_, member, rfl⟩

theorem productions_ofProductions (start : Name) (productions : List Production) :
    (ofProductions start productions).productions =
      (distinct (productions.map (·.lhs))).flatMap fun name => productions.filter (·.lhs = name) := by
  simp only [Grammar.productions, ofProductions, group, List.flatMap_map]
  apply List.flatMap_congr
  intro name _
  have restored : ∀ production ∈ productions.filter (·.lhs = name), Production.mk name production.rhs = production := by
    intro production member
    have same := of_decide_eq_true (List.mem_filter.mp member).2
    exact congrArg (Production.mk · production.rhs) same.symm
  rw [Rule.productions, List.map_map]
  exact (List.map_congr_left restored).trans (List.map_id _)

theorem nodup_productions_ofProductions (start : Name) {productions : List Production} (once : productions.Nodup) :
    (ofProductions start productions).productions.Nodup := by
  rw [productions_ofProductions, List.nodup_flatMap]
  refine ⟨fun name _ => once.filter _, (nodup_distinct _).imp ?_⟩
  intro first second different production inFirst inSecond
  have left := of_decide_eq_true (List.mem_filter.mp inFirst).2
  have right := of_decide_eq_true (List.mem_filter.mp inSecond).2
  exact different (left.symm.trans right)

theorem nodup_alternatives (once : g.productions.Nodup) (name : Name) : (g.alternatives name).Nodup := by
  rcases g.alternatives_eq_or_nil name with ⟨rule, member, _, equal⟩ | ⟨_, none⟩
  · rw [equal]
    exact List.Nodup.of_map _ ((List.nodup_flatMap.mp once).1 rule member)
  · rw [none]
    exact List.nodup_nil

theorem distinct_sublist {α : Type} [DecidableEq α] (entries : List α) : (distinct entries).Sublist entries := by
  induction entries with
  | nil => exact .slnil
  | cons head rest ih => exact (List.filter_sublist.trans ih).cons_cons head

theorem distinct_of_nodup {α : Type} [DecidableEq α] {entries : List α} (once : entries.Nodup) :
    distinct entries = entries := by
  induction entries with
  | nil => rfl
  | cons head rest ih =>
    obtain ⟨absent, later⟩ := List.nodup_cons.mp once
    rw [distinct, ih later, List.filter_eq_self.mpr]
    intro entry member
    have different : entry ≠ head := fun same => absent (same ▸ member)
    simpa using different

theorem distinct_replicate_append {α : Type} [DecidableEq α] (entry : α) (rest : List α) (count : Nat) :
    distinct (List.replicate (count + 1) entry ++ rest) = entry :: (distinct rest).filter (· ≠ entry) := by
  induction count with
  | zero => rfl
  | succ count ih =>
    rw [List.replicate_succ, List.cons_append, distinct, ih]
    simp

theorem lhs_of_mem_productions {rule : Rule} {production : Production} (member : production ∈ rule.productions) :
    production.lhs = rule.lhs := by
  obtain ⟨_, _, rfl⟩ := List.mem_map.mp member
  rfl

/-- Rules that stand together already stay as they are. -/
theorem group_productions {rules : List Rule} (once : (rules.map (·.lhs)).Nodup)
    (owned : ∀ rule ∈ rules, rule.alternatives ≠ []) : group (rules.flatMap Rule.productions) = rules := by
  induction rules with
  | nil => rfl
  | cons rule rest ih =>
    obtain ⟨different, later⟩ := List.nodup_cons.mp once
    have tail := ih later fun other member => owned other (List.mem_cons_of_mem _ member)
    have elsewhere : ∀ production ∈ rest.flatMap Rule.productions, production.lhs ≠ rule.lhs := by
      intro production member same
      obtain ⟨other, present, inside⟩ := List.mem_flatMap.mp member
      exact different (List.mem_map.mpr ⟨other, present, (lhs_of_mem_productions inside).symm.trans same⟩)
    obtain ⟨count, positive⟩ : ∃ count, rule.alternatives.length = count + 1 :=
      Nat.exists_eq_succ_of_ne_zero (by simpa using owned rule List.mem_cons_self)
    have own : rule.productions.map (·.lhs) = List.replicate (count + 1) rule.lhs := by
      simp [Rule.productions, Function.comp_def, List.map_const', positive]
    have others : (distinct ((rest.flatMap Rule.productions).map (·.lhs))).filter (· ≠ rule.lhs) =
        distinct ((rest.flatMap Rule.productions).map (·.lhs)) := by
      refine List.filter_eq_self.mpr fun name member => ?_
      obtain ⟨production, present, rfl⟩ := List.mem_map.mp (mem_distinct.mp member)
      simpa using elsewhere production present
    rw [group, List.flatMap_cons, List.map_append, own, distinct_replicate_append, others, List.map_cons]
    refine congrArg₂ List.cons ?_ ?_
    · have none : (rest.flatMap Rule.productions).filter (·.lhs = rule.lhs) = [] :=
        List.filter_eq_nil_iff.mpr fun production member => by simpa using elsewhere production member
      have all : rule.productions.filter (·.lhs = rule.lhs) = rule.productions :=
        List.filter_eq_self.mpr fun production inside => by simpa using lhs_of_mem_productions inside
      rw [List.filter_append, all, none, List.append_nil, Rule.productions, List.map_map]
      exact congrArg (Rule.mk rule.lhs) (List.map_id _)
    · refine Eq.trans (List.map_congr_left fun name member => ?_) tail
      obtain ⟨production, present, rfl⟩ := List.mem_map.mp (mem_distinct.mp member)
      have none : rule.productions.filter (·.lhs = production.lhs) = [] := by
        refine List.filter_eq_nil_iff.mpr fun other inside => ?_
        simpa [lhs_of_mem_productions inside] using (elsewhere production present).symm
      rw [List.filter_append, none, List.nil_append]

theorem flatMap_productions_filter (rules : List Rule) :
    (rules.filter (!·.alternatives.isEmpty)).flatMap Rule.productions = rules.flatMap Rule.productions := by
  induction rules with
  | nil => rfl
  | cons rule rest ih =>
    rw [List.flatMap_cons, List.filter_cons, ← ih]
    split
    · rw [List.flatMap_cons]
    next empty =>
      have none : rule.alternatives = [] := by simpa using empty
      simp [Rule.productions, none]

/-- A rule that is left without alternatives is not listed. -/
theorem group_blocks {rules : List Rule} (once : (rules.map (·.lhs)).Nodup) :
    group (rules.flatMap Rule.productions) = rules.filter (!·.alternatives.isEmpty) := by
  rw [← flatMap_productions_filter]
  exact group_productions (once.sublist (List.filter_sublist.map _))
    fun rule member => by simpa using (List.mem_filter.mp member).2

theorem productions_blocks {rules : List Rule} (once : (rules.map (·.lhs)).Nodup) (start : Name) :
    (ofProductions start (rules.flatMap Rule.productions)).productions = rules.flatMap Rule.productions := by
  have blocks : (ofProductions start (rules.flatMap Rule.productions)).rules = _ := group_blocks once
  rw [productions, blocks, flatMap_productions_filter]

theorem alternatives_blocks {rules : List Rule} (once : (rules.map (·.lhs)).Nodup) (start : Name) {rule : Rule}
    (member : rule ∈ rules) :
    (ofProductions start (rules.flatMap Rule.productions)).alternatives rule.lhs = rule.alternatives := by
  have blocks : (ofProductions start (rules.flatMap Rule.productions)).rules = _ := group_blocks once
  by_cases empty : rule.alternatives = []
  · rw [empty]
    refine alternatives_eq_nil fun listed => ?_
    obtain ⟨other, present, same⟩ := List.mem_map.mp listed
    rw [blocks] at present
    obtain ⟨inside, nonempty⟩ := List.mem_filter.mp present
    rw [List.inj_on_of_nodup_map once inside member same, empty] at nonempty
    cases nonempty
  · refine alternatives_of_mem (nodup_ofProductions _ _) ?_
    rw [blocks]
    exact List.mem_filter.mpr ⟨member, by simpa using empty⟩

theorem ofProductions_self (owned : ∀ rule ∈ g.rules, rule.alternatives ≠ []) (once : g.nonterminals.Nodup) :
    ofProductions g.start g.productions = g :=
  congrArg (Grammar.mk g.start) (group_productions once owned)

/-- The productions of some of the nonterminals are those of their rules. -/
theorem filter_flatMap_productions (rules : List Rule) (keep : Name → Bool) :
    (rules.flatMap Rule.productions).filter (keep ·.lhs) =
      (rules.filter (keep ·.lhs)).flatMap Rule.productions := by
  induction rules with
  | nil => rfl
  | cons rule rest ih =>
    rw [List.flatMap_cons, List.filter_append, ih, List.filter_cons]
    split
    next kept =>
      rw [List.flatMap_cons, List.filter_eq_self.mpr]
      exact fun production inside => lhs_of_mem_productions inside ▸ kept
    next lost =>
      rw [List.filter_eq_nil_iff.mpr, List.nil_append]
      exact fun production inside => lhs_of_mem_productions inside ▸ lost

theorem nodup_flatMap_productions {rules : List Rule} (once : (rules.map (·.lhs)).Nodup)
    (each : ∀ rule ∈ rules, rule.alternatives.Nodup) : (rules.flatMap Rule.productions).Nodup := by
  rw [List.nodup_flatMap]
  refine ⟨fun rule member => (each rule member).map fun _ _ same => (Production.mk.inj same).2, ?_⟩
  refine (List.pairwise_map.mp once).imp ?_
  intro rule other different production own elsewhere
  exact different ((lhs_of_mem_productions own).symm.trans (lhs_of_mem_productions elsewhere))

/-- The production that is given first is listed first. -/
theorem productions_ofProductions_cons (start : Name) (production : Production) (rest : List Production) :
    ∃ others, (ofProductions start (production :: rest)).productions = production :: others := by
  rw [productions_ofProductions, List.map_cons, distinct, List.flatMap_cons, List.filter_cons_of_pos (by simp)]
  exact ⟨_, rfl⟩

/-- The productions of one nonterminal, in their order, are those of its alternatives. -/
theorem map_mk_alternatives (owned : ∀ rule ∈ g.rules, rule.alternatives ≠ []) (once : g.nonterminals.Nodup)
    (name : Name) : (g.alternatives name).map (Production.mk name) = g.productions.filter (·.lhs = name) := by
  have same := ofProductions_self owned once
  rw [← same, alternatives_ofProductions, List.map_map, same]
  refine (List.map_congr_left fun production member => ?_).trans (List.map_id _)
  obtain rfl : production.lhs = name := by simpa using (List.mem_filter.mp member).2
  rfl

theorem alternatives_filter (owned : ∀ rule ∈ g.rules, rule.alternatives ≠ []) (once : g.nonterminals.Nodup)
    (start : Name) (keep : Production → Bool) (name : Name) :
    (ofProductions start (g.productions.filter keep)).alternatives name =
      (g.alternatives name).filter fun alternative => keep ⟨name, alternative⟩ := by
  have exchanged : (g.productions.filter keep).filter (·.lhs = name) =
      (g.productions.filter (·.lhs = name)).filter keep := by
    simp only [List.filter_filter, Bool.and_comm]
  rw [alternatives_ofProductions, exchanged, ← map_mk_alternatives owned once, List.filter_map, List.map_map]
  exact List.map_id _

theorem rules_eq_map (once : g.nonterminals.Nodup) :
    g.rules = g.nonterminals.map fun name => ⟨name, g.alternatives name⟩ := by
  rw [nonterminals, List.map_map]
  refine ((List.map_congr_left fun rule member => ?_).trans (List.map_id _)).symm
  exact congrArg (Rule.mk rule.lhs) (alternatives_of_mem once member)

/-- The nonterminals stand in the order in which they first own a production, and the alternatives of each in
the order in which they are given. -/
structure Gathers (g : Grammar) (productions : List Production) : Prop where
  nonterminals : g.nonterminals = distinct (productions.map (·.lhs))
  alternatives : ∀ name, g.alternatives name = (productions.filter (·.lhs = name)).map (·.rhs)

theorem gathers_iff {productions : List Production} : g.Gathers productions ↔ g = ofProductions g.start productions := by
  constructor
  · intro gathers
    have once : g.nonterminals.Nodup := gathers.nonterminals ▸ nodup_distinct _
    obtain ⟨start, rules⟩ := g
    refine congrArg (Grammar.mk start) ((rules_eq_map once).trans ?_)
    rw [gathers.nonterminals]
    exact List.map_congr_left fun name _ => congrArg (Rule.mk name) (gathers.alternatives name)
  · intro same
    rw [same]
    exact ⟨nonterminals_ofProductions _ _, alternatives_ofProductions _ _⟩

theorem agrees_iff {g h : Grammar} : g.agrees h = true ↔ g.start = h.start ∧ g.rules.length = h.rules.length ∧
    ∀ rule ∈ g.rules, rule.lhs ∈ h.nonterminals ∧ h.alternatives rule.lhs = rule.alternatives := by
  simp [agrees, owns_iff, and_assoc]

instance (g : Grammar) : Decidable g.WellFormed := decidable_of_iff _ wellFormed_iff.symm

theorem WellFormed.admissible (wellFormed : g.WellFormed) {production : Production}
    (member : production ∈ g.productions) : Admissible production := by
  obtain ⟨rule, present, same, inside⟩ := mem_productions.mp member
  exact ⟨same ▸ wellFormed.names rule present, wellFormed.symbols rule present _ inside,
    wellFormed.nonempty rule present _ inside⟩

theorem WellFormed.admissible_alternative (wellFormed : g.WellFormed) (owned : alternative ∈ g.alternatives name) :
    Admissible ⟨name, alternative⟩ :=
  wellFormed.admissible (production_of_alternative owned)

theorem WellFormed.unmarked_symbols (wellFormed : g.WellFormed) : .endOfInput ∉ g.symbols := by
  intro member
  rcases List.mem_cons.mp member with start | inside
  · cases start
  · obtain ⟨production, present, occurs⟩ := List.mem_flatMap.mp inside
    rcases List.mem_cons.mp occurs with owner | later
    · cases owner
    · exact check_ne_endOfInput ((wellFormed.admissible present).symbols _ later) rfl

theorem WellFormed.unmarked (wellFormed : g.WellFormed) (owned : alternative ∈ g.alternatives name) :
    .endOfInput ∉ alternative :=
  fun present => wellFormed.unmarked_symbols (mem_symbols_of_alternative owned present)

theorem wellFormed_ofProductions {start : Name} {productions : List Production} (named : isName start = true)
    (admissible : ∀ production ∈ productions, Admissible production) :
    (ofProductions start productions).WellFormed := by
  have origin : ∀ rule ∈ (ofProductions start productions).rules, ∀ alternative ∈ rule.alternatives,
      ⟨rule.lhs, alternative⟩ ∈ productions := by
    intro rule member alternative present
    rw [← alternatives_of_mem (nodup_ofProductions _ _) member] at present
    exact mem_alternatives_ofProductions.mp present
  have owned : ∀ rule ∈ (ofProductions start productions).rules, rule.alternatives ≠ [] := by
    intro rule member
    rw [← alternatives_of_mem (nodup_ofProductions _ _) member]
    obtain ⟨alternative, present⟩ := mem_nonterminals_ofProductions.mp (List.mem_map.mpr ⟨rule, member, rfl⟩)
    exact List.ne_nil_of_mem (mem_alternatives_ofProductions.mpr present)
  refine ⟨named, ?_, ?_, ?_, owned, nodup_ofProductions _ _⟩
  · intro rule member
    obtain ⟨alternative, present⟩ := List.exists_mem_of_ne_nil _ (owned rule member)
    exact (admissible _ (origin rule member alternative present)).lhs
  · intro rule member alternative present
    exact (admissible _ (origin rule member alternative present)).symbols
  · intro rule member alternative present
    exact (admissible _ (origin rule member alternative present)).nonempty

end Grammar

end TopDownGrammar
