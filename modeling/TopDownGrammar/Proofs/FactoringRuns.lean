import Mathlib.Data.List.Perm.Basic
import TopDownGrammar.Proofs.FactoringLanguage
import TopDownGrammar.Proofs.FactoringSteps

/-! Runs of factoring steps. A rank that every step lowers bounds the steps of a run, and a budget as large as the rank lets
the run go on until no conflict allows another step. A run that does not use up its budget has come to such a grammar, so a
budget can be divided among runs in any way. What is left over there are indirect conflicts between alternatives that
cannot be expanded, and one of the two begins with a nonterminal that counts as left recursive. -/

namespace TopDownGrammar

/-- Two entries of a list, and the list with a new entry in the place of both. -/
private theorem exists_perm_of_pair {α : Type} {entries : List α} {i j : Nat} {a b : α} (ordered : i < j)
    (foundA : entries[i]? = some a) (foundB : entries[j]? = some b) :
    ∃ rest, entries.Perm (a :: b :: rest) ∧ ∀ entry, ((entries.set i entry).eraseIdx j).Perm (entry :: rest) := by
  obtain ⟨inside, rfl⟩ := List.getElem?_eq_some_iff.mp foundB
  have still : (entries.eraseIdx j)[i]? = some a := (List.getElem?_eraseIdx_of_lt ordered).trans foundA
  obtain ⟨within, rfl⟩ := List.getElem?_eq_some_iff.mp still
  refine ⟨(entries.eraseIdx j).eraseIdx i, ?_, ?_⟩
  · have taken := List.getElem_cons_eraseIdx_perm inside
    have second := (List.getElem_cons_eraseIdx_perm within).cons entries[j]
    exact taken.symm.trans (second.symm.trans (.swap _ _ _))
  · intro entry
    rw [List.eraseIdx_set_gt ordered]
    exact List.set_perm_cons_eraseIdx within entry

namespace Grammar

variable {g next : Grammar} {conflict : Conflict} {expandIndirect : Bool}

/-- The alternatives of the nonterminal of a conflict once their shared front is taken out. -/
def takenOut (g : Grammar) (conflict : Conflict) (shared : Symbol) : List Alternative :=
  ((g.alternatives conflict.nonterminal).set conflict.earlier
    [shared, .nonterminal (g.freshName conflict.nonterminal)]).eraseIdx conflict.later

theorem Located.takenOut_perm {a b : Alternative} (located : g.Located conflict a b) (shared : Symbol) :
    ∃ others, (g.alternatives conflict.nonterminal).Perm (a :: b :: others) ∧
      (g.takenOut conflict shared).Perm ([shared, .nonterminal (g.freshName conflict.nonterminal)] :: others) := by
  obtain ⟨others, own, replaced⟩ := exists_perm_of_pair located.ordered located.earlier located.later
  exact ⟨others, own, replaced _⟩

theorem rules_factorOut {shared : Symbol} {restA restB : List Symbol}
    (located : g.Located conflict (shared :: restA) (shared :: restB)) :
    (g.factorOut conflict.nonterminal conflict.earlier conflict.later shared).rules =
      (g.replaceAlternatives conflict.nonterminal (g.takenOut conflict shared)).rules ++
        [⟨g.freshName conflict.nonterminal, [compact restA, compact restB]⟩] := by
  simp [factorOut, takenOut, List.getD_eq_getElem?_getD, located.earlier, located.later]

theorem nonterminals_factorOut (wellFormed : g.WellFormed) {shared : Symbol} {restA restB : List Symbol}
    (located : g.Located conflict (shared :: restA) (shared :: restB)) :
    (g.factorOut conflict.nonterminal conflict.earlier conflict.later shared).nonterminals =
      g.nonterminals ++ [g.freshName conflict.nonterminal] := by
  obtain ⟨others, _, kept⟩ := located.takenOut_perm shared
  have some : g.takenOut conflict shared ≠ [] := List.ne_nil_of_mem (kept.mem_iff.mpr List.mem_cons_self)
  rw [nonterminals, rules_factorOut located, List.map_append,
    ← nonterminals_replaceAlternatives wellFormed.owned some]
  rfl

theorem factorStep_eq_none : g.factorStep? expandIndirect = none ↔
    ∀ conflict ∈ g.conflicts, g.resolve? expandIndirect g.heads conflict = none := by
  rw [factorStep?, List.findSome?_eq_none_iff]
  exact forall_congr' fun conflict => imp_congr mem_conflictsToTry Iff.rfl

theorem indirect_of_unresolved (unresolved : g.resolve? expandIndirect g.heads conflict = none) :
    conflict.kind = .indirect := by
  unfold resolve? at unresolved
  split at unresolved
  next => cases unresolved
  next => cases unresolved
  next indirect => exact indirect

theorem not_expandable_of_unresolved {a b : Alternative} (located : g.Located conflict a b)
    (unresolved : g.resolve? true g.heads conflict = none) :
    isExpandable g.heads a = false ∧ isExpandable g.heads b = false := by
  have indirect := indirect_of_unresolved unresolved
  simp only [resolve?, indirect, if_true, Option.map_eq_none_iff, List.find?_eq_none, List.mem_cons,
    List.not_mem_nil, or_false, forall_eq_or_imp, forall_eq, List.getD_eq_getElem?_getD, located.earlier,
    located.later, Option.getD_some, Bool.not_eq_true] at unresolved
  exact unresolved

/-- A run whose steps all lower a rank takes no more steps than the rank it begins with, and it does not stop
before it is stuck if so many steps are allowed. -/
theorem factorSteps_ranked (expandIndirect : Bool) (ranked : Grammar → Nat → Prop)
    (lowered : ∀ g next rank, ranked g rank → g.factorStep? expandIndirect = some next →
      ∃ less, less < rank ∧ ranked next less)
    {rank : Nat} (initially : ranked g rank) (budget : Nat) :
    ∃ rest, ranked (factorSteps expandIndirect budget g).grammar rest ∧
      (factorSteps expandIndirect budget g).steps + rest ≤ rank ∧
      (rank ≤ budget → (factorSteps expandIndirect budget g).grammar.factorStep? expandIndirect = none) := by
  induction budget, g using steps_induction expandIndirect generalizing rank with
  | spent g =>
    refine ⟨rank, initially, by simp [factorSteps], ?_⟩
    intro exhausted
    cases stepped : g.factorStep? expandIndirect with
    | none => exact stepped
    | some next =>
      obtain ⟨less, below, _⟩ := lowered g next rank initially stepped
      omega
  | stuck budget g stuck =>
    rw [factorSteps_of_stuck stuck]
    exact ⟨rank, initially, by simp, fun _ => stuck⟩
  | step budget g next stepped ih =>
    obtain ⟨less, below, later⟩ := lowered g next rank initially stepped
    obtain ⟨rest, ended, bounded, stuck⟩ := ih later
    rw [factorSteps_of_step stepped]
    refine ⟨rest, ended, ?_, fun enough => stuck (by omega)⟩
    simp only
    omega

/-! How a run ends. -/

variable {name : Name} {a b alternative : Alternative} {shown : Symbol}

/-- Both where a run stops of its own and where the conflicts are counted at the end, the flag says how the grammar is. -/
theorem conflictFree_factorSteps (expandIndirect : Bool) (budget : Nat) (g : Grammar) :
    (factorSteps expandIndirect budget g).conflictFree = (factorSteps expandIndirect budget g).grammar.isConflictFree := by
  induction budget, g using steps_induction expandIndirect with
  | spent g => rfl
  | stuck budget g stuck => rw [factorSteps_of_stuck stuck]
  | step budget g next stepped ih =>
    rw [factorSteps_of_step stepped]
    exact ih

theorem factorSteps_le (expandIndirect : Bool) (budget : Nat) (g : Grammar) :
    (factorSteps expandIndirect budget g).steps ≤ budget := by
  induction budget, g using steps_induction expandIndirect with
  | spent g => exact Nat.le_refl 0
  | stuck budget g stuck =>
    rw [factorSteps_of_stuck stuck]
    exact Nat.zero_le _
  | step budget g next stepped ih =>
    rw [factorSteps_of_step stepped]
    exact Nat.succ_le_succ ih

theorem stuck_of_steps_lt {budget : Nat} (fewer : (factorSteps expandIndirect budget g).steps < budget) :
    (factorSteps expandIndirect budget g).grammar.factorStep? expandIndirect = none := by
  induction budget, g using steps_induction expandIndirect with
  | spent g => exact absurd fewer (Nat.not_lt_zero _)
  | stuck budget g stuck =>
    rw [factorSteps_of_stuck stuck]
    exact stuck
  | step budget g next stepped ih =>
    rw [factorSteps_of_step stepped] at fewer ⊢
    exact ih (Nat.lt_of_succ_lt_succ fewer)

/-- What a larger budget is used for beyond a smaller one is a run from where that one ends. -/
theorem factorSteps_add (expandIndirect : Bool) (m n : Nat) (g : Grammar) :
    let first := factorSteps expandIndirect m g
    let second := factorSteps expandIndirect n first.grammar
    factorSteps expandIndirect (m + n) g = ⟨second.grammar, first.steps + second.steps, second.conflictFree⟩ := by
  induction m, g using steps_induction expandIndirect with
  | spent g => simp [factorSteps]
  | stuck m g stuck => simp [factorSteps_of_stuck stuck]
  | step m g next stepped ih =>
    rw [Nat.succ_add]
    simp only [factorSteps_of_step stepped, ih, FactorOutcome.mk.injEq, true_and, and_true]
    exact Nat.add_right_comm _ _ _

/-- A run can be broken off and taken up again: the two budgets, the steps and the grammar come to those of one run.
Once a run has left a part of its budget, no further one does anything. -/
theorem factor_divided (g : Grammar) (expandIndirect : Bool) (m n : Nat) :
    let first := g.factor ⟨m, expandIndirect⟩
    let second := first.grammar.factor ⟨n, expandIndirect⟩
    g.factor ⟨m + n, expandIndirect⟩ = ⟨second.grammar, first.steps + second.steps, second.conflictFree⟩ ∧
      (first.steps < m → ∀ budget,
        first.grammar.factor ⟨budget, expandIndirect⟩ = ⟨first.grammar, 0, first.conflictFree⟩) := by
  intro first second
  refine ⟨factorSteps_add expandIndirect m n g, fun fewer budget => ?_⟩
  have stuck : first.grammar.factorStep? expandIndirect = none := stuck_of_steps_lt fewer
  have flag : first.conflictFree = first.grammar.isConflictFree := conflictFree_factorSteps expandIndirect m g
  rw [factor, factorSteps_of_stuck stuck, flag]

/-- The sums begin alike, and once that is taken out they are still left recursive. -/
def climbing : Grammar :=
  ⟨"E", [⟨"E", [[.nonterminal "E", .terminal "+", .nonterminal "T"], [.nonterminal "E", .terminal "-", .nonterminal "T"],
      [.nonterminal "T"]]⟩, ⟨"T", [[.terminal "a"]]⟩]⟩

theorem climbing_divided :
    let first := climbing.factor ⟨1, true⟩
    let second := first.grammar.factor ⟨31, true⟩
    climbing.factor ⟨1 + 31, true⟩ = ⟨second.grammar, first.steps + second.steps, second.conflictFree⟩ ∧
      second.steps = 1 ∧
      ∀ budget, second.grammar.factor ⟨budget, true⟩ = ⟨second.grammar, 0, second.conflictFree⟩ := by
  intro first second
  have steps : second.steps = 1 := by decide +kernel
  have fewer : second.steps < 31 := by omega
  exact ⟨(factor_divided climbing true 1 31).1, steps, (factor_divided first.grammar true 31 0).2 fewer⟩

/-- The alternative begins with a nonterminal that its own head set holds. -/
def SelfHeaded (g : Grammar) (alternative : Alternative) : Prop :=
  ∃ front rest set, alternative = .nonterminal front :: rest ∧ g.heads.get? front = some set ∧ .nonterminal front ∈ set

/-- What cannot be expanded is headed by itself, is the empty string, or shows the terminal that it begins with. -/
private theorem front_of_not_expandable (wellFormed : g.WellFormed) (owned : alternative ∈ g.alternatives name)
    (stays : isExpandable g.heads alternative = false) {first : SetFamily}
    (member : shown ∈ firstOfSequence first alternative) :
    g.SelfHeaded alternative ∨ (shown = .epsilon ∧ alternative = [.epsilon]) ∨
      (shown ≠ .epsilon ∧ ∃ rest, alternative = shown :: rest) := by
  cases alternative with
  | nil => exact absurd rfl (wellFormed.admissible_alternative owned).nonempty
  | cons front rest =>
    cases front with
    | nonterminal head =>
      simp only [isExpandable] at stays
      split at stays
      · cases stays
      next set found => exact Or.inl ⟨head, rest, set, rfl, found, by simpa using stays⟩
    | terminal text =>
      obtain rfl := SymbolSet.mem_singleton.mp member
      exact Or.inr (Or.inr ⟨by simp, rest, rfl⟩)
    | epsilon =>
      cases rest with
      | nil => exact Or.inr (Or.inl ⟨SymbolSet.mem_singleton.mp member, rfl⟩)
      | cons symbol rest => cases stays
    | endOfInput => exact absurd List.mem_cons_self (wellFormed.unmarked owned)

private theorem between_ne_indirect {shared : Symbol} (solid : shared ≠ .epsilon) (restA restB : List Symbol) :
    ConflictKind.between (shared :: restA) (shared :: restB) ≠ .indirect := by
  unfold ConflictKind.between
  split
  · simp
  · simp [solid]

theorem lookahead_of_mem {first : SetFamily} (once : g.nonterminals.Nodup)
    (member : conflict ∈ g.conflictsWith first) (located : g.Located conflict a b) :
    ∃ symbol, symbol ∈ firstOfSequence first a ∧ symbol ∈ firstOfSequence first b := by
  obtain ⟨one, two, other, lookahead, shared⟩ := (mem_conflictsWith once).mp member
  obtain rfl := Option.some.inj (other.earlier.symm.trans located.earlier)
  obtain rfl := Option.some.inj (other.later.symm.trans located.later)
  obtain ⟨symbol, common⟩ := List.exists_mem_of_ne_nil _ (List.isEmpty_eq_false_iff.mp shared)
  exact ⟨symbol, SymbolSet.mem_inter.mp (lookahead ▸ common)⟩

/-- Where neither side of a conflict can be expanded there is left recursion in front of one, because fronts of any
other kind that share a lookahead are equal. -/
theorem selfHeaded_of_unresolved (wellFormed : g.WellFormed) (member : conflict ∈ g.conflicts)
    (located : g.Located conflict a b) (unresolved : g.resolve? true g.heads conflict = none) :
    g.SelfHeaded a ∨ g.SelfHeaded b := by
  obtain ⟨symbol, inA, inB⟩ := lookahead_of_mem wellFormed.once member located
  have indirect : ConflictKind.between a b = .indirect := located.kind.symm.trans (indirect_of_unresolved unresolved)
  obtain ⟨staysA, staysB⟩ := not_expandable_of_unresolved located unresolved
  have frontA := front_of_not_expandable wellFormed (List.mem_of_getElem? located.earlier) staysA inA
  have frontB := front_of_not_expandable wellFormed (List.mem_of_getElem? located.later) staysB inB
  rcases frontA with headed | ⟨vanishes, rfl⟩ | ⟨solid, restA, rfl⟩
  · exact Or.inl headed
  · rcases frontB with headed | ⟨_, rfl⟩ | ⟨solid, _⟩
    · exact Or.inr headed
    · cases indirect
    · exact absurd vanishes solid
  · rcases frontB with headed | ⟨vanishes, _⟩ | ⟨_, restB, rfl⟩
    · exact Or.inr headed
    · exact absurd vanishes solid
    · exact absurd indirect (between_ne_indirect solid restA restB)

/-- What a run says of its result is so. It stops early only where every conflict is indirect, and if expansions are
allowed only where neither side of any conflict can be expanded, one of them because of left recursion in front. -/
theorem factor_truthful (wellFormed : g.WellFormed) (options : FactorOptions) :
    let outcome := g.factor options
    outcome.conflictFree = outcome.grammar.isConflictFree ∧ outcome.steps ≤ options.maxSteps ∧
      (outcome.steps < options.maxSteps → outcome.conflictFree = false →
        ∀ conflict ∈ outcome.grammar.conflicts, conflict.kind = .indirect ∧
          (options.expandIndirect = true → ∃ a b,
            (outcome.grammar.alternatives conflict.nonterminal)[conflict.earlier]? = some a ∧
            (outcome.grammar.alternatives conflict.nonterminal)[conflict.later]? = some b ∧
            isExpandable outcome.grammar.heads a = false ∧ isExpandable outcome.grammar.heads b = false ∧
            (outcome.grammar.SelfHeaded a ∨ outcome.grammar.SelfHeaded b))) := by
  intro outcome
  refine ⟨conflictFree_factorSteps _ _ _, factorSteps_le _ _ _, fun fewer _ conflict member => ?_⟩
  have still : outcome.grammar.WellFormed := (factor_kept wellFormed options).wellFormed
  have stuck : outcome.grammar.factorStep? options.expandIndirect = none := stuck_of_steps_lt fewer
  have unresolved := factorStep_eq_none.mp stuck conflict member
  refine ⟨indirect_of_unresolved unresolved, fun expanding => ?_⟩
  rw [expanding] at unresolved
  obtain ⟨a, b, located⟩ := located_of_mem still.once member
  obtain ⟨staysA, staysB⟩ := not_expandable_of_unresolved located unresolved
  exact ⟨a, b, located.earlier, located.later, staysA, staysB, selfHeaded_of_unresolved still member located unresolved⟩

theorem climbing_truthful :
    let outcome := climbing.factor {}
    climbing.WellFormed ∧ outcome.steps = 2 ∧ outcome.conflictFree = false ∧
      ∀ conflict ∈ outcome.grammar.conflicts, conflict.kind = .indirect ∧ ∃ a b,
        (outcome.grammar.alternatives conflict.nonterminal)[conflict.earlier]? = some a ∧
        (outcome.grammar.alternatives conflict.nonterminal)[conflict.later]? = some b ∧
        (outcome.grammar.SelfHeaded a ∨ outcome.grammar.SelfHeaded b) := by
  intro outcome
  have wellFormed : climbing.WellFormed := by decide
  have steps : outcome.steps = 2 := by decide +kernel
  have left : outcome.conflictFree = false := by decide +kernel
  obtain ⟨_, _, stuck⟩ := factor_truthful wellFormed {}
  refine ⟨wellFormed, steps, left, fun conflict member => ?_⟩
  obtain ⟨indirect, blocked⟩ := stuck (steps ▸ by decide) left conflict member
  obtain ⟨a, b, atA, atB, _, _, headed⟩ := blocked rfl
  exact ⟨indirect, a, b, atA, atB, headed⟩

end Grammar

end TopDownGrammar
