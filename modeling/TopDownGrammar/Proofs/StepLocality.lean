import TopDownGrammar.Proofs.FactoringLanguage

/-! A factoring step is local. FIRST sets are the least that cover the productions, and for each rewrite those of the
old grammar cover the new one and the other way around, so no nonterminal of the old grammar begins with anything
else than before. The conflicts of all but the nonterminal rewritten and the fresh one therefore stay as they are. -/

namespace TopDownGrammar.Grammar

variable {g next : Grammar} {conflict : Conflict} {name : Name} {alternative : Alternative}
  {front : Symbol → Symbol → Prop} {shown : Symbol}

private theorem firstFront_self (first : SetFamily) :
    ∀ symbol : Symbol, symbol.isNonterminal = false → firstFront first symbol symbol := by
  intro symbol kind
  cases symbol with
  | nonterminal name => cases kind
  | _ => rfl

/-- Sets that cover the productions hold the FIRST sets. -/
theorem first_subset {first : SetFamily} (covers : g.Covers (firstFront first)) (name : Name) :
    ∀ shown ∈ g.first.get name, shown ∈ first.get name :=
  covers.shows_of_mem_first (firstFront_self first) name

section Expand

/-- What an alternative becomes shows nothing that it did not show itself. -/
private theorem Covers.shows_of_expandFront (covers : g.Covers front) {expanded : Alternative}
    (member : expanded ∈ g.expandFront alternative) (shows : Shows front expanded shown) :
    Shows front alternative shown := by
  rcases mem_expandFront.mp member with ⟨head, rest, body, rfl, owned, rfl⟩ | ⟨_, rfl⟩
  · have inside := covers.nonterminal head body owned
    rw [shows_compact covers.epsilon, shows_append] at shows
    exact shows.imp (And.imp_left (inside shown)) (And.imp_left (inside .epsilon))
  · exact (shows_compact covers.epsilon).mp shows

/-- What an alternative shows is shown by something that it becomes, unless its front is replaced along with it. -/
private theorem exists_expanded_shows (expandable : isExpandable g.heads alternative = true)
    (owned : alternative ∈ g.alternatives name)
    (unchanged : ∀ other, other ≠ name → next.alternatives other = g.alternatives other)
    (shows : Shows (firstFront next.first) alternative shown) :
    ∃ expanded ∈ g.expandFront alternative, Shows (firstFront next.first) expanded shown := by
  have still := next.first_covers.epsilon
  unfold expandFront
  split
  next head rest =>
    have different := front_ne_of_expandable expandable owned
    have opened : ∀ symbol ∈ next.first.get head, ∃ body ∈ g.alternatives head,
        Shows (firstFront next.first) body symbol := by
      rw [← unchanged head different]
      exact first_unfold head
    rcases shows with ⟨here, solid⟩ | ⟨vanishes, later⟩
    · obtain ⟨body, possessed, inner⟩ := opened shown here
      exact ⟨_, List.mem_map.mpr ⟨body, possessed, rfl⟩, (shows_compact still).mpr (shows_append.mpr (Or.inl ⟨inner, solid⟩))⟩
    · obtain ⟨body, possessed, inner⟩ := opened .epsilon vanishes
      exact ⟨_, List.mem_map.mpr ⟨body, possessed, rfl⟩, (shows_compact still).mpr (shows_append.mpr (Or.inr ⟨inner, later⟩))⟩
  next => exact ⟨_, List.mem_singleton_self _, (shows_compact still).mpr shows⟩

variable {position : Nat} (wellFormed : g.WellFormed)
  (found : (g.alternatives name)[position]? = some alternative)

include wellFormed found

theorem expandAt_covers : (g.expandAt name position).Covers (firstFront g.first) where
  epsilon := g.first_covers.epsilon
  nonterminal other expanded member shown shows := by
    rcases origin_expandAt wellFormed found member with old | ⟨rfl, inside⟩
    · exact g.first_covers.nonterminal other expanded old shown shows
    · exact g.first_covers.nonterminal other alternative (List.mem_of_getElem? found) shown
        (g.first_covers.shows_of_expandFront inside shows)

theorem covers_expandAt (expandable : isExpandable g.heads alternative = true) :
    g.Covers (firstFront (g.expandAt name position).first) where
  epsilon := (g.expandAt name position).first_covers.epsilon
  nonterminal other kept member shown shows := by
    have unchanged : ∀ inner, inner ≠ name → (g.expandAt name position).alternatives inner = g.alternatives inner :=
      fun _ => alternatives_expandAt_of_ne wellFormed found
    have inside := (g.expandAt name position).first_covers.nonterminal
    rcases kept_expandAt wellFormed found member with still | ⟨rfl, rfl⟩
    · exact inside other kept still shown shows
    · obtain ⟨expanded, becomes, shown_by⟩ := exists_expanded_shows expandable member unchanged shows
      exact inside other expanded ((mem_expandAt wellFormed found expanded).mpr (Or.inl becomes)) shown shown_by

end Expand

section Factor

variable {shared : Symbol} {restA restB : List Symbol}
  (wellFormed : g.WellFormed) (located : g.Located conflict (shared :: restA) (shared :: restB))

/-- The fresh nonterminal shows what the two remainders show, every other one what it showed. -/
private def factoredFront (g : Grammar) (fresh : Name) (restA restB : List Symbol) : Symbol → Symbol → Prop
  | .nonterminal name, shown =>
    if name = fresh then Shows (firstFront g.first) restA shown ∨ Shows (firstFront g.first) restB shown
    else shown ∈ g.first.get name
  | symbol, shown => shown = symbol

private theorem factoredFront_known {fresh : Name} {symbol : Symbol} (known : symbol ≠ .nonterminal fresh) :
    factoredFront g fresh restA restB symbol shown ↔ firstFront g.first symbol shown := by
  cases symbol with
  | nonterminal name =>
    have other : name ≠ fresh := fun same => known (congrArg _ same)
    simp [factoredFront, firstFront, other]
  | _ => exact Iff.rfl

private theorem shows_of_factoredFront {fresh : Name} {form : List Symbol} (unused : .nonterminal fresh ∉ form)
    (shows : Shows (factoredFront g fresh restA restB) form shown) : Shows (firstFront g.first) form shown :=
  shows.mono fun _ member _ => (factoredFront_known fun same => unused (same ▸ member)).mp

include located

private theorem shows_of_factored
    (shows : Shows (factoredFront g (g.freshName conflict.nonterminal) restA restB)
      [shared, .nonterminal (g.freshName conflict.nonterminal)] shown) :
    shown ∈ g.first.get conflict.nonterminal := by
  have ownedA := List.mem_of_getElem? located.earlier
  have ownedB := List.mem_of_getElem? located.later
  have unused := freshName_not_mem_alternative conflict.nonterminal ownedA
  have known : shared ≠ .nonterminal (g.freshName conflict.nonterminal) :=
    fun same => unused (same ▸ List.mem_cons_self)
  have inside := g.first_covers.nonterminal conflict.nonterminal
  rw [Shows, factoredFront_known known, factoredFront_known known, shows_singleton, factoredFront, if_pos rfl] at shows
  rcases shows with here | ⟨vanishes, behindA | behindB⟩
  · exact inside _ ownedA shown (Or.inl here)
  · exact inside _ ownedA shown (Or.inr ⟨vanishes, behindA⟩)
  · exact inside _ ownedB shown (Or.inr ⟨vanishes, behindB⟩)

include wellFormed

private theorem factorOut_covers :
    (g.factorOut conflict.nonterminal conflict.earlier conflict.later shared).Covers
      (factoredFront g (g.freshName conflict.nonterminal) restA restB) where
  epsilon _ := Iff.rfl
  nonterminal name alternative owned shown shows := by
    have unusedA := freshName_not_mem_alternative conflict.nonterminal (List.mem_of_getElem? located.earlier)
    have unusedB := freshName_not_mem_alternative conflict.nonterminal (List.mem_of_getElem? located.later)
    rcases origin_factorOut wellFormed located owned with ⟨rfl, remainder⟩ | old | ⟨rfl, rfl⟩
    · rw [factoredFront, if_pos rfl]
      rcases remainder with rfl | rfl
      · rw [shows_compact (fun _ => Iff.rfl)] at shows
        exact Or.inl (shows_of_factoredFront (fun present => unusedA (List.mem_cons_of_mem _ present)) shows)
      · rw [shows_compact (fun _ => Iff.rfl)] at shows
        exact Or.inr (shows_of_factoredFront (fun present => unusedB (List.mem_cons_of_mem _ present)) shows)
    · have known := ne_freshName wellFormed (mem_nonterminals_of_alternative old) conflict.nonterminal
      rw [factoredFront_known (by simpa using known)]
      exact g.first_covers.nonterminal name alternative old shown
        (shows_of_factoredFront (freshName_not_mem_alternative _ old) shows)
    · rw [factoredFront, if_neg (fresh_ne_nonterminal wellFormed located)]
      exact shows_of_factored located shows

private theorem covers_factorOut :
    g.Covers (firstFront (g.factorOut conflict.nonterminal conflict.earlier conflict.later shared).first) where
  epsilon := (g.factorOut conflict.nonterminal conflict.earlier conflict.later shared).first_covers.epsilon
  nonterminal name alternative owned shown shows := by
    let result := g.factorOut conflict.nonterminal conflict.earlier conflict.later shared
    have inside := result.first_covers.nonterminal
    have joined := inside _ _ (factored_mem wellFormed located) shown
    have remainder : ∀ rest, rest = restA ∨ rest = restB →
        Shows (firstFront result.first) (shared :: rest) shown → shown ∈ result.first.get conflict.nonterminal := by
      intro rest either shows
      have behind : ∀ symbol, Shows (firstFront result.first) rest symbol →
          Shows (firstFront result.first) [.nonterminal (g.freshName conflict.nonterminal)] symbol := by
        intro symbol later
        refine shows_singleton.mpr (inside _ (compact rest) (remainder_mem wellFormed located either) symbol ?_)
        exact (shows_compact result.first_covers.epsilon).mpr later
      exact joined (shows.imp_right (And.imp_right (behind shown)))
    rcases kept_factorOut wellFormed located owned with kept | ⟨rfl, rfl | rfl⟩
    · exact inside name alternative kept shown shows
    · exact remainder restA (Or.inl rfl) shows
    · exact remainder restB (Or.inr rfl) shows

end Factor

/-- A step leaves the FIRST set of every nonterminal but the fresh one as it is, also where no sentence is derived. -/
theorem Rewrites.get_first (rewrites : g.Rewrites conflict next) (wellFormed : g.WellFormed)
    (known : name ≠ g.freshName conflict.nonterminal) : next.first.get name = g.first.get name := by
  refine SymbolSet.ext fun shown => ⟨?_, ?_⟩
  · cases rewrites with
    | merge located =>
      have covers := g.first_covers.of_subset fun _ _ => (mem_alternatives_merge wellFormed located).mp
      exact first_subset covers name shown
    | @factor shared restA restB visible located =>
      intro member
      have covers := factorOut_covers wellFormed located
      have shows := covers.shows_of_mem_first ?_ name shown member
      · rwa [factoredFront_known (by simpa using known)] at shows
      · intro symbol kind
        have solid : symbol ≠ .nonterminal (g.freshName conflict.nonterminal) := by
          rintro rfl
          cases kind
        exact (factoredFront_known solid).mpr (firstFront_self g.first symbol kind)
    | expand located sides found expandable => exact first_subset (expandAt_covers wellFormed found) name shown
  · refine first_subset ?_ name shown
    cases rewrites with
    | merge located => exact (first_covers _).of_subset fun _ _ => (mem_alternatives_merge wellFormed located).mpr
    | factor visible located => exact covers_factorOut wellFormed located
    | expand located sides found expandable => exact covers_expandAt wellFormed found expandable

private theorem Rewrites.firstOfSequence_eq (rewrites : g.Rewrites conflict next) (wellFormed : g.WellFormed)
    (owned : alternative ∈ g.alternatives name) :
    firstOfSequence next.first alternative = firstOfSequence g.first alternative := by
  have same : ∀ symbol ∈ alternative, ∀ shown, firstFront next.first symbol shown ↔ firstFront g.first symbol shown := by
    intro symbol member shown
    cases symbol with
    | nonterminal inner =>
      have known : inner ≠ g.freshName conflict.nonterminal :=
        fun same => freshName_not_mem_alternative _ owned (same ▸ member)
      rw [firstFront, firstFront, rewrites.get_first wellFormed known]
    | _ => exact Iff.rfl
  refine SymbolSet.ext fun shown => mem_firstOfSequence.trans (Iff.trans ⟨?_, ?_⟩ mem_firstOfSequence.symm)
  · exact Shows.mono fun symbol member shown => (same symbol member shown).mp
  · exact Shows.mono fun symbol member shown => (same symbol member shown).mpr

/-- A nonterminal that is neither rewritten nor fresh is in the same conflicts as before. -/
theorem Rewrites.filter_conflicts (rewrites : g.Rewrites conflict next) (wellFormed : g.WellFormed)
    (elsewhere : name ≠ conflict.nonterminal) (known : name ≠ g.freshName conflict.nonterminal) :
    next.conflicts.filter (·.nonterminal = name) = g.conflicts.filter (·.nonterminal = name) := by
  rw [conflicts, conflicts, filter_conflictsWith (rewrites.wellFormed wellFormed).once,
    filter_conflictsWith wellFormed.once, rewrites.alternatives_elsewhere wellFormed elsewhere known]
  exact Rule.conflicts_congr fun alternative owned => rewrites.firstOfSequence_eq wellFormed owned

/-- A step against a conflict leaves the FIRST sets of all nonterminals as they are, and the conflicts of all but the
one that it rewrites. Only that one and the fresh one can come into conflicts, lose some or have them changed. -/
theorem resolve_local (wellFormed : g.WellFormed) (member : conflict ∈ g.conflicts) (options : FactorOptions)
    (resolved : g.resolve? options.expandIndirect g.heads conflict = some next) :
    (∀ name ∈ g.nonterminals, ∃ set, g.first.get? name = some set ∧ next.first.get? name = some set) ∧
    (∀ name ∈ g.nonterminals, name ≠ conflict.nonterminal →
      next.conflicts.filter (·.nonterminal = name) = g.conflicts.filter (·.nonterminal = name)) ∧
    (∀ other : Conflict, other.nonterminal ≠ conflict.nonterminal →
      other.nonterminal ≠ g.freshName conflict.nonterminal → (other ∈ next.conflicts ↔ other ∈ g.conflicts)) := by
  obtain ⟨a, b, located⟩ := located_of_mem wellFormed.once member
  have rewrites := rewrites_of_resolve located resolved
  have known : ∀ name ∈ g.nonterminals, name ≠ g.freshName conflict.nonterminal :=
    fun name listed => ne_freshName wellFormed listed _
  refine ⟨?_, ?_, ?_⟩
  · intro name listed
    refine ⟨g.first.get name, g.first_keyed.get? listed, ?_⟩
    rw [next.first_keyed.get? (rewrites.keeps_listed wellFormed listed), rewrites.get_first wellFormed (known name listed)]
  · exact fun name listed elsewhere => rewrites.filter_conflicts wellFormed elsewhere (known name listed)
  · intro other elsewhere unlike
    have same := rewrites.filter_conflicts wellFormed elsewhere unlike
    have selected : ∀ conflicts : List Conflict,
        other ∈ conflicts.filter (·.nonterminal = other.nonterminal) ↔ other ∈ conflicts := by simp
    rw [← selected, same, selected]

/-- Both alternatives of `S` begin with `A`, which derives no sentence but the empty one. -/
def shadowed : Grammar :=
  ⟨"S", [⟨"S", [[.nonterminal "A", .terminal "a"], [.nonterminal "A", .nonterminal "B"]]⟩,
    ⟨"A", [[.terminal "a", .nonterminal "Z"], [.epsilon]]⟩,
    ⟨"B", [[.nonterminal "S", .terminal "b"], [.terminal "b"]]⟩]⟩

theorem shadowed_local :
    let conflict : Conflict := ⟨"S", 0, 1, .ofList [.terminal "a"], .direct (.nonterminal "A")⟩
    let next := shadowed.factorOut "S" 0 1 (.nonterminal "A")
    shadowed.WellFormed ∧ conflict ∈ shadowed.conflicts ∧
      shadowed.resolve? true shadowed.heads conflict = some next ∧
      (∃ set, shadowed.first.get? "S" = some set ∧ next.first.get? "S" = some set) ∧
      next.conflicts.filter (·.nonterminal = "B") = [⟨"B", 0, 1, .ofList [.terminal "b"], .indirect⟩] := by
  intro conflict next
  have wellFormed : shadowed.WellFormed := by decide
  have member : conflict ∈ shadowed.conflicts := by decide +kernel
  obtain ⟨sets, elsewhere, _⟩ := resolve_local wellFormed member {} (rfl : _ = some next)
  refine ⟨wellFormed, member, rfl, sets "S" (by decide), (elsewhere "B" (by decide) (by decide)).trans ?_⟩
  decide +kernel

end TopDownGrammar.Grammar
