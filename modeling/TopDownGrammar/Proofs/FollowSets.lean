import TopDownGrammar.Lookahead
import TopDownGrammar.Proofs.ClosureSets
import TopDownGrammar.Proofs.FirstSets

/-! FOLLOW sets are exact. What stands behind a nonterminal somewhere in a derivation is shown by the
rest of the alternative that the nonterminal came with, or, where that rest has vanished, has
followed the owner of the alternative before. So each step of a derivation keeps to the sets. -/

namespace TopDownGrammar

variable {front : Symbol → Symbol → Prop} {outer larger : Symbol → Prop} {name : Name} {shown : Symbol}
  {form first second last : List Symbol}

/-- What can stand in front of `outer` once `rest` is put there: what the rest shows, and what was
there before if the rest can vanish. -/
def Behind (front : Symbol → Symbol → Prop) (outer : Symbol → Prop) (rest : List Symbol) (shown : Symbol) : Prop :=
  Shows front rest shown ∧ shown ≠ .epsilon ∨ Shows front rest .epsilon ∧ outer shown

/-- Some occurrence of the nonterminal in the sequence, which `outer` follows, has the symbol behind it. -/
def FollowedBy (front : Symbol → Symbol → Prop) (name : Name) (outer : Symbol → Prop) :
    List Symbol → Symbol → Prop
  | [], _ => False
  | symbol :: rest, shown =>
    symbol = .nonterminal name ∧ Behind front outer rest shown ∨ FollowedBy front name outer rest shown

private theorem behind_append :
    Behind front outer (first ++ second) shown ↔ Behind front (Behind front outer second) first shown := by
  simp only [Behind, shows_append]
  tauto

private theorem Behind.mono (below : ∀ shown, outer shown → larger shown) (behind : Behind front outer form shown) :
    Behind front larger form shown :=
  behind.imp_right (And.imp_right (below shown))

private theorem followedBy_append : FollowedBy front name outer (first ++ second) shown ↔
    FollowedBy front name (Behind front outer second) first shown ∨ FollowedBy front name outer second shown := by
  induction first with
  | nil => simp [FollowedBy]
  | cons symbol rest ih => simp only [List.cons_append, FollowedBy, behind_append, ih, or_assoc]

theorem FollowedBy.mono (below : ∀ shown, outer shown → larger shown)
    (followed : FollowedBy front name outer form shown) : FollowedBy front name larger form shown := by
  induction form with
  | nil => exact followed
  | cons symbol rest ih => exact followed.imp (And.imp_right (Behind.mono below)) ih

private theorem followedBy_visible (still : ∀ shown, front .epsilon shown ↔ shown = .epsilon) :
    FollowedBy front name outer (visible form) shown ↔ FollowedBy front name outer form shown := by
  have behind : ∀ rest, Behind front outer (visible rest) shown ↔ Behind front outer rest shown := by
    intro rest
    simp only [Behind, shows_visible still]
  induction form with
  | nil => exact Iff.rfl
  | cons symbol rest ih =>
    cases symbol with
    | epsilon => simp [FollowedBy, ih]
    | _ => exact or_congr (and_congr Iff.rfl (behind rest)) ih

theorem followedBy_iff : FollowedBy front name outer form shown ↔
    ∃ before after, form = before ++ .nonterminal name :: after ∧ Behind front outer after shown := by
  constructor
  · intro followed
    induction form with
    | nil => exact followed.elim
    | cons symbol rest ih =>
      rcases followed with ⟨rfl, behind⟩ | later
      · exact ⟨[], rest, rfl, behind⟩
      · obtain ⟨before, after, rfl, behind⟩ := ih later
        exact ⟨symbol :: before, after, rfl, behind⟩
  · intro found
    obtain ⟨before, after, rfl, behind⟩ := found
    exact followedBy_append.mpr (Or.inr (Or.inl ⟨rfl, behind⟩))

/-- What one occurrence of a nonterminal gives to its set, with `rest` behind it and `outer` following the owner. -/
def givenBehind (first : SetFamily) (outer : SymbolSet) (rest : List Symbol) : SymbolSet :=
  let behind := firstOfSequence first rest
  if .epsilon ∈ behind then behind.erase .epsilon ∪ outer else behind

theorem mem_givenBehind {family : SetFamily} {set : SymbolSet} : shown ∈ givenBehind family set form ↔
    Behind (firstFront family) (· ∈ set) form shown := by
  rw [givenBehind, mem_ite_epsilon, mem_firstOfSequence, mem_firstOfSequence, Behind]

private theorem followers_cons (first : SetFamily) (name : Name) (outer : SymbolSet) (symbol : Symbol) (rest : List Symbol) :
    followers first name outer (symbol :: rest) =
      if symbol = .nonterminal name then givenBehind first outer rest ∪ followers first name outer rest
      else followers first name outer rest := rfl

private theorem mem_followers {family : SetFamily} {set : SymbolSet} : shown ∈ followers family name set form ↔
    FollowedBy (firstFront family) name (· ∈ set) form shown := by
  induction form with
  | nil => simp [followers, FollowedBy]
  | cons symbol rest ih =>
    rw [followers_cons, FollowedBy]
    split
    next same => rw [SymbolSet.mem_union, mem_givenBehind, ih, and_iff_right same]
    next different => rw [ih, or_iff_right fun both => different both.1]

namespace Grammar

variable {g : Grammar} {follows : Name → Symbol → Prop}

/-- Behind the nonterminals of an alternative follows what the alternative shows there, and what
follows its owner where the rest can vanish. -/
structure Inherits (g : Grammar) (front : Symbol → Symbol → Prop) (follows : Name → Symbol → Prop) : Prop where
  covers : g.Covers front
  inherit : ∀ owner, ∀ alternative ∈ g.alternatives owner, ∀ name shown,
    FollowedBy front name (follows owner) alternative shown → follows name shown

/-- A step moves what follows the nonterminal replaced to the end of the alternative put there. -/
theorem Inherits.step (inherits : g.Inherits front follows) (step : g.Step first second)
    (tracked : ∀ name shown, FollowedBy front name outer first shown → follows name shown) :
    ∀ name shown, FollowedBy front name outer second shown → follows name shown := by
  cases step with
  | @replace before after owner alternative owned =>
    intro name shown followed
    rw [followedBy_visible inherits.covers.epsilon, List.append_assoc, followedBy_append,
      followedBy_append] at followed
    simp only [followedBy_append, FollowedBy] at tracked
    rcases followed with inBefore | inAlternative | inAfter
    · refine tracked name shown (Or.inl (inBefore.mono ?_))
      have shows : ∀ symbol, Shows front (alternative ++ after) symbol →
          Shows front (.nonterminal owner :: after) symbol := by
        intro symbol there
        refine inherits.covers.shows_of_step (.replace [] after owned) ?_
        exact (shows_visible inherits.covers.epsilon).mpr there
      exact fun symbol behind => behind.imp (And.imp_left (shows symbol)) (And.imp_left (shows .epsilon))
    · refine inherits.inherit owner alternative owned name shown (inAlternative.mono ?_)
      exact fun symbol behind => tracked owner symbol (Or.inr (Or.inl ⟨rfl, behind⟩))
    · exact tracked name shown (Or.inr (Or.inr inAfter))

theorem Inherits.derives (inherits : g.Inherits front follows) (derives : g.Derives first last)
    (tracked : ∀ name shown, FollowedBy front name outer first shown → follows name shown) :
    ∀ name shown, FollowedBy front name outer last shown → follows name shown := by
  induction derives with
  | refl => exact tracked
  | step step _ ih => exact ih (inherits.step step tracked)

theorem Inherits.of_nonterminal (inherits : g.Inherits front follows) {owner : Name}
    (derives : g.Derives [.nonterminal owner] last) (followed : FollowedBy front name (follows owner) last shown) :
    follows name shown := by
  refine inherits.derives derives ?_ name shown followed
  intro name shown alone
  rcases alone with ⟨same, ⟨absurdly, solid⟩ | ⟨_, follows⟩⟩ | none
  · exact absurd absurdly solid
  · exact Symbol.nonterminal.inj same ▸ follows
  · exact none.elim

/-- What the FOLLOW set of a nonterminal is to hold. -/
def Follows (g : Grammar) (name : Name) : Symbol → Prop
  | .terminal text => ∃ owner ∈ g.nonterminals, ∃ before after,
      g.Derives [.nonterminal owner] (before ++ .nonterminal name :: .terminal text :: after)
  | .endOfInput => ∃ before, g.Derives [.nonterminal g.start] (before ++ [.nonterminal name])
  | _ => False

theorem mem_followKeys {name : Name} : name ∈ g.followKeys ↔ name ∈ g.nonterminals ∨ name = g.start := by
  unfold followKeys
  split
  next owned =>
    refine (or_iff_left_of_imp ?_).symm
    rintro rfl
    exact owns_iff.mp owned
  next => simp

theorem growFollow_draws (g : Grammar) (first : SetFamily) :
    SetFamily.Draws g.followKeys
      (fun follow name shown => ∃ production ∈ g.productions,
        FollowedBy (firstFront first) name (· ∈ follow.get production.lhs) production.rhs shown)
      (g.growFollow first) where
  keyed _ := SetFamily.keyed_tabulate _ _
  mem follow name listed shown := by
    simp only [growFollow, SetFamily.get_tabulate listed, mem_foldl_union, mem_followers]

theorem follow_keyed (g : Grammar) : g.follow.Keyed g.followKeys :=
  (g.growFollow_draws g.first).settle_keyed (SetFamily.keyed_tabulate _ _)

theorem mem_seed {name : Name} {shown : Symbol} :
    shown ∈ (SetFamily.tabulate g.followKeys fun name => if name = g.start then {.endOfInput} else ∅).get name ↔
      name = g.start ∧ shown = .endOfInput := by
  by_cases listed : name ∈ g.followKeys
  · rw [SetFamily.get_tabulate listed]
    split <;> simp_all
  · refine iff_of_false (mt (SetFamily.keyed_tabulate _ _).listed listed) ?_
    exact fun both => listed (mem_followKeys.mpr (Or.inr both.1))

def followScope (g : Grammar) (first : SetFamily) : List Symbol :=
  .endOfInput :: (g.occurrences ++ first.members)

theorem mem_followScope {first follow : SetFamily} {production : Production} {name : Name} {shown : Symbol}
    (inside : ∀ name, ∀ symbol ∈ follow.get name, symbol ∈ g.followScope first) (member : production ∈ g.productions)
    (followed : FollowedBy (firstFront first) name (· ∈ follow.get production.lhs) production.rhs shown) :
    shown ∈ g.followScope first := by
  obtain ⟨before, after, same, ⟨shows, solid⟩ | ⟨_, outer⟩⟩ := followedBy_iff.mp followed
  · refine List.mem_cons_of_mem _ (List.mem_append.mpr ?_)
    rcases (origin_first shows).resolve_left solid with ⟨occurs, _⟩ | ⟨other, known⟩
    · exact Or.inl (List.mem_flatMap.mpr ⟨production, member, by simp [same, occurs]⟩)
    · exact Or.inr (SetFamily.get_subset_members shown known)
  · exact inside production.lhs shown outer

/-- Another round changes nothing, whatever the FIRST sets hold. -/
theorem growFollow_followWith (g : Grammar) (first : SetFamily) :
    g.growFollow first (g.followWith first) = g.followWith first := by
  refine (g.growFollow_draws first).settle_fixed (g.followScope first) (SetFamily.keyed_tabulate _ _) ?_ ?_ ?_
  · exact fun name shown member => (mem_seed.mp member).2 ▸ List.mem_cons_self
  · intro follow inside name shown drawn
    obtain ⟨production, member, followed⟩ := drawn
    exact mem_followScope inside member followed
  · simp [followScope, Nat.add_comm]

theorem followWith_closed {first : SetFamily} {production : Production} {name : Name} {shown : Symbol}
    (member : production ∈ g.productions) (listed : name ∈ g.followKeys)
    (followed : FollowedBy (firstFront first) name (· ∈ (g.followWith first).get production.lhs) production.rhs shown) :
    shown ∈ (g.followWith first).get name := by
  rw [← growFollow_followWith]
  exact ((g.growFollow_draws first).mem _ name listed shown).mpr (Or.inr ⟨production, member, followed⟩)

theorem endOfInput_mem_followWith (g : Grammar) (first : SetFamily) :
    .endOfInput ∈ (g.followWith first).get g.start :=
  (g.growFollow_draws first).seed_subset_settle (mem_followKeys.mpr (Or.inr rfl)) _ (mem_seed.mpr ⟨rfl, rfl⟩)

private theorem Follows.inherit {owner name : Name} {shown : Symbol} {before : List Symbol}
    (ends : g.Derives [.nonterminal owner] (before ++ [.nonterminal name])) (follows : g.Follows owner shown) :
    g.Follows name shown := by
  cases shown with
  | terminal text =>
    obtain ⟨root, listed, front, rear, derives⟩ := follows
    have plain := derives.plain (by simp)
    have plainFront : .epsilon ∉ front := fun inside => plain (List.mem_append_left _ inside)
    have plainRear : .epsilon ∉ .terminal text :: rear :=
      fun inside => plain (List.mem_append_right _ (List.mem_cons_of_mem _ inside))
    refine ⟨root, listed, front ++ before, rear, derives.trans ?_⟩
    simpa using ends.surround plainFront plainRear
  | endOfInput =>
    obtain ⟨front, derives⟩ := follows
    have plain := derives.plain (by simp)
    have plainFront : .epsilon ∉ front := fun inside => plain (List.mem_append_left _ inside)
    refine ⟨front ++ before, derives.trans ?_⟩
    simpa using ends.surround plainFront List.not_mem_nil
  | _ => exact follows.elim

theorem follow_sound (wellFormed : g.WellFormed) : ∀ name, ∀ shown ∈ g.follow.get name, g.Follows name shown := by
  refine (g.growFollow_draws g.first).settle_induction g.Follows ?_ ?_
  · intro name shown member
    obtain ⟨rfl, rfl⟩ := mem_seed.mp member
    exact ⟨[], .refl _⟩
  · intro follow known name shown drawn
    obtain ⟨⟨owner, rhs⟩, listed, followed⟩ := drawn
    obtain ⟨before, after, rfl, behind⟩ := followedBy_iff.mp followed
    have owned := (mem_alternatives wellFormed.once).mpr listed
    have unmarked : .endOfInput ∉ after :=
      fun inside => wellFormed.unmarked owned (List.mem_append_right _ (List.mem_cons_of_mem _ inside))
    have derives := derives_alternative owned
    rw [visible_append, visible_nonterminal] at derives
    have front : .epsilon ∉ visible before ++ [.nonterminal name] := by simp [epsilon_not_mem_visible]
    rcases behind with ⟨shows, solid⟩ | ⟨vanishes, outer⟩
    · have begins := begins_of_shows unmarked (first_sound wellFormed) shows
      cases shown with
      | terminal text =>
        obtain ⟨rest, more⟩ := begins
        refine ⟨owner, lhs_mem_nonterminals listed, visible before, rest, derives.trans ?_⟩
        simpa using more.surround front List.not_mem_nil
      | epsilon => exact absurd rfl solid
      | _ => exact begins.elim
    · have gone : g.Derives (visible after) [] := begins_of_shows unmarked (first_sound wellFormed) vanishes
      have ends : g.Derives [.nonterminal owner] (visible before ++ [.nonterminal name]) :=
        derives.trans (by simpa using gone.surround front List.not_mem_nil)
      exact (known owner shown outer).inherit ends

theorem follow_inherits (g : Grammar) :
    g.Inherits (firstFront g.first) (fun name shown => name ∈ g.followKeys → shown ∈ g.follow.get name) where
  covers := g.first_covers
  inherit owner alternative owned name shown followed listed := by
    have keyed : owner ∈ g.followKeys := mem_followKeys.mpr (Or.inl (mem_nonterminals_of_alternative owned))
    exact followWith_closed (production_of_alternative owned) listed (followed.mono fun symbol follows => follows keyed)

theorem mem_follow {name : Name} {shown : Symbol} (wellFormed : g.WellFormed) (listed : name ∈ g.followKeys) :
    shown ∈ g.follow.get name ↔ g.Follows name shown := by
  refine ⟨follow_sound wellFormed name shown, ?_⟩
  intro follows
  cases shown with
  | terminal text =>
    obtain ⟨owner, _, before, after, derives⟩ := follows
    refine g.follow_inherits.of_nonterminal derives (followedBy_iff.mpr ⟨before, _, rfl, Or.inl ⟨?_, ?_⟩⟩) listed
    · exact Or.inl ⟨rfl, by simp⟩
    · simp
  | endOfInput =>
    obtain ⟨before, derives⟩ := follows
    exact g.follow_inherits.of_nonterminal derives
      (followedBy_iff.mpr ⟨before, [], rfl, Or.inr ⟨rfl, fun _ => g.endOfInput_mem_followWith g.first⟩⟩) listed
  | _ => exact follows.elim

private theorem listed_of_derives {owner : Name} (derives : g.Derives [.nonterminal owner] last)
    (moved : last ≠ [.nonterminal owner]) : owner ∈ g.nonterminals := by
  cases derives with
  | refl => exact absurd rfl moved
  | step step _ =>
    obtain ⟨alternative, owned, _⟩ := step_nonterminal.mp step
    exact mem_nonterminals_of_alternative owned

/-- The nonterminals with rules and the start have the FOLLOW set that derivations give them. A
derivation from the start is as good as one from any nonterminal with rules if all these are
reachable. -/
theorem follow_exact (wellFormed : g.WellFormed) :
    g.follow.keys = (if g.start ∈ g.nonterminals then g.nonterminals else g.nonterminals ++ [g.start]) ∧
    (∀ name ∈ g.follow.keys, ∃ set, g.follow.get? name = some set ∧
      ∀ symbol, symbol ∈ set ↔ g.Follows name symbol) ∧
    ((∀ name ∈ g.nonterminals, .nonterminal name ∈ g.reachable) →
      ∀ name ∈ g.follow.keys, ∃ set, g.follow.get? name = some set ∧ ∀ text, .terminal text ∈ set ↔
        ∃ before after, g.Derives [.nonterminal g.start] (before ++ .nonterminal name :: .terminal text :: after)) := by
  have keys : g.follow.keys = g.followKeys := g.follow_keyed.keys
  refine ⟨?_, ?_, ?_⟩
  · simp only [keys, followKeys, owns_iff]
  · intro name keyed
    rw [keys] at keyed
    exact ⟨_, g.follow_keyed.get? keyed, fun _ => mem_follow wellFormed keyed⟩
  · intro reached name keyed
    rw [keys] at keyed
    refine ⟨_, g.follow_keyed.get? keyed, fun text => ?_⟩
    rw [mem_follow wellFormed keyed]
    constructor
    · intro follows
      obtain ⟨owner, listed, before, after, derives⟩ := follows
      obtain ⟨front, rear, plainFront, plainRear, leads⟩ :=
        derives_of_leads ((nonterminal_mem_reachable wellFormed.once).mp (reached owner listed))
      refine ⟨front ++ before, after ++ rear, leads.trans ?_⟩
      simpa using derives.surround plainFront plainRear
    · intro derived
      obtain ⟨before, after, derives⟩ := derived
      exact ⟨g.start, listed_of_derives derives (by simp [List.append_eq_singleton_iff]), before, after, derives⟩

def trailing : Grammar :=
  ⟨"S", [⟨"S", [[.nonterminal "A", .nonterminal "B", .epsilon, .nonterminal "C"]]⟩,
    ⟨"A", [[.terminal "a", .nonterminal "A"], [.nonterminal "B", .nonterminal "Z"]]⟩,
    ⟨"B", [[.terminal "b"], [.epsilon, .nonterminal "C"]]⟩,
    ⟨"C", [[.terminal "c", .nonterminal "S"], [.epsilon]]⟩]⟩

theorem trailing_follow :
    trailing.WellFormed ∧
      (∃ before, trailing.Derives [.nonterminal "S"] (before ++ [.nonterminal "A"])) ∧
      (∃ before after, trailing.Derives [.nonterminal "S"] (before ++ .nonterminal "A" :: .terminal "c" :: after)) ∧
      ¬∃ before after, trailing.Derives [.nonterminal "S"] (before ++ .nonterminal "A" :: .terminal "a" :: after) := by
  have wellFormed : trailing.WellFormed := by decide
  obtain ⟨_, sets, fromStart⟩ := follow_exact wellFormed
  have keyed : "A" ∈ trailing.follow.keys := by decide +kernel
  have reached : ∀ name ∈ trailing.nonterminals, .nonterminal name ∈ trailing.reachable := by decide +kernel
  obtain ⟨set, found, follows⟩ := sets "A" keyed
  obtain ⟨same, foundAgain, derived⟩ := fromStart reached "A" keyed
  have lookedUp : trailing.follow.get? "A" = some (.ofList [.terminal "b", .terminal "c", .endOfInput]) := by
    decide +kernel
  obtain rfl := Option.some.inj (found.symm.trans lookedUp)
  obtain rfl := Option.some.inj (foundAgain.symm.trans lookedUp)
  exact ⟨wellFormed, (follows .endOfInput).mp (by decide), (derived "c").mp (by decide),
    mt (derived "a").mpr (by decide)⟩

end Grammar

end TopDownGrammar
