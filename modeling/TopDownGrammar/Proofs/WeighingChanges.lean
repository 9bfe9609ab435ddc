import TopDownGrammar.Proofs.Weighings

/-! Changes of a weighing with the alternatives of one nonterminal. Cheaper alternatives may take the place of
others, and a nonterminal that occurs nowhere may be given some, so a front that two alternatives share may
be taken out. The potential falls, because one nonterminal outweighs two of lesser cost. -/

namespace TopDownGrammar.Weighing

variable {w : Weighing} {owned : Name → List Alternative} {name other : Name} {symbol : Symbol}
  {symbols : List Symbol} {alternatives : List Alternative} {fee behind : Nat} {cost : Nat → Nat}

def lower (w : Weighing) (name : Name) (cost : Nat → Nat) : Weighing :=
  { w with cost := Function.update w.cost name cost }

@[simp] private theorem cost_lower_self : (w.lower name cost).cost name = cost :=
  Function.update_self ..

private theorem cost_lower_of_ne (different : other ≠ name) : (w.lower name cost).cost other = w.cost other :=
  Function.update_of_ne different ..

@[simp] private theorem symbolFee_lower : (w.lower name cost).symbolFee symbol = w.symbolFee symbol := by
  cases symbol <;> rfl

private theorem carries_lower (carries : w.Carries fee symbols) : (w.lower name cost).Carries fee symbols :=
  ⟨by simpa using carries.all, by simpa using carries.inner⟩

private theorem sequenceCost_lower_le (splits : ∀ name, Splits (w.fee name) 0 (w.cost name))
    (cheaper : ∀ behind, cost behind ≤ w.cost name behind) (symbols : List Symbol) (behind : Nat) :
    (w.lower name cost).sequenceCost symbols behind ≤ w.sequenceCost symbols behind := by
  induction symbols with
  | nil => exact Nat.le_refl _
  | cons symbol rest ih =>
    have mono := (splits_symbol splits (Nat.zero_le (w.symbolFee symbol))).mono
    have here : ∀ value, (w.lower name cost).symbolCost symbol value ≤ w.symbolCost symbol value := by
      intro value
      cases symbol with
      | nonterminal other =>
        rcases eq_or_ne other name with rfl | different
        · simpa only [symbolCost, cost_lower_self] using cheaper value
        · simp only [symbolCost, cost_lower_of_ne different, le_refl]
      | _ => exact Nat.le_refl _
    exact (here _).trans (mono ih)

private theorem total_le_total {w' : Weighing} (cheaper : ∀ alternative ∈ alternatives,
    w'.sequenceCost alternative behind ≤ w.sequenceCost alternative behind) :
    w'.total fee alternatives behind ≤ w.total fee alternatives behind :=
  List.sum_le_sum fun alternative member => Nat.add_le_add_right (cheaper alternative member) fee

/-- Alternatives that cost no more may take the place of those that a nonterminal owns. -/
theorem Weighs.replace (weighs : w.Weighs owned) (some : alternatives ≠ [])
    (carries : ∀ alternative ∈ alternatives, w.Carries (w.fee name) alternative)
    (cheaper : ∀ behind, w.total (w.fee name) alternatives behind ≤ w.cost name behind) :
    (w.lower name (w.total (w.fee name) alternatives)).Weighs (Function.update owned name alternatives) := by
  have less : ∀ fee alternatives' behind,
      (w.lower name (w.total (w.fee name) alternatives)).total fee alternatives' behind ≤ w.total fee alternatives' behind :=
    fun fee alternatives' behind => total_le_total fun alternative _ =>
      sequenceCost_lower_le weighs.splits cheaper alternative behind
  refine ⟨weighs.positive, weighs.bounded, fun other => ?_, fun other => ?_, fun other behind => ?_⟩
  all_goals rcases eq_or_ne other name with rfl | different
  · rw [cost_lower_self]
    exact splits_total weighs.splits some carries
  · rw [cost_lower_of_ne different]
    exact weighs.splits other
  · rw [Function.update_self]
    exact fun alternative member => carries_lower (carries alternative member)
  · rw [Function.update_of_ne different]
    exact fun alternative member => carries_lower (weighs.carries other alternative member)
  · rw [Function.update_self, cost_lower_self]
    exact less _ _ behind
  · rw [Function.update_of_ne different, cost_lower_of_ne different]
    exact (less _ _ behind).trans (weighs.covers other behind)

def introduce (w : Weighing) (name : Name) (fee : Nat) (cost : Nat → Nat) : Weighing :=
  { w with cost := Function.update w.cost name cost, fee := Function.update w.fee name fee }

@[simp] private theorem fee_introduce_self : (w.introduce name fee cost).fee name = fee :=
  Function.update_self ..

private theorem fee_introduce_of_ne (different : other ≠ name) : (w.introduce name fee cost).fee other = w.fee other :=
  Function.update_of_ne different ..

@[simp] private theorem cost_introduce_self : (w.introduce name fee cost).cost name = cost :=
  Function.update_self ..

private theorem cost_introduce_of_ne (different : other ≠ name) : (w.introduce name fee cost).cost other = w.cost other :=
  Function.update_of_ne different ..

private theorem symbolFee_introduce (different : symbol ≠ .nonterminal name) :
    (w.introduce name fee cost).symbolFee symbol = w.symbolFee symbol := by
  cases symbol with
  | nonterminal other =>
    exact fee_introduce_of_ne fun same => different (same ▸ rfl)
  | _ => rfl

private theorem sequenceCost_introduce (absent : .nonterminal name ∉ symbols) :
    (w.introduce name fee cost).sequenceCost symbols behind = w.sequenceCost symbols behind := by
  induction symbols with
  | nil => rfl
  | cons symbol rest ih =>
    rw [List.mem_cons, not_or] at absent
    rw [sequenceCost_cons, sequenceCost_cons, ih absent.2]
    cases symbol with
    | nonterminal other =>
      have apart : other ≠ name := fun same => absent.1 (same ▸ rfl)
      simp only [symbolCost, cost_introduce_of_ne apart]
    | _ => rfl

private theorem total_introduce {less : Nat} (absent : ∀ alternative ∈ alternatives, .nonterminal name ∉ alternative) :
    (w.introduce name fee cost).total less alternatives behind = w.total less alternatives behind :=
  congrArg List.sum (List.map_congr_left fun alternative member =>
    congrArg (· + less) (sequenceCost_introduce (absent alternative member)))

private theorem carries_introduce {less : Nat} (absent : .nonterminal name ∉ symbols) (carries : w.Carries less symbols) :
    (w.introduce name fee cost).Carries less symbols := by
  have kept : ∀ symbol ∈ symbols, (w.introduce name fee cost).symbolFee symbol = w.symbolFee symbol :=
    fun symbol member => symbolFee_introduce fun same => absent (same ▸ member)
  refine ⟨fun symbol member => (carries.all symbol member).trans (kept symbol member).ge, ?_⟩
  exact carries.inner.imp_of_mem fun here _ enough => enough.trans (kept _ here).ge

/-- A nonterminal that occurs nowhere may be given alternatives at any fee that terminals can bear. -/
theorem Weighs.introduce (weighs : w.Weighs owned)
    (absent : ∀ other, ∀ alternative ∈ owned other, .nonterminal name ∉ alternative)
    (positive : 1 ≤ fee) (bounded : 4 * fee ≤ w.terminal) (some : alternatives ≠ [])
    (carries : ∀ alternative ∈ alternatives, w.Carries fee alternative)
    (without : ∀ alternative ∈ alternatives, .nonterminal name ∉ alternative) :
    (w.introduce name fee (w.total fee alternatives)).Weighs (Function.update owned name alternatives) := by
  refine ⟨fun other => ?_, fun other => ?_, fun other => ?_, fun other => ?_, fun other behind => ?_⟩
  all_goals rcases eq_or_ne other name with rfl | different
  · rw [fee_introduce_self]
    exact positive
  · rw [fee_introduce_of_ne different]
    exact weighs.positive other
  · rw [fee_introduce_self]
    exact bounded
  · rw [fee_introduce_of_ne different]
    exact weighs.bounded other
  · rw [fee_introduce_self, cost_introduce_self]
    exact splits_total weighs.splits some carries
  · rw [fee_introduce_of_ne different, cost_introduce_of_ne different]
    exact weighs.splits other
  · rw [fee_introduce_self, Function.update_self]
    exact fun alternative member => carries_introduce (without alternative member) (carries alternative member)
  · rw [fee_introduce_of_ne different, Function.update_of_ne different]
    exact fun alternative member =>
      carries_introduce (absent other alternative member) (weighs.carries other alternative member)
  · rw [fee_introduce_self, Function.update_self, cost_introduce_self, total_introduce without]
  · rw [fee_introduce_of_ne different, Function.update_of_ne different, cost_introduce_of_ne different,
      total_introduce (absent other)]
    exact weighs.covers other behind

/-! The potential of nonterminals. -/

def potential (w : Weighing) (names : List Name) : Nat :=
  (names.map fun name => 3 ^ w.cost name 0).sum

private theorem potential_congr {w' : Weighing} {names : List Name} (same : ∀ name ∈ names, w'.cost name 0 = w.cost name 0) :
    w'.potential names = w.potential names :=
  congrArg List.sum (List.map_congr_left fun name member => congrArg (3 ^ ·) (same name member))

/-- The potential falls with the cost of one nonterminal, also if some of the fall is used up. -/
theorem potential_lower_lt {names : List Name} (once : names.Nodup) (listed : name ∈ names) (used : Nat)
    (cheaper : used + 3 ^ cost 0 < 3 ^ w.cost name 0) :
    used + (w.lower name cost).potential names < w.potential names := by
  have parts := List.perm_cons_erase listed
  have others : (w.lower name cost).potential (names.erase name) = w.potential (names.erase name) := by
    refine potential_congr fun other member => ?_
    have different : other ≠ name := fun same => once.not_mem_erase (same ▸ member)
    rw [cost_lower_of_ne different]
  have split : ∀ w : Weighing, w.potential names = 3 ^ w.cost name 0 + w.potential (names.erase name) :=
    fun w => (parts.map fun name => 3 ^ w.cost name 0).sum_eq
  rw [split w, split (w.lower name cost), others, cost_lower_self]
  omega

private theorem pow_add_pow_lt {first second whole : Nat} (firstBelow : first < whole) (secondBelow : second < whole) :
    3 ^ first + 3 ^ second < 3 ^ whole := by
  obtain ⟨most, rfl⟩ : ∃ most, whole = most + 1 := ⟨whole - 1, by omega⟩
  have one : 3 ^ first ≤ 3 ^ most := Nat.pow_le_pow_right (by decide) (by omega)
  have two : 3 ^ second ≤ 3 ^ most := Nat.pow_le_pow_right (by decide) (by omega)
  have positive : 0 < 3 ^ most := Nat.pow_pos (by decide)
  rw [Nat.pow_succ]
  omega

/-! A front that two alternatives share. -/

section Factor

variable {shared : Symbol} {restA restB : List Symbol} {others shortened : List Alternative} {fresh : Name}

/-- What is left behind a shared front, paid together, leaves room for the fee of a symbol that stands before it. -/
private theorem total_remainders_le (weighs : w.Weighs owned) (name : Name) (restA restB : List Symbol) (behind : Nat) :
    w.total (w.fee name) [compact restA, compact restB] behind ≤
      w.sequenceCost restA behind + w.sequenceCost restB behind + 4 * w.fee name := by
  have first := sequenceCost_compact_le weighs.splits restA behind
  have second := sequenceCost_compact_le weighs.splits restB behind
  have positive := weighs.positive name
  rw [total_cons, total_cons]
  simp only [total, List.map_nil, List.sum_nil]
  omega

/-- The weighing with the fresh nonterminal, which is to own what is left behind the shared front. -/
def splitOff (w : Weighing) (name fresh : Name) (restA restB : List Symbol) : Weighing :=
  w.introduce fresh (w.fee name) (w.total (w.fee name) [compact restA, compact restB])

private theorem fee_splitOff_fresh : (w.splitOff name fresh restA restB).fee fresh = w.fee name :=
  fee_introduce_self

private theorem cost_splitOff_fresh :
    (w.splitOff name fresh restA restB).cost fresh = w.total (w.fee name) [compact restA, compact restB] :=
  cost_introduce_self

private theorem fee_splitOff (apart : other ≠ fresh) : (w.splitOff name fresh restA restB).fee other = w.fee other :=
  fee_introduce_of_ne apart

private theorem cost_splitOff (apart : other ≠ fresh) : (w.splitOff name fresh restA restB).cost other = w.cost other :=
  cost_introduce_of_ne apart

def factored (w : Weighing) (name fresh : Name) (restA restB : List Symbol) (shortened : List Alternative) : Weighing :=
  (w.splitOff name fresh restA restB).lower name ((w.splitOff name fresh restA restB).total (w.fee name) shortened)

/-- Two alternatives of a nonterminal that begin alike, a nonterminal that occurs nowhere, and the alternatives
once it stands for what follows the shared front. -/
structure Shared (owned : Name → List Alternative) (name fresh : Name) (shared : Symbol) (restA restB : List Symbol)
    (others shortened : List Alternative) : Prop where
  solid : shared ≠ .epsilon
  different : restA ≠ restB
  absent : ∀ other, ∀ alternative ∈ owned other, .nonterminal fresh ∉ alternative
  apart : name ≠ fresh
  own : (owned name).Perm ((shared :: restA) :: (shared :: restB) :: others)
  kept : shortened.Perm ([shared, .nonterminal fresh] :: others)

variable (both : Shared owned name fresh shared restA restB others shortened) (weighs : w.Weighs owned)

include both

private theorem Shared.ownedA : shared :: restA ∈ owned name :=
  both.own.mem_iff.mpr List.mem_cons_self

private theorem Shared.ownedB : shared :: restB ∈ owned name :=
  both.own.mem_iff.mpr (List.mem_cons_of_mem _ List.mem_cons_self)

private theorem Shared.ownedOther {alternative : Alternative} (member : alternative ∈ others) : alternative ∈ owned name :=
  both.own.mem_iff.mpr (List.mem_cons_of_mem _ (List.mem_cons_of_mem _ member))

private theorem Shared.unlike : shared ≠ .nonterminal fresh :=
  fun same => both.absent name _ both.ownedA (same ▸ List.mem_cons_self)

include weighs

/-- Something stands behind the shared front in one of the alternatives. -/
private theorem Shared.high : 4 * w.fee name ≤ w.symbolFee shared := by
  have ahead : ∀ rest, shared :: rest ∈ owned name → rest ≠ [] → 4 * w.fee name ≤ w.symbolFee shared := by
    intro rest member some
    obtain ⟨next, later⟩ := List.exists_mem_of_ne_nil rest some
    exact (List.pairwise_cons.mp (weighs.carries name _ member).inner).1 next later
  by_cases none : restA = []
  · exact ahead restB both.ownedB fun empty => both.different (none.trans empty.symm)
  · exact ahead restA both.ownedA none

/-- The shared front is cheaper once, before all that is left, than before each of the two parts. -/
private theorem Shared.once_le (behind : Nat) :
    w.symbolCost shared (w.total (w.fee name) [compact restA, compact restB] behind) ≤
      w.sequenceCost (shared :: restA) behind + w.sequenceCost (shared :: restB) behind := by
  have splits := splits_solid weighs.splits both.solid (both.high weighs)
  exact (splits.mono (total_remainders_le weighs name restA restB behind)).trans (splits.split _ _)

private theorem Shared.covers (behind : Nat) :
    w.symbolCost shared (w.total (w.fee name) [compact restA, compact restB] behind) + w.fee name +
      w.total (w.fee name) others behind < w.cost name behind := by
  have covers := weighs.covers name behind
  rw [total_perm both.own, total_cons, total_cons] at covers
  have once := both.once_le weighs behind
  have positive := weighs.positive name
  omega

private theorem Shared.splitOff_weighs : (w.splitOff name fresh restA restB).Weighs
    (Function.update owned fresh [compact restA, compact restB]) := by
  have remainder : ∀ rest, shared :: rest ∈ owned name →
      w.Carries (w.fee name) (compact rest) ∧ .nonterminal fresh ∉ compact rest := by
    intro rest member
    constructor
    · exact ((weighs.carries name _ member).sublist (List.sublist_cons_self _ _)).compacted
        ((Nat.le_mul_of_pos_left _ (by decide)).trans (weighs.bounded name))
    · intro inside
      rcases mem_written inside with equal | visible
      · cases equal
      · exact both.absent name _ member (List.mem_cons_of_mem _ (mem_visible.mp visible).1)
  have first := remainder restA both.ownedA
  have second := remainder restB both.ownedB
  refine weighs.introduce both.absent (weighs.positive name) (weighs.bounded name) (by simp) ?_ ?_
  · exact List.forall_mem_cons.mpr ⟨first.1, List.forall_mem_singleton.mpr second.1⟩
  · exact List.forall_mem_cons.mpr ⟨first.2, List.forall_mem_singleton.mpr second.2⟩

private theorem Shared.total_shortened_lt (behind : Nat) :
    (w.splitOff name fresh restA restB).total (w.fee name) shortened behind < w.cost name behind := by
  have front : ∀ value, (w.splitOff name fresh restA restB).symbolCost shared value = w.symbolCost shared value := by
    intro value
    have alone : (w.splitOff name fresh restA restB).sequenceCost [shared] value = w.sequenceCost [shared] value :=
      sequenceCost_introduce (by simpa using both.unlike.symm)
    exact alone
  have joined : (w.splitOff name fresh restA restB).sequenceCost [shared, .nonterminal fresh] behind =
      w.symbolCost shared (w.total (w.fee name) [compact restA, compact restB] behind) := by
    rw [← front, ← cost_splitOff_fresh]
    rfl
  have elsewhere : (w.splitOff name fresh restA restB).total (w.fee name) others behind =
      w.total (w.fee name) others behind :=
    total_introduce fun alternative member => both.absent name alternative (both.ownedOther member)
  rw [total_perm both.kept, total_cons, joined, elsewhere]
  exact both.covers weighs behind

private theorem Shared.carries_shortened : ∀ alternative ∈ shortened,
    (w.splitOff name fresh restA restB).Carries (w.fee name) alternative := by
  intro alternative member
  rcases List.mem_cons.mp (both.kept.mem_iff.mp member) with rfl | old
  · have high := both.high weighs
    have feeShared : (w.splitOff name fresh restA restB).symbolFee shared = w.symbolFee shared :=
      symbolFee_introduce both.unlike
    refine ⟨List.forall_mem_cons.mpr ⟨?_, List.forall_mem_singleton.mpr ?_⟩, List.pairwise_pair.mpr ?_⟩
    · rw [feeShared]
      omega
    · exact fee_splitOff_fresh.ge
    · exact feeShared.symm ▸ high
  · exact carries_introduce (both.absent name _ (both.ownedOther old)) (weighs.carries name _ (both.ownedOther old))

theorem Shared.factored_weighs : (w.factored name fresh restA restB shortened).Weighs
    (Function.update (Function.update owned fresh [compact restA, compact restB]) name shortened) := by
  have sameFee : (w.splitOff name fresh restA restB).fee name = w.fee name := fee_splitOff both.apart
  rw [factored, ← sameFee]
  refine (both.splitOff_weighs weighs).replace ?_ ?_ ?_
  · exact List.ne_nil_of_mem (both.kept.mem_iff.mpr List.mem_cons_self)
  · exact sameFee ▸ both.carries_shortened weighs
  · rw [sameFee, cost_splitOff both.apart]
    exact fun behind => (both.total_shortened_lt weighs behind).le

private theorem Shared.cost_fresh_lt : w.total (w.fee name) [compact restA, compact restB] 0 < w.cost name 0 := by
  have covers := both.covers weighs 0
  have grows := (splits_solid weighs.splits both.solid (both.high weighs)).grows
    (w.total (w.fee name) [compact restA, compact restB] 0)
  omega

theorem Shared.potential_lt {names : List Name} (once : names.Nodup) (listed : name ∈ names) (unlisted : fresh ∉ names) :
    (w.factored name fresh restA restB shortened).potential (names ++ [fresh]) < w.potential names := by
  have unchanged : (w.splitOff name fresh restA restB).potential names = w.potential names := by
    refine potential_congr fun other member => ?_
    have known : other ≠ fresh := fun same => unlisted (same ▸ member)
    rw [cost_splitOff known]
  have freshCost : (w.factored name fresh restA restB shortened).cost fresh 0 =
      w.total (w.fee name) [compact restA, compact restB] 0 := by
    rw [factored, cost_lower_of_ne both.apart.symm, cost_splitOff_fresh]
  have cheaper : 3 ^ w.total (w.fee name) [compact restA, compact restB] 0 +
      3 ^ (w.splitOff name fresh restA restB).total (w.fee name) shortened 0 <
        3 ^ (w.splitOff name fresh restA restB).cost name 0 := by
    rw [cost_splitOff both.apart]
    exact pow_add_pow_lt (both.cost_fresh_lt weighs) (both.total_shortened_lt weighs 0)
  have falls := potential_lower_lt once listed _ cheaper
  rw [unchanged] at falls
  rw [potential, List.map_append, List.sum_append, List.map_singleton, List.sum_singleton, freshCost, Nat.add_comm]
  exact falls

end Factor

end TopDownGrammar.Weighing
