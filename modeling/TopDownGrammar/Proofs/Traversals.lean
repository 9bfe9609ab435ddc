import Mathlib.Data.List.Forall2

/-! Going through a list with steps that may fail. The result is the list of results if no step fails,
and the order of the steps decides only which failure is reported. -/

namespace TopDownGrammar

variable {α β ε : Type} {entries : List α}

theorem bind_eq_ok {first : Except ε α} {next : α → Except ε β} {result : β} :
    (first >>= next) = .ok result ↔ ∃ value, first = .ok value ∧ next value = .ok result := by
  cases first with
  | error cause => exact iff_of_false (fun same => nomatch same) (fun ⟨_, same, _⟩ => nomatch same)
  | ok value => exact ⟨fun same => ⟨value, rfl, same⟩, fun ⟨_, same, rest⟩ => Except.ok.inj same ▸ rest⟩

theorem bind_eq_error {first : Except ε α} {next : α → Except ε β} {cause : ε} :
    (first >>= next) = .error cause ↔ first = .error cause ∨ ∃ value, first = .ok value ∧ next value = .error cause := by
  cases first with
  | error other => simp [bind, Except.bind]
  | ok value => simp [bind, Except.bind]

theorem mapM_eq_ok {step : α → Except ε β} {results : List β} :
    entries.mapM step = .ok results ↔ List.Forall₂ (fun entry result => step entry = .ok result) entries results := by
  induction entries generalizing results with
  | nil =>
    rw [List.mapM_nil, List.forall₂_nil_left_iff]
    exact ⟨fun same => (Except.ok.inj same).symm, fun same => same ▸ rfl⟩
  | cons entry rest ih =>
    rw [List.mapM_cons, List.forall₂_cons_left_iff, bind_eq_ok]
    apply exists_congr
    intro result
    simp only [bind_eq_ok, ih]
    constructor
    · intro found
      obtain ⟨first, others, later, same⟩ := found
      exact ⟨others, first, later, (Except.ok.inj same).symm⟩
    · intro found
      obtain ⟨others, first, later, rfl⟩ := found
      exact ⟨first, others, later, rfl⟩

theorem forM_eq_ok {step : α → Except ε Unit} : entries.forM step = .ok () ↔ ∀ entry ∈ entries, step entry = .ok () := by
  induction entries with
  | nil => exact iff_of_true rfl (by simp)
  | cons entry rest ih =>
    have unfolded : (entry :: rest).forM step = (step entry >>= fun _ => rest.forM step) := rfl
    rw [unfolded, bind_eq_ok, List.forall_mem_cons, ← ih]
    exact ⟨fun ⟨_, both⟩ => both, fun both => ⟨(), both⟩⟩

def fault : Except ε α → Option ε
  | .ok _ => none
  | .error cause => some cause

theorem fault_eq_some {step : Except ε α} {cause : ε} : fault step = some cause ↔ step = .error cause := by
  cases step <;> simp [fault]

theorem fault_eq_none {step : Except ε α} : fault step = none ↔ ∃ result, step = .ok result := by
  cases step <;> simp [fault]

/-- A failure that does not hang on the result of the step before it is reported unless that step fails. -/
theorem fault_bind {first : Except ε α} {next : α → Except ε β} {later : Option ε}
    (same : ∀ value, fault (next value) = later) : fault (first >>= next) = (fault first).or later := by
  cases first with
  | error cause => rfl
  | ok value => exact same value

theorem fault_bind_pure (first : Except ε α) (finish : α → β) :
    fault (do let value ← first; pure (finish value)) = fault first := by
  cases first <;> rfl

theorem findSome?_cons_or {search : α → Option β} (entry : α) (rest : List α) :
    (entry :: rest).findSome? search = (search entry).or (rest.findSome? search) := by
  rw [List.findSome?_cons]
  cases search entry <;> rfl

theorem fault_mapM (step : α → Except ε β) (entries : List α) :
    fault (entries.mapM step) = entries.findSome? fun entry => fault (step entry) := by
  induction entries with
  | nil => rfl
  | cons entry rest ih =>
    have later : ∀ value : β, fault (do let values ← rest.mapM step; pure (value :: values)) =
        rest.findSome? fun entry => fault (step entry) :=
      fun value => (fault_bind_pure _ _).trans ih
    rw [List.mapM_cons, fault_bind later, findSome?_cons_or]

theorem fault_forM (step : α → Except ε Unit) (entries : List α) :
    fault (entries.forM step) = entries.findSome? fun entry => fault (step entry) := by
  induction entries with
  | nil => rfl
  | cons entry rest ih =>
    have unfolded : (entry :: rest).forM step = (step entry >>= fun _ => rest.forM step) := rfl
    rw [unfolded, fault_bind fun _ => ih, findSome?_cons_or]

theorem findSome?_flatMap {γ : Type} {search : β → Option γ} (blocks : α → List β) (entries : List α) :
    (entries.flatMap blocks).findSome? search = entries.findSome? fun entry => (blocks entry).findSome? search := by
  induction entries with
  | nil => rfl
  | cons entry rest ih => rw [List.flatMap_cons, List.findSome?_append, ih, findSome?_cons_or]

theorem mapM_eq_error {step : α → Except ε β} {cause : ε} : entries.mapM step = .error cause ↔
    ∃ before entry after, entries = before ++ entry :: after ∧ step entry = .error cause ∧
      ∀ earlier ∈ before, ∃ result, step earlier = .ok result := by
  rw [← fault_eq_some, fault_mapM, List.findSome?_eq_some_iff]
  simp only [fault_eq_some, fault_eq_none]

variable {related : α → β → Prop} {results : List β}

theorem exists_result (all : List.Forall₂ related entries results) {entry : α} (member : entry ∈ entries) :
    ∃ result ∈ results, related entry result := by
  induction all with
  | nil => cases member
  | cons here _ ih =>
    rcases List.mem_cons.mp member with rfl | inside
    · exact ⟨_, List.mem_cons_self, here⟩
    · obtain ⟨result, present, there⟩ := ih inside
      exact ⟨result, List.mem_cons_of_mem _ present, there⟩

theorem exists_entry (all : List.Forall₂ related entries results) {result : β} (member : result ∈ results) :
    ∃ entry ∈ entries, related entry result :=
  exists_result all.flip member

end TopDownGrammar
