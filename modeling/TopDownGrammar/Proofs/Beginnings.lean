import TopDownGrammar.Derivation
import TopDownGrammar.Proofs.Rules

/-! What a sequence can begin with. Every symbol shows some symbols in front, and the empty string
if it can vanish, so that what stands behind it shows as well. A derivation leads to nothing that
its first sequence does not show, provided a nonterminal shows what its alternatives do. -/

namespace TopDownGrammar

variable {front : Symbol → Symbol → Prop} {shown symbol : Symbol} {form first second last : List Symbol}

/-- One symbol of the sequence shows the symbol and those before it can vanish, or all can vanish
and the empty string is shown. -/
def Shows (front : Symbol → Symbol → Prop) : List Symbol → Symbol → Prop
  | [], shown => shown = .epsilon
  | symbol :: rest, shown =>
    front symbol shown ∧ shown ≠ .epsilon ∨ front symbol .epsilon ∧ Shows front rest shown

/-- What a set passes on of the symbols behind it: all of them if it holds the empty string, which is
then no longer shown for it. -/
theorem mem_ite_epsilon {set later : SymbolSet} :
    shown ∈ (if .epsilon ∈ set then set.erase .epsilon ∪ later else set) ↔
      shown ∈ set ∧ shown ≠ .epsilon ∨ .epsilon ∈ set ∧ shown ∈ later := by
  split
  next vanishes => simp [vanishes]
  next stays =>
    simp only [stays, false_and, or_false, iff_self_and]
    intro member same
    exact stays (same ▸ member)

theorem shows_singleton : Shows front [symbol] shown ↔ front symbol shown := by
  by_cases vanishes : shown = .epsilon <;> simp [Shows, vanishes]

theorem shows_append :
    Shows front (first ++ second) shown ↔
      Shows front first shown ∧ shown ≠ .epsilon ∨ Shows front first .epsilon ∧ Shows front second shown := by
  induction first with
  | nil => simp [Shows]
  | cons symbol rest ih =>
    simp only [List.cons_append, Shows, ih]
    tauto

theorem Shows.origin (shows : Shows front form shown) :
    shown = .epsilon ∨ ∃ symbol ∈ form, front symbol shown := by
  induction form with
  | nil => exact Or.inl shows
  | cons symbol rest ih =>
    rcases shows with ⟨here, _⟩ | ⟨_, later⟩
    · exact Or.inr ⟨symbol, List.mem_cons_self, here⟩
    · rcases ih later with vanishes | ⟨other, member, there⟩
      · exact Or.inl vanishes
      · exact Or.inr ⟨other, List.mem_cons_of_mem _ member, there⟩

theorem Shows.mono {larger : Symbol → Symbol → Prop}
    (below : ∀ symbol ∈ form, ∀ shown, front symbol shown → larger symbol shown) (shows : Shows front form shown) :
    Shows larger form shown := by
  induction form with
  | nil => exact shows
  | cons symbol rest ih =>
    have head := below symbol List.mem_cons_self
    have tail := ih fun other member => below other (List.mem_cons_of_mem _ member)
    exact shows.imp (And.imp_left (head shown)) (And.imp (head .epsilon) tail)

theorem shows_visible (still : ∀ shown, front .epsilon shown ↔ shown = .epsilon) :
    Shows front (visible form) shown ↔ Shows front form shown := by
  induction form with
  | nil => exact Iff.rfl
  | cons symbol rest ih =>
    cases symbol with
    | epsilon => simp [Shows, still, ih]
    | _ => exact or_congr Iff.rfl (and_congr Iff.rfl ih)

theorem shows_compact (still : ∀ shown, front .epsilon shown ↔ shown = .epsilon) :
    Shows front (compact form) shown ↔ Shows front form shown := by
  rw [← shows_visible still, visible_compact, shows_visible still]

namespace Grammar

variable {g h : Grammar}

/-- A nonterminal shows what its alternatives show, and the empty string shows itself. -/
structure Covers (g : Grammar) (front : Symbol → Symbol → Prop) : Prop where
  epsilon : ∀ shown, front .epsilon shown ↔ shown = .epsilon
  nonterminal : ∀ name, ∀ alternative ∈ g.alternatives name, ∀ shown,
    Shows front alternative shown → front (.nonterminal name) shown

theorem Covers.of_subset (covers : h.Covers front)
    (kept : ∀ name, ∀ alternative ∈ g.alternatives name, alternative ∈ h.alternatives name) : g.Covers front where
  epsilon := covers.epsilon
  nonterminal name alternative owned := covers.nonterminal name alternative (kept name alternative owned)

theorem Covers.shows_of_step (covers : g.Covers front) (step : g.Step first second)
    (shows : Shows front second shown) : Shows front first shown := by
  cases step with
  | @replace before after name alternative owned =>
    have inside := covers.nonterminal name alternative owned
    rw [shows_visible covers.epsilon, shows_append, shows_append, shows_append] at shows
    rw [shows_append, Shows]
    rcases shows with ⟨⟨here, _⟩ | ⟨vanishes, here⟩, solid⟩ | ⟨⟨_, absurdly⟩ | ⟨vanishes, gone⟩, later⟩
    · exact Or.inl ⟨here, solid⟩
    · exact Or.inr ⟨vanishes, Or.inl ⟨inside shown here, solid⟩⟩
    · exact absurd rfl absurdly
    · exact Or.inr ⟨vanishes, Or.inr ⟨inside .epsilon gone, later⟩⟩

theorem Covers.shows_of_derives (covers : g.Covers front) (derives : g.Derives first last)
    (shows : Shows front last shown) : Shows front first shown := by
  induction derives with
  | refl => exact shows
  | step step _ ih => exact covers.shows_of_step step (ih shows)

/-- The sequence derives one that begins with the symbol, or nothing at all for the empty string. -/
def Leading (g : Grammar) (form : List Symbol) (symbol : Symbol) : Prop :=
  symbol = .epsilon ∧ g.Derives form [] ∨ symbol ≠ .epsilon ∧ ∃ rest, g.Derives form (symbol :: rest)

theorem leading_epsilon : g.Leading form .epsilon ↔ g.Derives form [] := by
  simp [Leading]

theorem leading_iff (solid : symbol ≠ .epsilon) :
    g.Leading form symbol ↔ ∃ rest, g.Derives form (symbol :: rest) := by
  simp [Leading, solid]

theorem leading_self (symbol : Symbol) : g.Leading (visible [symbol]) symbol := by
  cases symbol with
  | epsilon => exact leading_epsilon.mpr (.refl _)
  | _ => exact (leading_iff (by simp)).mpr ⟨[], .refl _⟩

theorem Leading.after (leading : g.Leading second symbol) (derives : g.Derives first second) :
    g.Leading first symbol := by
  rcases leading with ⟨vanishes, more⟩ | ⟨solid, rest, more⟩
  · exact Or.inl ⟨vanishes, derives.trans more⟩
  · exact Or.inr ⟨solid, rest, derives.trans more⟩

/-- If every symbol shows only what it leads to, so does the sequence. -/
theorem leading_of_shows
    (sound : ∀ symbol ∈ form, ∀ shown, front symbol shown → g.Leading (visible [symbol]) shown)
    (shows : Shows front form shown) : g.Leading (visible form) shown := by
  induction form with
  | nil => exact Or.inl ⟨shows, .refl _⟩
  | cons symbol rest ih =>
    have head := sound symbol List.mem_cons_self
    have split : visible (symbol :: rest) = visible [symbol] ++ visible rest := visible_append [symbol] rest
    have plain := epsilon_not_mem_visible rest
    rw [split]
    rcases shows with ⟨here, solid⟩ | ⟨vanishes, later⟩
    · obtain ⟨behind, derives⟩ := (leading_iff solid).mp (head shown here)
      refine (leading_iff solid).mpr ⟨behind ++ visible rest, ?_⟩
      exact derives.surround List.not_mem_nil plain
    · have gone := (leading_epsilon.mp (head .epsilon vanishes)).surround List.not_mem_nil plain
      exact (ih (fun symbol member => sound symbol (List.mem_cons_of_mem _ member)) later).after gone

theorem Covers.shows_of_leading (covers : g.Covers front) (itself : shown ≠ .epsilon → front shown shown)
    (leading : g.Leading (visible form) shown) : Shows front form shown := by
  rw [← shows_visible covers.epsilon]
  rcases leading with ⟨rfl, derives⟩ | ⟨solid, rest, derives⟩
  · exact covers.shows_of_derives derives rfl
  · exact covers.shows_of_derives derives (Or.inl ⟨itself solid, solid⟩)

end Grammar

end TopDownGrammar
