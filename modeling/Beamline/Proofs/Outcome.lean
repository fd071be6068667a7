import Mathlib.Tactic
import Beamline.Failure

/-!
# Stages — taking a run apart at its binds

Everything that can fail is written as stages, each over the result of the one before. Two facts
take such a run apart: it succeeds where every stage does, and it fails with the fault of the first
stage that does not. Naming the task of a stage changes its fault and nothing else.
-/

set_option autoImplicit false

namespace Beamline

section

variable {ε α β : Type} {x : Except ε α} {next : α → Except ε β}

theorem ok_bind (a : α) : (Except.ok a : Except ε α) >>= next = next a := rfl

theorem bind_eq_ok_iff {b : β} : x >>= next = .ok b ↔ ∃ a, x = .ok a ∧ next a = .ok b := by
  constructor
  · intro h
    cases x with
    | ok a => exact ⟨a, rfl, h⟩
    | error e => cases h
  · rintro ⟨a, rfl, h⟩
    exact h

theorem bind_eq_error_iff {e : ε} :
    x >>= next = .error e ↔ x = .error e ∨ ∃ a, x = .ok a ∧ next a = .error e := by
  constructor
  · intro h
    cases x with
    | ok a => exact Or.inr ⟨a, rfl, h⟩
    | error d =>
      cases h
      exact Or.inl rfl
  · rintro (rfl | ⟨a, rfl, h⟩)
    · rfl
    · exact h

theorem exists_eq_ok_of_toBool (h : x.toBool = true) : ∃ a, x = .ok a := by
  cases x with
  | ok a => exact ⟨a, rfl⟩
  | error e => cases h

theorem map_eq_ok_iff {f : α → β} {b : β} : x.map f = .ok b ↔ ∃ a, x = .ok a ∧ f a = b := by
  cases x with
  | error e => simp [Except.map]
  | ok a => simp [Except.map]

end

section

variable {α : Type} {task : Task} {x : Outcome α}

theorem during_eq_ok_iff {a : α} : Outcome.during task x = .ok a ↔ x = .ok a := by
  cases x <;> simp [Outcome.during]

theorem during_eq_error_iff {f : Failure} :
    Outcome.during task x = .error f ↔ ∃ g, x = .error g ∧ g.during task = f := by
  cases x <;> simp [Outcome.during]

end

end Beamline
