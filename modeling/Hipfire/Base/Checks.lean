import Mathlib
/-! # Checks — a list of checks, failing at the first that fails -/
namespace Hipfire

variable {α ε : Type}

/-- Run a check on every element in order; the first error is the result. -/
def firstError (check : α → Except ε Unit) : List α → Except ε Unit
  | [] => .ok ()
  | x :: xs =>
    match check x with
    | .error e => .error e
    | .ok () => firstError check xs

theorem firstError_ok (check : α → Except ε Unit) : ∀ (l : List α),
    firstError check l = .ok () ↔ ∀ x ∈ l, check x = .ok ()
  | [] => by simp [firstError]
  | x :: xs => by
    unfold firstError
    cases hx : check x with
    | error e => simp [hx]
    | ok u => simp [hx, firstError_ok check xs]

theorem bind_eq_ok {β : Type} {x : Except ε α} {f : α → Except ε β} {b : β} :
    (x >>= f) = .ok b ↔ ∃ a, x = .ok a ∧ f a = .ok b := by
  constructor
  · intro h
    cases x with
    | error e => cases h
    | ok a => exact ⟨a, rfl, h⟩
  · rintro ⟨a, rfl, h⟩
    exact h

end Hipfire
