/-
Nunix/Lease.lean

Taking and giving back, as a history.

`Lease ρ` is an event about a resource of type `ρ`; histories have the latest event in
front.  `Held r h` says that `r` was taken and not given back since, `Proper h` that
nothing was taken twice or given back without being held.  In a proper history a resource
is given back once for each time it was taken, except for the last time while it is held
(`Proper.count`).
-/
import Mathlib

/-- An event about a resource. -/
inductive Lease (ρ : Type*)
  | take (r : ρ)
  | give (r : ρ)
  deriving DecidableEq

namespace Lease

variable {ρ : Type*} [DecidableEq ρ]

/-- `r` was taken and has not been given back. -/
def held (r : ρ) : List (Lease ρ) → Bool
  | [] => false
  | .take x :: h => x = r || held r h
  | .give x :: h => x ≠ r && held r h

/-- Nothing is taken twice or given back twice. -/
def Proper : List (Lease ρ) → Prop
  | [] => True
  | .take r :: h => held r h = false ∧ Proper h
  | .give r :: h => held r h = true ∧ Proper h

variable {r x : ρ} {h : List (Lease ρ)}

@[simp] theorem held_take : held r (.take x :: h) = true ↔ x = r ∨ held r h = true := by
  simp [held]

@[simp] theorem held_give : held r (.give x :: h) = true ↔ x ≠ r ∧ held r h = true := by
  simp [held]

/-- Each time but the last that `r` was taken it was given back, once; the last time too,
unless it is held. -/
theorem Proper.count (hp : Proper h) (r : ρ) :
    h.count (.give r) + (if held r h = true then 1 else 0) = h.count (.take r) := by
  induction h with
  | nil => rfl
  | cons e h ih =>
      cases e with
      | take x =>
          have ih := ih hp.2
          by_cases hx : x = r
          · subst hx
            rw [hp.1] at ih
            simp at ih ⊢
            omega
          · simpa [hx] using ih
      | give x =>
          have ih := ih hp.2
          by_cases hx : x = r
          · subst hx
            rw [hp.1] at ih
            simpa using ih
          · simpa [hx] using ih

end Lease
