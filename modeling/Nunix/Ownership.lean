/-
Nunix/Ownership.lean

Exclusive ownership of resources.

A resource (a disk block, a physical page) is in use or free; some resources are
reserved and always in use; every other resource in use has at most one owner, a
position that refers to it.  `Owns R used reserved` says that the reference map `R`
from positions to resources respects this, `Owns.Exact` that nothing is in use
without an owner.  Taking a free resource for an empty position (`claim`) and giving
up the resource of a position (`release`) keep both.
-/
import Mathlib

/-- The reference map `R` gives every resource at most one owner, and refers only to
resources that are in use and not reserved. -/
structure Owns {π β : Type*} (R : π → Option β) (used reserved : Set β) : Prop where
  reserved_used : reserved ⊆ used
  mem_used : ∀ {p b}, R p = some b → b ∈ used
  notMem_reserved : ∀ {p b}, R p = some b → b ∉ reserved
  inj : ∀ {p q b}, R p = some b → R q = some b → p = q

namespace Owns

open Function (update update_of_ne update_self)

variable {π β : Type*} {R R' : π → Option β} {used used' reserved : Set β} {p q : π} {b : β}

/-- Nothing is in use without an owner. -/
def Exact (R : π → Option β) (used reserved : Set β) : Prop :=
  ∀ b ∈ used, b ∈ reserved ∨ ∃ p, R p = some b

/-- A free resource has no owner. -/
theorem ne_of_free (h : Owns R used reserved) (hb : b ∉ used) : R q ≠ some b :=
  fun hq => hb (h.mem_used hq)

/-- Dropping references keeps ownership. -/
theorem mono (h : Owns R used reserved) (hR : ∀ {p b}, R' p = some b → R p = some b) :
    Owns R' used reserved where
  reserved_used := h.reserved_used
  mem_used hp := h.mem_used (hR hp)
  notMem_reserved hp := h.notMem_reserved (hR hp)
  inj hp hq := h.inj (hR hp) (hR hq)

variable [DecidableEq π]

/-- Position `p` takes the free resource `b`. -/
theorem claim (h : Owns R used reserved) (hb : b ∉ used)
    (hu : ∀ x, x ∈ used' ↔ x = b ∨ x ∈ used) :
    Owns (update R p (some b)) used' reserved := by
  -- the new reference is the only one to `b`
  have hcases : ∀ {q x}, update R p (some b) q = some x →
      (q = p ∧ x = b) ∨ (q ≠ p ∧ R q = some x) := by
    intro q x hq
    by_cases hqp : q = p
    · subst hqp
      rw [update_self] at hq
      exact Or.inl ⟨rfl, (Option.some.inj hq).symm⟩
    · rw [update_of_ne hqp] at hq
      exact Or.inr ⟨hqp, hq⟩
  refine ⟨fun x hx => (hu x).mpr (Or.inr (h.reserved_used hx)), ?_, ?_, ?_⟩
  · intro q x hq
    rcases hcases hq with ⟨-, rfl⟩ | ⟨-, hq⟩
    · exact (hu x).mpr (Or.inl rfl)
    · exact (hu x).mpr (Or.inr (h.mem_used hq))
  · intro q x hq hx
    rcases hcases hq with ⟨-, rfl⟩ | ⟨-, hq⟩
    · exact hb (h.reserved_used hx)
    · exact h.notMem_reserved hq hx
  · intro q q' x hq hq'
    rcases hcases hq with ⟨hqp, hx⟩ | ⟨-, h₁⟩ <;>
      rcases hcases hq' with ⟨hqp', hx'⟩ | ⟨-, h₂⟩
    · rw [hqp, hqp']
    · rw [hx] at h₂
      exact absurd h₂ (h.ne_of_free hb)
    · rw [hx'] at h₁
      exact absurd h₁ (h.ne_of_free hb)
    · exact h.inj h₁ h₂

/-- Position `p` gives up its resource `b`. -/
theorem release (h : Owns R used reserved) (hp : R p = some b)
    (hu : ∀ x, x ∈ used' ↔ x ≠ b ∧ x ∈ used) :
    Owns (update R p none) used' reserved := by
  have hcases : ∀ {q x}, update R p none q = some x → q ≠ p ∧ R q = some x := by
    intro q x hq
    by_cases hqp : q = p
    · subst hqp
      simp at hq
    · rw [update_of_ne hqp] at hq
      exact ⟨hqp, hq⟩
  refine ⟨?_, ?_, ?_, ?_⟩
  · intro x hx
    refine (hu x).mpr ⟨?_, h.reserved_used hx⟩
    rintro rfl
    exact h.notMem_reserved hp hx
  · intro q x hq
    obtain ⟨hqp, hq⟩ := hcases hq
    refine (hu x).mpr ⟨?_, h.mem_used hq⟩
    rintro rfl
    exact hqp (h.inj hq hp)
  · intro q x hq
    exact h.notMem_reserved (hcases hq).2
  · intro q q' x hq hq'
    exact h.inj (hcases hq).2 (hcases hq').2

theorem Exact.claim (h : Exact R used reserved) (hp : R p = none)
    (hu : ∀ x, x ∈ used' ↔ x = b ∨ x ∈ used) :
    Exact (update R p (some b)) used' reserved := by
  intro x hx
  rcases (hu x).mp hx with rfl | hx
  · exact Or.inr ⟨p, update_self ..⟩
  · rcases h x hx with hr | ⟨q, hq⟩
    · exact Or.inl hr
    · refine Or.inr ⟨q, ?_⟩
      have hqp : q ≠ p := by
        rintro rfl
        rw [hp] at hq
        cases hq
      rw [update_of_ne hqp, hq]

theorem Exact.release (h : Exact R used reserved) (hp : R p = some b)
    (hu : ∀ x, x ∈ used' ↔ x ≠ b ∧ x ∈ used) :
    Exact (update R p none) used' reserved := by
  intro x hx
  obtain ⟨hxb, hx⟩ := (hu x).mp hx
  rcases h x hx with hr | ⟨q, hq⟩
  · exact Or.inl hr
  · refine Or.inr ⟨q, ?_⟩
    have hqp : q ≠ p := by
      rintro rfl
      rw [hp] at hq
      exact hxb (Option.some.inj hq).symm
    rw [update_of_ne hqp, hq]

end Owns
