/-
Nunix/Mutex.lean

Mutual exclusion as a relation between a lock and the processes that hold it.

`Mutex holds owner` says that `owner` is the one process for which `holds` is true, or
nobody.  Taking a free lock, giving it back, and steps that change nobody's claim keep
it; two processes never hold the lock at once.
-/
import Mathlib

/-- The processes for which `holds` is true are the owner of the lock. -/
def Mutex {P : Type*} (holds : P → Bool) (owner : Option P) : Prop :=
  ∀ p, holds p = true ↔ owner = some p

namespace Mutex

variable {P : Type*} {holds holds' : P → Bool} {owner : Option P} {p q : P}

/-- Nobody holds a free lock. -/
theorem free (h : ∀ p, holds p = false) : Mutex holds none := by
  intro p
  simp [h p]

theorem congr (h : Mutex holds owner) (hq : ∀ q, holds' q = holds q) : Mutex holds' owner := by
  intro q
  rw [hq q]
  exact h q

theorem unique (h : Mutex holds owner) (hp : holds p = true) (hq : holds q = true) : p = q :=
  Option.some.inj (((h p).mp hp).symm.trans ((h q).mp hq))

theorem holds_of_free (h : Mutex holds none) (p : P) : holds p = false := by
  rw [← Bool.not_eq_true, h p]
  simp

/-- `p` takes the lock. -/
theorem acquire (h : Mutex holds none) (hp : holds' p = true)
    (hq : ∀ q, q ≠ p → holds' q = holds q) : Mutex holds' (some p) := by
  intro q
  by_cases hqp : q = p
  · simp [hqp, hp]
  · rw [hq q hqp, h.holds_of_free q]
    simp [Ne.symm hqp]

/-- `p` gives the lock back. -/
theorem release (h : Mutex holds owner) (hp : holds p = true) (hp' : holds' p = false)
    (hq : ∀ q, q ≠ p → holds' q = holds q) : Mutex holds' none := by
  refine free fun q => ?_
  by_cases hqp : q = p
  · rw [hqp, hp']
  · rw [hq q hqp, ← Bool.not_eq_true]
    exact fun hq' => hqp (h.unique hq' hp)

section Set

variable [DecidableEq P] {b : Bool}

/-- The claim of `p` is said anew. -/
theorem set_same (h : Mutex holds owner) (hb : b = holds p) :
    Mutex (fun q => if q = p then b else holds q) owner := by
  refine h.congr fun q => ?_
  split_ifs with hq
  · rw [hq, hb]
  · rfl

theorem set_acquire (h : Mutex holds none) (hb : b = true) :
    Mutex (fun q => if q = p then b else holds q) (some p) :=
  h.acquire ((if_pos rfl).trans hb) fun _ hq => if_neg hq

theorem set_release (h : Mutex holds owner) (hp : holds p = true) (hb : b = false) :
    Mutex (fun q => if q = p then b else holds q) none :=
  h.release hp ((if_pos rfl).trans hb) fun _ hq => if_neg hq

end Set

section Move

open Function (update update_of_ne update_self)

variable [DecidableEq P] {A : Type*} {f : A → Bool} {pc : P → A} {a b : A}

/-- `p` moves from `b` to `a` and keeps or lacks the lock. -/
theorem move (h : Mutex (fun q => f (pc q)) owner) (hp : pc p = b) (ha : f a = f b) :
    Mutex (fun q => f (update pc p a q)) owner := by
  refine h.congr fun q => ?_
  by_cases hq : q = p
  · rw [hq, update_self, ha, hp]
  · rw [update_of_ne hq]

theorem move_acquire (h : Mutex (fun q => f (pc q)) owner) (hfree : owner = none) (ha : f a = true) :
    Mutex (fun q => f (update pc p a q)) (some p) :=
  (hfree ▸ h).acquire ((congrArg f (update_self ..)).trans ha) fun _ hq =>
    congrArg f (update_of_ne hq ..)

theorem move_release (h : Mutex (fun q => f (pc q)) owner) (hp : pc p = b) (hb : f b = true)
    (ha : f a = false) : Mutex (fun q => f (update pc p a q)) none :=
  h.release (p := p) (hp ▸ hb) ((congrArg f (update_self ..)).trans ha) fun _ hq =>
    congrArg f (update_of_ne hq ..)

end Move

end Mutex
