/-
Nunix/RingBuf.lean

Ring buffers with wrapping counters.

A ring buffer stores the elements of a queue in `cap` cells and counts how many have
been stored and how many have been taken; the counters live in machine words, so they
are known modulo `m`, a multiple of `cap`.  `RingBuf cap m data nread nwrite stored taken`
ties cells and counters to the two histories.  The tests `nread = nwrite` and
`nwrite = nread + cap` decide whether the queue is empty or full, whatever the counters
have wrapped around, and storing and taking keep the relation.
-/
import Mathlib

/-- The cells `data` and the counters represent the queue of what has been `stored` and
not yet `taken`. -/
structure RingBuf {α : Type*} (cap m : ℕ) (data : ℕ → α) (nread nwrite : ℕ)
    (stored taken : List α) : Prop where
  nread_eq : nread = taken.length % m
  nwrite_eq : nwrite = stored.length % m
  taken_prefix : taken <+: stored
  room : stored.length ≤ taken.length + cap
  cell : ∀ j x, taken.length ≤ j → stored[j]? = some x → data (j % cap) = x

namespace RingBuf

variable {α : Type*} {cap m : ℕ} {data : ℕ → α} {nread nwrite : ℕ} {stored taken : List α}

theorem empty (cap m : ℕ) (data : ℕ → α) : RingBuf cap m data 0 0 [] [] where
  nread_eq := (Nat.zero_mod m).symm
  nwrite_eq := (Nat.zero_mod m).symm
  taken_prefix := List.prefix_rfl
  room := Nat.zero_le _
  cell j x _ h := by simp at h

theorem length_le (h : RingBuf cap m data nread nwrite stored taken) :
    taken.length ≤ stored.length := h.taken_prefix.length_le

section Counters

variable (h : RingBuf cap m data nread nwrite stored taken)

include h

/-- The difference of the counters is the number of elements in the queue. -/
theorem sub_mod (hcap : cap < m) :
    (nwrite + (m - nread)) % m = stored.length - taken.length := by
  have hle := h.length_le
  have hroom := h.room
  have hr : nread < m := by
    rw [h.nread_eq]
    exact Nat.mod_lt _ (Nat.zero_lt_of_lt hcap)
  have hsplit : stored.length = (stored.length - taken.length) + taken.length := by omega
  rw [h.nwrite_eq, hsplit, Nat.mod_add_mod, Nat.add_assoc]
  have hzero : (taken.length + (m - nread)) % m = 0 := by
    rw [← Nat.mod_add_mod, ← h.nread_eq, Nat.add_sub_cancel' hr.le, Nat.mod_self]
  rw [← Nat.add_mod_mod, hzero, Nat.add_zero, Nat.mod_eq_of_lt (by omega)]
  omega

/-- The test for the empty queue. -/
theorem eq_iff (hcap : cap < m) : nread = nwrite ↔ stored.length = taken.length := by
  have hle := h.length_le
  have hroom := h.room
  constructor
  · intro heq
    have hr : nread < m := by
      rw [h.nread_eq]
      exact Nat.mod_lt _ (Nat.zero_lt_of_lt hcap)
    have := h.sub_mod hcap
    rw [← heq, Nat.add_sub_cancel' hr.le, Nat.mod_self] at this
    omega
  · intro heq
    rw [h.nread_eq, h.nwrite_eq, heq]

/-- The test for the full queue. -/
theorem full_iff (hcap : cap < m) :
    nwrite = (nread + cap) % m ↔ stored.length = taken.length + cap := by
  have hle := h.length_le
  have hroom := h.room
  constructor
  · intro heq
    have hr : nread < m := by
      rw [h.nread_eq]
      exact Nat.mod_lt _ (Nat.zero_lt_of_lt hcap)
    have hsub := h.sub_mod hcap
    rw [heq, Nat.mod_add_mod, show nread + cap + (m - nread) = cap + m by omega,
      Nat.add_mod_right, Nat.mod_eq_of_lt hcap] at hsub
    omega
  · intro heq
    rw [h.nread_eq, h.nwrite_eq, heq, Nat.mod_add_mod]

end Counters

/-- Storing an element in a queue that is not full. -/
theorem push (h : RingBuf cap m data nread nwrite stored taken) (hdvd : cap ∣ m)
    (hfull : stored.length ≠ taken.length + cap) (x : α) :
    RingBuf cap m (Function.update data (nwrite % cap) x) nread ((nwrite + 1) % m)
      (stored ++ [x]) taken where
  nread_eq := h.nread_eq
  nwrite_eq := by rw [h.nwrite_eq, Nat.mod_add_mod, List.length_append, List.length_singleton]
  taken_prefix := h.taken_prefix.trans (List.prefix_append ..)
  room := by
    have := h.room
    rw [List.length_append, List.length_singleton]
    omega
  cell j y hj hy := by
    have hroom := h.room
    have hidx : nwrite % cap = stored.length % cap := by
      rw [h.nwrite_eq, Nat.mod_mod_of_dvd _ hdvd]
    rcases Nat.lt_trichotomy j stored.length with hlt | rfl | hgt
    · -- an older element: its cell is another one
      rw [List.getElem?_append_left hlt] at hy
      have hne : j % cap ≠ nwrite % cap := by
        rw [hidx]
        intro he
        have hdiff : (stored.length - j) % cap = 0 := Nat.sub_mod_eq_zero_of_mod_eq he.symm
        rw [Nat.mod_eq_of_lt (by omega)] at hdiff
        omega
      rw [Function.update_of_ne hne]
      exact h.cell j y hj hy
    · rw [List.getElem?_concat_length] at hy
      rw [hidx, Function.update_self]
      exact Option.some.inj hy
    · rw [List.getElem?_eq_none (by simp; omega)] at hy
      cases hy

/-- Taking an element from a queue that is not empty. -/
theorem pop (h : RingBuf cap m data nread nwrite stored taken) (hdvd : cap ∣ m)
    (hempty : stored.length ≠ taken.length) :
    RingBuf cap m data ((nread + 1) % m) nwrite stored (taken ++ [data (nread % cap)]) where
  nread_eq := by rw [h.nread_eq, Nat.mod_add_mod, List.length_append, List.length_singleton]
  nwrite_eq := h.nwrite_eq
  taken_prefix := by
    have hlt : taken.length < stored.length := lt_of_le_of_ne h.length_le (Ne.symm hempty)
    have hcell := h.cell taken.length _ le_rfl (List.getElem?_eq_getElem hlt)
    have hidx : nread % cap = taken.length % cap := by
      rw [h.nread_eq, Nat.mod_mod_of_dvd _ hdvd]
    -- the next element of `stored` behind the prefix
    have htake : stored.take (taken.length + 1) = taken ++ [data (nread % cap)] := by
      rw [hidx, hcell, List.take_succ_eq_append_getElem hlt,
        ← List.prefix_iff_eq_take.mp h.taken_prefix]
    rw [← htake]
    exact List.take_prefix _ _
  room := by
    have := h.room
    rw [List.length_append, List.length_singleton]
    omega
  cell j x hj hx := h.cell j x (by
    rw [List.length_append, List.length_singleton] at hj
    omega) hx

end RingBuf
