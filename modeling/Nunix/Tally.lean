/-
Nunix/Tally.lean

Counting the processes that stand somewhere.

`tally f i` is the number of processes `p` with `f p = some i`.  When one process moves,
the tallies of the place it leaves and of the place it goes to change by one.
-/
import Mathlib

variable {P ι : Type*} [Fintype P] [DecidableEq ι] {f : P → Option ι}

/-- How many processes stand at `i`. -/
def tally (f : P → Option ι) (i : ι) : ℕ := (Finset.univ.filter fun p => f p = some i).card

theorem tally_congr {g : P → Option ι} (h : ∀ p, f p = g p) (i : ι) : tally f i = tally g i := by
  rw [funext h]

theorem tally_pos_iff {i : ι} : 0 < tally f i ↔ ∃ p, f p = some i := by
  unfold tally
  rw [Finset.card_pos]
  exact ⟨fun ⟨p, hp⟩ => ⟨p, (Finset.mem_filter.mp hp).2⟩,
    fun ⟨p, hp⟩ => ⟨p, Finset.mem_filter.mpr ⟨Finset.mem_univ p, hp⟩⟩⟩

/-- A tally of one is one process. -/
theorem tally_le_one {i : ι} (h : tally f i ≤ 1) {p q : P} (hp : f p = some i) (hq : f q = some i) :
    p = q :=
  Finset.card_le_one.mp h p (Finset.mem_filter.mpr ⟨Finset.mem_univ p, hp⟩)
    q (Finset.mem_filter.mpr ⟨Finset.mem_univ q, hq⟩)

variable [DecidableEq P]

/-- Process `p` moves from `f p` to `g p`. -/
theorem tally_move {g : P → Option ι} {p : P} (h : ∀ q, q ≠ p → g q = f q) (i : ι) :
    tally g i + (if f p = some i then 1 else 0) = tally f i + (if g p = some i then 1 else 0) := by
  have hsplit : ∀ k : P → Option ι, tally k i =
      ((Finset.univ.erase p).filter fun q => k q = some i).card +
        (if k p = some i then 1 else 0) := by
    intro k
    unfold tally
    rw [← Finset.insert_erase (Finset.mem_univ p), Finset.filter_insert,
      Finset.erase_insert (Finset.notMem_erase p _)]
    split_ifs
    · rw [Finset.card_insert_of_notMem]
      exact fun hp => Finset.notMem_erase p _ (Finset.mem_filter.mp hp).1
    · rfl
  have hsame : (Finset.univ.erase p).filter (fun q => g q = some i) =
      (Finset.univ.erase p).filter fun q => f q = some i :=
    Finset.filter_congr fun q hq => by rw [h q (Finset.ne_of_mem_erase hq)]
  rw [hsplit f, hsplit g, hsame]
  omega
