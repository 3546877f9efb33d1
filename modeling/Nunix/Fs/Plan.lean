/-
Nunix/Fs/Plan.lean

What a write to a file costs, before the file system is looked at.

A `Plan` is what decides which sectors a write passes to the log: which blocks of the
file are there, whether the indirect block is, which blocks are free, and the size.
Writing to the file blocks `S` takes the first `need S` free blocks; the sectors of
one transaction are the blocks of `S`, the bitmap blocks of the blocks taken, the
indirect block if an entry is added, and the inode block if the file grows (`cost`).
-/
import Nunix.Fs.Dir

namespace Nunix.Fs

/-- A file, as far as a write to it allocates blocks. -/
structure Plan where
  present : ℕ → Bool
  indirect : Bool
  free : List ℕ
  size : ℕ

/-- The file blocks that hold the `n` bytes at `off`. -/
def blocksOf (off n : ℕ) : Finset ℕ :=
  if n = 0 then ∅ else Finset.Icc (off / BSIZE) ((off + n - 1) / BSIZE)

/-- The first bytes of a transfer are in one block, the others behind it. -/
theorem blocksOf_split {off n m : ℕ} (hn : 0 < n) (hm : m = min n (BSIZE - off % BSIZE)) :
    blocksOf off n = {off / BSIZE} ∪ blocksOf (off + m) (n - m) ∧
      Disjoint {off / BSIZE} (blocksOf (off + m) (n - m)) := by
  have hmod : off % BSIZE < BSIZE := Nat.mod_lt _ (by decide)
  have hmem : ∀ x, x ∈ blocksOf (off + m) (n - m) ↔
      n - m ≠ 0 ∧ off / BSIZE + 1 ≤ x ∧ x ≤ (off + n - 1) / BSIZE := by
    intro x
    unfold blocksOf
    split_ifs with h
    · simp [h]
    · simp only [Finset.mem_Icc, ne_eq, h, not_false_eq_true, true_and]
      simp only [BSIZE] at *
      omega
  refine ⟨?_, Finset.disjoint_singleton_left.mpr fun h => ?_⟩
  · ext x
    rw [Finset.mem_union, Finset.mem_singleton, hmem, blocksOf, if_neg hn.ne', Finset.mem_Icc]
    simp only [BSIZE] at *
    omega
  · have := (hmem _).mp h
    omega

theorem blocksOf_add (off m n : ℕ) :
    blocksOf off (m + n) = blocksOf off m ∪ blocksOf (off + m) n := by
  ext x
  rw [Finset.mem_union]
  unfold blocksOf
  split_ifs <;> simp only [Finset.mem_Icc, Finset.notMem_empty, or_false, false_or] <;>
    simp only [BSIZE] at * <;> omega

namespace Plan

/-- File blocks of `S` that have to be allocated. -/
def missing (p : Plan) (S : Finset ℕ) : Finset ℕ := S.filter fun bn => p.present bn = false

/-- Some of them are behind the indirect block. -/
def entries (p : Plan) (S : Finset ℕ) : Bool := decide (∃ bn ∈ p.missing S, NDIRECT ≤ bn)

/-- The number of blocks to allocate, the indirect block included. -/
def need (p : Plan) (S : Finset ℕ) : ℕ :=
  (p.missing S).card + (p.entries S && !p.indirect).toNat

/-- The file after a write to the blocks of `S`, with its old size. -/
def touch (p : Plan) (S : Finset ℕ) : Plan where
  present bn := p.present bn || decide (bn ∈ S)
  indirect := p.indirect || p.entries S
  free := p.free.drop (p.need S)
  size := p.size

/-- The bitmap blocks of the blocks taken. -/
def bitmaps (p : Plan) (S : Finset ℕ) : Finset ℕ :=
  ((p.free.take (p.need S)).map (· / BPB)).toFinset

/-- The number of sectors a write of `n` bytes at `off` passes to the log. -/
def cost (p : Plan) (off n : ℕ) : ℕ :=
  (blocksOf off n).card + (p.bitmaps (blocksOf off n)).card + (p.entries (blocksOf off n)).toNat
    + (decide (p.size < off + n)).toNat

/-- The file after a write of `n` bytes at `off`. -/
def write (p : Plan) (off n : ℕ) : Plan :=
  { p.touch (blocksOf off n) with size := max p.size (off + n) }

/-- The costs of the transactions of `filewrite` with `n` bytes left.  A transaction that
would make the file too large writes nothing and is the last one. -/
def costs (p : Plan) (off n : ℕ) : List ℕ :=
  if _h : n = 0 then []
  else if MAXFILE * BSIZE < off + min n writeMax then [0]
  else p.cost off (min n writeMax) ::
    (p.write off (min n writeMax)).costs (off + min n writeMax) (n - min n writeMax)
termination_by n
decreasing_by
  have : writeMax = 6656 := rfl
  omega

variable {p : Plan} {S T : Finset ℕ}

theorem mem_missing {bn : ℕ} : bn ∈ p.missing S ↔ bn ∈ S ∧ p.present bn = false :=
  Finset.mem_filter

theorem missing_union : p.missing (S ∪ T) = p.missing S ∪ p.missing T :=
  Finset.filter_union ..

/-- After a write to `S` the blocks of `S` are there. -/
theorem missing_touch : (p.touch S).missing T = p.missing T \ S := by
  ext bn
  rw [Finset.mem_sdiff, mem_missing, mem_missing, and_assoc]
  refine and_congr_right fun _ => ?_
  simp [touch]

theorem entries_union : p.entries (S ∪ T) = (p.entries S || p.entries T) := by
  rw [Bool.eq_iff_iff]
  simp only [entries, missing_union, Finset.mem_union, or_and_right, exists_or, decide_eq_true_eq,
    Bool.or_eq_true]

theorem entries_touch (h : Disjoint S T) : (p.touch S).entries T = p.entries T := by
  have hmissing : Disjoint (p.missing T) S := (h.mono_right (Finset.filter_subset _ T)).symm
  rw [entries, entries, missing_touch, Finset.sdiff_eq_self_of_disjoint hmissing]

/-- Two writes take as many blocks as one. -/
theorem need_union : p.need (S ∪ T) = p.need S + (p.touch S).need T := by
  have hunion : p.missing (S ∪ T) = p.missing S ∪ (p.touch S).missing T := by
    ext bn
    rw [missing_touch, missing_union, Finset.mem_union, Finset.mem_union, Finset.mem_sdiff,
      mem_missing, mem_missing]
    tauto
  have hdisj : Disjoint (p.missing S) ((p.touch S).missing T) := by
    rw [missing_touch]
    exact Finset.disjoint_sdiff.mono_left (Finset.filter_subset _ S)
  have hentries : p.entries (S ∪ T) = (p.entries S || (p.touch S).entries T) := by
    rw [Bool.eq_iff_iff]
    simp only [entries, hunion, Finset.mem_union, or_and_right, exists_or, decide_eq_true_eq,
      Bool.or_eq_true]
  simp only [need, hunion, Finset.card_union_of_disjoint hdisj, hentries]
  have hind : (p.touch S).indirect = (p.indirect || p.entries S) := rfl
  rw [hind]
  cases p.entries S <;> cases (p.touch S).entries T <;> cases p.indirect <;> simp <;> omega

theorem touch_touch (h : Disjoint S T) : (p.touch S).touch T = p.touch (S ∪ T) := by
  have hpresent : ∀ bn, (p.present bn || decide (bn ∈ S) || decide (bn ∈ T))
      = (p.present bn || decide (bn ∈ S ∪ T)) := fun bn => by
    simp [Bool.or_assoc]
  rw [touch, touch, touch, mk.injEq]
  refine ⟨funext hpresent, ?_, ?_, rfl⟩
  · have he : (p.touch S).entries T = p.entries T := entries_touch h
    rw [touch] at he
    simp only [he, entries_union, Bool.or_assoc]
  · have hn := need_union (p := p) (S := S) (T := T)
    rw [touch] at hn
    simp only [hn, List.drop_drop]

theorem touch_empty : p.touch ∅ = p := by
  simp [touch, need, missing, entries]

theorem entries_empty : p.entries ∅ = false := by
  simp [entries, missing]

theorem need_empty : p.need ∅ = 0 := by
  simp [need, missing, entries]

theorem entries_singleton (bn : ℕ) :
    p.entries {bn} = (!p.present bn && decide (NDIRECT ≤ bn)) := by
  rw [Bool.eq_iff_iff]
  simp [entries, mem_missing]

theorem need_singleton (bn : ℕ) : p.need {bn}
    = (!p.present bn).toNat + (!p.present bn && decide (NDIRECT ≤ bn) && !p.indirect).toNat := by
  rw [need, entries_singleton, missing, Finset.filter_singleton]
  cases p.present bn <;> simp

/-- The blocks two writes take are those of one. -/
theorem take_union : p.free.take (p.need (S ∪ T))
    = p.free.take (p.need S) ++ (p.touch S).free.take ((p.touch S).need T) := by
  rw [need_union, List.take_add]
  rfl

end Plan

end Nunix.Fs
