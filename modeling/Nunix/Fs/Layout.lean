/-
Nunix/Fs/Layout.lean

Where `mkfs` and the kernel place the regions of a disk.

`mkfs` lays a disk out from four numbers: boot block, superblock, inode blocks, bitmap
blocks, `nblocks` data blocks and `nlog` log blocks.  Only the four numbers reach the
superblock.  The kernel computes the sector of an inode (`IBLOCK`), of a bit of the
bitmap (`BBLOCK`) and of a log block (`initlog`) from them again, by formulas of its own.

The one check of `mkfs` is that the parts add up to `size`, in unsigned arithmetic.  The
layout it accepts is right exactly when that sum does not wrap around
(`layout_right_iff`).
-/
import Nunix.Fs.Disk

namespace Nunix.Fs.Layout

/-- The configuration of `mkfs`: four numbers, each a nonnegative `int`. -/
structure Config extends Superblock where
  size_lt : size < 2 ^ 31
  nblocks_lt : nblocks < 2 ^ 31
  ninodes_lt : ninodes < 2 ^ 31
  nlog_lt : nlog < 2 ^ 31

/-! ### The layout of `mkfs` -/

/-- `bitblocks`. -/
def bitblocks (c : Config) : ℕ := c.size / (512 * 8) + 1

/-- `usedblocks`, the blocks in front of the data blocks. -/
def usedblocks (c : Config) : ℕ := c.ninodes / IPB + 3 + bitblocks c

/-- The assertion `nblocks + usedblocks + nlog == size`: `usedblocks` is a `uint`, so both
sides are. -/
def Accepted (c : Config) : Prop := (c.nblocks + usedblocks c + c.nlog) % 2 ^ 32 = c.size

instance (c : Config) : Decidable (Accepted c) := inferInstanceAs (Decidable (_ = _))

/-- `i2b`. -/
def i2b (inum : ℕ) : ℕ := inum / IPB + 2

/-- The sector `balloc` writes, and the byte and bit in it for block `i`. -/
def ballocAt (c : Config) (i : ℕ) : ℕ × ℕ × ℕ := (c.ninodes / IPB + 3, i / 8, i % 8)

/-! ### The layout of the kernel -/

/-- `log.start` of `initlog`, a difference of `uint`s. -/
def logStart (c : Config) : ℕ := (c.size + 2 ^ 32 - c.nlog) % 2 ^ 32

/-- The sector of the bit for block `b`, and the byte and bit in it (`bi / 8`, `bi % 8`). -/
def bitAt (c : Config) (b : ℕ) : ℕ × ℕ × ℕ :=
  (BBLOCK b c.ninodes, b % BPB / 8, b % BPB % 8)

/-- The sectors of the inodes. -/
def inodeSectors (c : Config) : Set ℕ := {x | ∃ i < c.ninodes, x = IBLOCK i}

/-- The sectors of the bitmap. -/
def bitmapSectors (c : Config) : Set ℕ := {x | ∃ b < c.size, x = BBLOCK b c.ninodes}

/-- The sectors of the log. -/
def logSectors (c : Config) : Set ℕ := {x | ∃ k < c.nlog, x = (logStart c + k) % 2 ^ 32}

/-- The data blocks. -/
def dataBlocks (c : Config) : Set ℕ := Set.Ico (usedblocks c) (usedblocks c + c.nblocks)

/-- The two layouts are one layout, of regions that do not meet. -/
structure Right (c : Config) : Prop where
  disjoint : [{0, 1}, inodeSectors c, bitmapSectors c, dataBlocks c, logSectors c].Pairwise Disjoint
  within : ∀ x ∈ inodeSectors c ∪ bitmapSectors c ∪ dataBlocks c ∪ logSectors c, x < c.size
  inodes : Function.Injective fun i => (IBLOCK i, i % IPB)
  blocks : Function.Injective (bitAt c)
  i2b_eq : ∀ i, i2b i = IBLOCK i
  balloc_eq : ∀ i < 512 * 8, ballocAt c i = bitAt c i

variable {c : Config} {x m i : ℕ}

/-! ### The regions -/

/-- Sets on the two sides of a number do not meet. -/
theorem disjoint_of_lt {s t : Set ℕ} (hs : ∀ x ∈ s, x < m) (ht : ∀ x ∈ t, m ≤ x) : Disjoint s t :=
  Set.disjoint_left.2 fun x hx hx' => (hs x hx).not_ge (ht x hx')

theorem inodeSectors_lt (hx : x ∈ inodeSectors c) : 2 ≤ x ∧ x < c.ninodes / IPB + 3 := by
  obtain ⟨i, hi, rfl⟩ := hx
  simp only [IBLOCK, IPB, BSIZE]
  omega

theorem bitmapSectors_lt (hx : x ∈ bitmapSectors c) :
    c.ninodes / IPB + 3 ≤ x ∧ x < usedblocks c := by
  obtain ⟨b, hb, rfl⟩ := hx
  simp only [BBLOCK, usedblocks, bitblocks, IPB, BPB, BSIZE]
  omega

/-- The log of a disk whose parts add up follows the data blocks. -/
theorem logSectors_lt (h : c.nblocks + usedblocks c + c.nlog = c.size) (hx : x ∈ logSectors c) :
    usedblocks c + c.nblocks ≤ x ∧ x < c.size := by
  obtain ⟨k, hk, rfl⟩ := hx
  have hs := c.size_lt
  have hstart : logStart c = usedblocks c + c.nblocks := by
    unfold logStart
    omega
  rw [hstart]
  omega

theorem inode_injective : Function.Injective fun i => (IBLOCK i, i % IPB) := by
  intro i j h
  simp only [IBLOCK, IPB, BSIZE, Prod.mk.injEq] at h
  omega

theorem bitAt_injective : Function.Injective (bitAt c) := by
  intro i j h
  simp only [bitAt, BBLOCK, BPB, BSIZE, Prod.mk.injEq] at h
  omega

/-- `balloc` writes the first bitmap block, which has the bits of the blocks it is for. -/
theorem ballocAt_eq (h : i < 512 * 8) : ballocAt c i = bitAt c i := by
  simp only [ballocAt, bitAt, BBLOCK, BPB, BSIZE, Nat.mod_eq_of_lt h, Nat.div_eq_of_lt h,
    Nat.zero_add]

/-- The layout of a disk whose parts add up. -/
theorem right_of_sum (h : c.nblocks + usedblocks c + c.nlog = c.size) : Right c where
  disjoint := by
    have hmeta : 2 ≤ c.ninodes / IPB + 3 := Nat.le_add_left 2 (c.ninodes / IPB + 1)
    have hused : c.ninodes / IPB + 3 ≤ usedblocks c := Nat.le_add_right _ _
    have hi : ∀ x ∈ inodeSectors c, 2 ≤ x ∧ x < c.ninodes / IPB + 3 := fun x => inodeSectors_lt
    have hb : ∀ x ∈ bitmapSectors c, c.ninodes / IPB + 3 ≤ x ∧ x < usedblocks c :=
      fun x => bitmapSectors_lt
    have hd : ∀ x ∈ dataBlocks c, usedblocks c ≤ x ∧ x < usedblocks c + c.nblocks :=
      fun x hx => hx
    have hl : ∀ x ∈ logSectors c, usedblocks c + c.nblocks ≤ x ∧ x < c.size :=
      fun x => logSectors_lt h
    have h01 : ∀ x ∈ ({0, 1} : Set ℕ), x < 2 := by
      rintro x (rfl | rfl) <;> omega
    -- The regions come in this order, so each ends before all that follow it.
    refine .cons ?_ (.cons ?_ (.cons ?_ (.cons ?_ (.cons (by simp) .nil))))
    · simp only [List.forall_mem_cons, List.not_mem_nil, false_imp_iff, implies_true, and_true]
      exact ⟨disjoint_of_lt h01 fun x hx => (hi x hx).1,
        disjoint_of_lt h01 fun x hx => by have := hb x hx; omega,
        disjoint_of_lt h01 fun x hx => by have := hd x hx; omega,
        disjoint_of_lt h01 fun x hx => by have := hl x hx; omega⟩
    · simp only [List.forall_mem_cons, List.not_mem_nil, false_imp_iff, implies_true, and_true]
      exact ⟨disjoint_of_lt (fun x hx => (hi x hx).2) fun x hx => (hb x hx).1,
        disjoint_of_lt (fun x hx => (hi x hx).2) fun x hx => hused.trans (hd x hx).1,
        disjoint_of_lt (fun x hx => (hi x hx).2) fun x hx => by have := hl x hx; omega⟩
    · simp only [List.forall_mem_cons, List.not_mem_nil, false_imp_iff, implies_true, and_true]
      exact ⟨disjoint_of_lt (fun x hx => (hb x hx).2) fun x hx => (hd x hx).1,
        disjoint_of_lt (fun x hx => (hb x hx).2) fun x hx => by have := hl x hx; omega⟩
    · simpa using disjoint_of_lt (fun x hx => (hd x hx).2) fun x hx => (hl x hx).1
  within := by
    rintro x (((hx | hx) | hx) | hx)
    · have := inodeSectors_lt hx
      simp only [usedblocks] at h
      omega
    · have := bitmapSectors_lt hx
      omega
    · have : x < usedblocks c + c.nblocks := hx.2
      omega
    · exact (logSectors_lt h hx).2
  inodes := inode_injective
  blocks := bitAt_injective
  i2b_eq _ := rfl
  balloc_eq _ := ballocAt_eq

/-! ### The assertion -/

/-- **A layout that `mkfs` accepts is right iff the sum of its parts does not wrap
around.**  A sum that does accepts a log longer than the disk, and `log.start` is then a
sector far behind its end. -/
theorem layout_right_iff (c : Config) (h : Accepted c) :
    Right c ↔ c.nblocks + usedblocks c + c.nlog < 2 ^ 32 := by
  refine ⟨fun hr => ?_, fun hlt => right_of_sum ((Nat.mod_eq_of_lt hlt).symm.trans h)⟩
  by_contra hge
  have hs := c.size_lt
  have hb := c.nblocks_lt
  have hi := c.ninodes_lt
  have hl := c.nlog_lt
  have hused : usedblocks c < 2 ^ 30 := by
    simp only [usedblocks, bitblocks, IPB, BSIZE]
    omega
  have hsum : c.nblocks + usedblocks c + c.nlog = c.size + 2 ^ 32 := by
    unfold Accepted at h
    omega
  have hstart : c.size ≤ logStart c := by
    unfold logStart
    omega
  have hmem : logStart c ∈ logSectors c := by
    refine ⟨0, by omega, ?_⟩
    rw [Nat.add_zero, logStart, Nat.mod_mod]
  exact (hr.within _ (.inr hmem)).not_ge hstart

/-- The configuration `mkfs.c` ships with. -/
def shipped : Config := ⟨⟨1024, 995 - LOGSIZE, 200, LOGSIZE⟩, by decide, by decide, by decide, by decide⟩

theorem layout_right_shipped : Accepted shipped ∧ Right shipped :=
  ⟨by decide, (layout_right_iff shipped (by decide)).2 (by decide)⟩

/-- Two blocks in all, with more data blocks and more log than any disk has. -/
def wrapped : Config := ⟨⟨2, 2 ^ 31 - 1, 0, 2 ^ 31 - 1⟩, by decide, by decide, by decide, by decide⟩

theorem wrapped_accepted_wrong : Accepted wrapped ∧ ¬ Right wrapped := by
  refine ⟨by decide, fun h => ?_⟩
  -- The first sector of the log: `2 - (2 ^ 31 - 1)` modulo `2 ^ 32`.
  have hlog : 2 ^ 31 + 3 ∈ logSectors wrapped := ⟨0, by decide, by decide⟩
  exact absurd (h.within _ (.inr hlog)) (by decide)

end Nunix.Fs.Layout
