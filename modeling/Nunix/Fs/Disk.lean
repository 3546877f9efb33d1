/-
Nunix/Fs/Disk.lean

The on-disk format (fs.h): the superblock, the inode blocks, the free bitmap and
the indirect blocks, as fields of disk blocks.

Each structure comes with the function that reads it off the disk and a lemma that
says what a block write does to it: writing inode `i` changes inode `i` only,
setting the bit of block `b` changes the bit of `b` only.
-/
import Nunix.Bytes
import Nunix.Params

namespace Nunix.Fs

open Bytes
open Function (update update_of_ne update_self)

/-- The blocks of a disk. -/
abbrev Disk : Type := ℕ → Bytes

/-! ### Superblock -/

/-- `struct superblock`. -/
structure Superblock where
  size : ℕ
  nblocks : ℕ
  ninodes : ℕ
  nlog : ℕ

/-- The superblock, in block 1. -/
def superblock (d : Disk) : Superblock where
  size := (d 1).get32 0
  nblocks := (d 1).get32 4
  ninodes := (d 1).get32 8
  nlog := (d 1).get32 12

variable {d : Disk} {b c : Bytes} {ninodes x j : ℕ} {i y k : ℕ}

theorem superblock_update (h : x ≠ 1) : superblock (update d x b) = superblock d := by
  simp [superblock, update_of_ne h.symm]

/-- Block containing inode `i`. -/
def IBLOCK (i : ℕ) : ℕ := i / IPB + 2

/-- Block containing the bit for block `b`. -/
def BBLOCK (b ninodes : ℕ) : ℕ := b / BPB + ninodes / IPB + 3

/-! ### Inodes -/

/-- `struct dinode`. -/
structure Dinode where
  type : Int16
  major : Int16
  minor : Int16
  nlink : Int16
  size : UInt32
  addrs : Fin (NDIRECT + 1) → UInt32
  deriving DecidableEq

namespace Dinode

theorem ext' {m n : Dinode} (h₁ : m.type = n.type) (h₂ : m.major = n.major)
    (h₃ : m.minor = n.minor) (h₄ : m.nlink = n.nlink) (h₅ : m.size = n.size)
    (h₆ : ∀ i, m.addrs i = n.addrs i) : m = n := by
  cases m
  cases n
  simp only [mk.injEq] at *
  exact ⟨h₁, h₂, h₃, h₄, h₅, funext h₆⟩

/-- The 64 bytes of an on-disk inode. -/
def encode (n : Dinode) : Bytes := fun k =>
  if k < 2 then byte n.type.toUInt16.toNat k
  else if k < 4 then byte n.major.toUInt16.toNat (k - 2)
  else if k < 6 then byte n.minor.toUInt16.toNat (k - 4)
  else if k < 8 then byte n.nlink.toUInt16.toNat (k - 6)
  else if k < 12 then byte n.size.toNat (k - 8)
  else if h : (k - 12) / 4 < NDIRECT + 1 then
    byte (n.addrs ⟨(k - 12) / 4, h⟩).toNat ((k - 12) % 4)
  else 0

/-- Read an inode off its 64 bytes. -/
def decode (b : Bytes) : Dinode where
  type := (UInt16.ofNat (b.get16 0)).toInt16
  major := (UInt16.ofNat (b.get16 2)).toInt16
  minor := (UInt16.ofNat (b.get16 4)).toInt16
  nlink := (UInt16.ofNat (b.get16 6)).toInt16
  size := UInt32.ofNat (b.get32 8)
  addrs := fun i => UInt32.ofNat (b.get32 (12 + 4 * i))

theorem decode_congr (h : ∀ k < 64, b k = c k) : decode b = decode c := by
  have h16 : ∀ o, o + 2 ≤ 64 → b.get16 o = c.get16 o := fun o ho =>
    get16_congr fun k hk => h _ (by omega)
  have h32 : ∀ o, o + 4 ≤ 64 → b.get32 o = c.get32 o := fun o ho =>
    get32_congr fun k hk => h _ (by omega)
  refine Dinode.ext' ?_ ?_ ?_ ?_ ?_ fun i => ?_
  · simp [decode, h16 0 (by omega)]
  · simp [decode, h16 2 (by omega)]
  · simp [decode, h16 4 (by omega)]
  · simp [decode, h16 6 (by omega)]
  · simp [decode, h32 8 (by omega)]
  · have hi : (i : ℕ) < 13 := i.isLt
    simp [decode, h32 (12 + 4 * i) (by omega)]

/-- What `iupdate` writes is what `ilock` reads. -/
theorem decode_encode (n : Dinode) : decode n.encode = n := by
  have h16 : ∀ (x : Int16) o, (∀ k < 2, n.encode (o + k) = byte x.toUInt16.toNat k) →
      (UInt16.ofNat (n.encode.get16 o)).toInt16 = x := by
    intro x o h
    rw [get16_of_bytes x.toUInt16.toNat_lt h]
    simp
  have h32 : ∀ (x : UInt32) o, (∀ k < 4, n.encode (o + k) = byte x.toNat k) →
      UInt32.ofNat (n.encode.get32 o) = x := by
    intro x o h
    rw [get32_of_bytes x.toNat_lt h]
    simp
  -- each field sits at its offset
  refine Dinode.ext' ?_ ?_ ?_ ?_ ?_ fun i => ?_
  · refine h16 n.type 0 fun k hk => ?_
    simp [encode, hk]
  · refine h16 n.major 2 fun k hk => ?_
    simp [encode, show ¬ 2 + k < 2 by omega, show 2 + k < 4 by omega]
  · refine h16 n.minor 4 fun k hk => ?_
    simp [encode, show ¬ 4 + k < 2 by omega, show ¬ 4 + k < 4 by omega,
      show 4 + k < 6 by omega]
  · refine h16 n.nlink 6 fun k hk => ?_
    simp [encode, show ¬ 6 + k < 2 by omega, show ¬ 6 + k < 4 by omega,
      show ¬ 6 + k < 6 by omega, show 6 + k < 8 by omega]
  · refine h32 n.size 8 fun k hk => ?_
    simp [encode, show ¬ 8 + k < 2 by omega, show ¬ 8 + k < 4 by omega,
      show ¬ 8 + k < 6 by omega, show ¬ 8 + k < 8 by omega, show 8 + k < 12 by omega]
  · refine h32 (n.addrs i) (12 + 4 * i) fun k hk => ?_
    have hdiv : (12 + 4 * (i : ℕ) + k - 12) / 4 = i := by omega
    have hmod : (12 + 4 * (i : ℕ) + k - 12) % 4 = k := by omega
    have hi := i.isLt
    simp [encode, show ¬ 12 + 4 * (i : ℕ) + k < 2 by omega,
      show ¬ 12 + 4 * (i : ℕ) + k < 4 by omega, show ¬ 12 + 4 * (i : ℕ) + k < 6 by omega,
      show ¬ 12 + 4 * (i : ℕ) + k < 8 by omega, show ¬ 12 + 4 * (i : ℕ) + k < 12 by omega,
      hdiv, hmod, hi]

/-- The inode of zero bytes. -/
def zero : Dinode := ⟨0, 0, 0, 0, 0, fun _ => 0⟩

end Dinode

/-- Inode `i` on disk. -/
def dinode (d : Disk) (i : ℕ) : Dinode := .decode ((d (IBLOCK i)).drop (64 * (i % IPB)))

/-- The block of inode `i` with inode `i` replaced by `n`. -/
def withDinode (d : Disk) (i : ℕ) (n : Dinode) : Bytes :=
  (d (IBLOCK i)).blit (64 * (i % IPB)) 64 n.encode

theorem dinode_update_self (d : Disk) (i : ℕ) (n : Dinode) :
    dinode (update d (IBLOCK i) (withDinode d i n)) i = n := by
  rw [dinode, update_self, ← n.decode_encode]
  refine Dinode.decode_congr fun k hk => ?_
  rw [Bytes.drop, withDinode, blit_apply_of_mem (by omega) (by omega), n.decode_encode,
    Nat.add_sub_cancel_left]

theorem dinode_update_of_ne (h : j ≠ i) (n : Dinode) :
    dinode (update d (IBLOCK i) (withDinode d i n)) j = dinode d j := by
  by_cases hb : IBLOCK j = IBLOCK i
  · -- the same block, another slot
    have hslot : j % IPB ≠ i % IPB := by
      simp only [IBLOCK, IPB, BSIZE] at hb ⊢
      omega
    refine Dinode.decode_congr fun k hk => ?_
    rw [Bytes.drop, Bytes.drop, hb, update_self, withDinode,
      blit_apply_of_notMem (by omega)]
  · rw [dinode, dinode, update_of_ne hb]

theorem dinode_update_block (h : IBLOCK i ≠ x) : dinode (update d x b) i = dinode d i := by
  rw [dinode, dinode, update_of_ne h]

/-! ### The free bitmap -/

/-- The bit of block `b`. -/
def bit (d : Disk) (ninodes b : ℕ) : Bool := (d (BBLOCK b ninodes)).getBit (b % BPB)

theorem bblock_eq_iff {a b : ℕ} : BBLOCK a ninodes = BBLOCK b ninodes ↔ a / BPB = b / BPB := by
  simp only [BBLOCK]
  omega

theorem bit_set {b : ℕ} (x : ℕ) :
    bit (update d (BBLOCK b ninodes)
      ((d (BBLOCK b ninodes)).setBit (b % BPB))) ninodes x
      = if x = b then true else bit d ninodes x := by
  have hB : BPB = 4096 := rfl
  by_cases hblk : BBLOCK x ninodes = BBLOCK b ninodes
  · rw [bit, hblk, update_self, getBit_setBit]
    have hdiv := bblock_eq_iff.mp hblk
    by_cases hx : x = b
    · simp [hx]
    · have : x % BPB ≠ b % BPB := by
        rw [hB] at hdiv ⊢
        omega
      rw [if_neg this, if_neg hx, bit, hblk]
  · have hx : x ≠ b := by
      rintro rfl
      exact hblk rfl
    rw [bit, update_of_ne hblk, if_neg hx, bit]

theorem bit_clear {b : ℕ} (x : ℕ) :
    bit (update d (BBLOCK b ninodes)
      ((d (BBLOCK b ninodes)).clearBit (b % BPB))) ninodes x
      = if x = b then false else bit d ninodes x := by
  have hB : BPB = 4096 := rfl
  by_cases hblk : BBLOCK x ninodes = BBLOCK b ninodes
  · rw [bit, hblk, update_self, getBit_clearBit]
    have hdiv := bblock_eq_iff.mp hblk
    by_cases hx : x = b
    · simp [hx]
    · have : x % BPB ≠ b % BPB := by
        rw [hB] at hdiv ⊢
        omega
      rw [if_neg this, if_neg hx, bit, hblk]
  · have hx : x ≠ b := by
      rintro rfl
      exact hblk rfl
    rw [bit, update_of_ne hblk, if_neg hx, bit]

theorem bit_update_block {b : ℕ} (h : BBLOCK b ninodes ≠ x) :
    bit (update d x c) ninodes b = bit d ninodes b := by
  rw [bit, bit, update_of_ne h]

/-! ### Indirect blocks -/

/-- Entry `j` of the indirect block `x`. -/
def entry (d : Disk) (x j : ℕ) : UInt32 := UInt32.ofNat ((d x).get32 (4 * j))

theorem entry_update_block (h : x ≠ y) : entry (update d y b) x j = entry d x j := by
  rw [entry, entry, update_of_ne h]

theorem entry_put32 (a : UInt32) :
    entry (update d x ((d x).put32 (4 * j) a.toNat)) x k
      = if k = j then a else entry d x k := by
  rw [entry, update_self]
  by_cases hk : k = j
  · rw [hk, if_pos rfl, get32_put32_self, Nat.mod_eq_of_lt a.toNat_lt, UInt32.ofNat_toNat]
  · rw [if_neg hk, get32_put32_of_disjoint (by omega), entry]

end Nunix.Fs
