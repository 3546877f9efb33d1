/-
Nunix/Fs/WellFormed.lean

Block ownership on disk.

A file system state is `WellFormed` when the bitmap, the inodes and the indirect
blocks agree on who owns which block, read off the disk alone.  This is the
invariant of the strict runs of `Fs/Ops.lean`, so every operation keeps it.
-/
import Nunix.Fs.Ops

namespace Nunix.Fs

open Bytes Hoare Runs

/-- The blocks the allocated inodes on disk refer to. -/
def diskRefs (d : Disk) : ℕ × Pos → Option ℕ := refs d (superblock d) (dinode d)

/-- The bitmap marks the blocks in front of the data area and the blocks some inode
refers to; no block is referred to twice; and the blocks below the size of an inode
are all there. -/
structure Accounted (d : Disk) : Prop where
  bitmap : ∀ b < (superblock d).size, bit d (superblock d).ninodes b = true ↔
    b < nmeta (superblock d) ∨ ∃ p, diskRefs d p = some b
  once : ∀ {p q b}, diskRefs d p = some b → diskRefs d q = some b → p = q
  filled : ∀ i < (superblock d).ninodes, (dinode d i).type ≠ 0 → ∀ bn,
    bn * BSIZE < (dinode d i).size.toNat → blockOf (diskRefs d) i bn ≠ none

/-- The disk is accounted for, inodes refer to data blocks and directories to inodes,
and the inode cache holds copies of what is on disk. -/
structure WellFormed (s : FsSt) : Prop where
  accounted : Accounted s.disk
  room : nmeta (superblock s.disk) ≤ (superblock s.disk).size
  root : ROOTINO < (superblock s.disk).ninodes
  data : ∀ {p b}, diskRefs s.disk p = some b →
    nmeta (superblock s.disk) ≤ b ∧ b < (superblock s.disk).size
  entries : DirOk s.disk (superblock s.disk) (dinode s.disk)
  cache : Cached (superblock s.disk) s.icache (dinode s.disk)

/-- What a well-formed state is without regard to the entries of directories. -/
structure Formed (s : FsSt) : Prop where
  accounted : Accounted s.disk
  room : nmeta (superblock s.disk) ≤ (superblock s.disk).size
  data : ∀ {p b}, diskRefs s.disk p = some b →
    nmeta (superblock s.disk) ≤ b ∧ b < (superblock s.disk).size
  cache : Cached (superblock s.disk) s.icache (dinode s.disk)

variable {s : FsSt} {held : List ℕ}

theorem WellFormed.formed (h : WellFormed s) : Formed s :=
  ⟨h.accounted, h.room, h.data, h.cache⟩

/-- The blocks in use are those in front of the data area and those referred to. -/
theorem Formed.mem_used (h : Formed s) (b : ℕ) : b ∈ used s.disk (superblock s.disk) ↔
    b < nmeta (superblock s.disk) ∨ ∃ p, diskRefs s.disk p = some b := by
  constructor
  · rintro ⟨hb, hbit⟩
    exact (h.accounted.bitmap b hb).mp hbit
  · intro hb
    have hlt : b < (superblock s.disk).size := by
      rcases hb with hb | ⟨p, hp⟩
      · exact hb.trans_le h.room
      · exact (h.data hp).2
    exact ⟨hlt, (h.accounted.bitmap b hlt).mpr hb⟩

/-- The disk is its own table. -/
theorem Formed.core (h : Formed s) : Core (superblock s.disk) s.ballocs s (dinode s.disk) := by
  refine ⟨h.room, rfl, ⟨?_, ?_, ?_, h.accounted.once⟩, h.cache, fun c hc => Or.inl hc⟩
  · exact fun b hb => (h.mem_used b).mpr (Or.inl hb)
  · exact fun hp => (h.mem_used _).mpr (Or.inr ⟨_, hp⟩)
  · exact fun hp => not_lt.mpr (h.data hp).1

theorem Formed.strict (h : Formed s) : Strict s.disk (superblock s.disk) (dinode s.disk) :=
  ⟨fun _ _ => rfl, fun b hb => (h.mem_used b).mp hb, h.accounted.filled⟩

/-- A well-formed state is strict, with the disk as its table. -/
theorem WellFormed.inv (h : WellFormed s) :
    Inv (superblock s.disk) s.ballocs True s (dinode s.disk) :=
  ⟨h.formed.core, h.root, fun _ _ => ⟨rfl, fun _ _ => rfl⟩, h.entries, fun _ => h.formed.strict⟩

section Strict

variable {sb : Superblock} {H : List (Disk × ℕ)} {V : ℕ → Dinode}

/-- In a strict state the table is the disk. -/
theorem Core.diskRefs_eq (h : Core sb H s V) (hs : Strict s.disk sb V) :
    diskRefs s.disk = refs s.disk sb V := by
  unfold diskRefs
  rw [h.super]
  exact refs_congr_table hs.clean

theorem Inv.diskRefs_eq (h : Inv sb H True s V) : diskRefs s.disk = refs s.disk sb V :=
  h.toCore.diskRefs_eq (h.strict trivial)

theorem Core.formed (h : Core sb H s V) (hs : Strict s.disk sb V) : Formed s := by
  have hrefs := h.diskRefs_eq hs
  refine ⟨⟨?_, hrefs ▸ h.owns.inj, ?_⟩, ?_, ?_, ?_⟩ <;> rw [h.super]
  · intro b hb
    rw [hrefs]
    constructor
    · exact fun hbit => hs.exact b ⟨hb, hbit⟩
    · rintro (hr | ⟨p, hp⟩)
      · exact (h.owns.reserved_used hr).2
      · exact (h.owns.mem_used hp).2
  · intro i hi ht bn hbn
    rw [hs.clean i hi] at ht hbn
    rw [hrefs]
    exact hs.filled i hi ht bn hbn
  · exact h.room
  · intro p b hp
    rw [hrefs] at hp
    exact ⟨h.ref_data hp, h.ref_lt hp⟩
  · refine ⟨h.cache.slot_lt, h.cache.inum_lt, ?_, ?_, h.cache.valid, h.cache.inj⟩
    · intro k hk hv
      rw [hs.clean _ (h.cache.inum_lt hk)]
      exact h.cache.copy hk hv
    · intro k hk hv
      rw [hs.clean _ (h.cache.inum_lt hk)]
      exact h.cache.type_ne hk hv

/-- A strict state is well formed. -/
theorem Inv.wellFormed (h : Inv sb H True s V) : WellFormed s := by
  have hf := h.toCore.formed (h.strict trivial)
  refine ⟨hf.accounted, hf.room, h.super.symm ▸ h.root, hf.data, ?_, hf.cache⟩
  rw [h.super]
  intro i hi ht e he
  rw [(h.strict trivial).clean i hi] at ht he
  have := h.dirs i hi ht e he
  rwa [← h.diskRefs_eq, diskRefs, h.super] at this

end Strict

/-- **Block ownership.**  From a well-formed state, every run of operations ends in a
well-formed state; `bfree` never finds a free block; and no two inodes share a block. -/
theorem block_ownership (hwf : WellFormed s) (hheld : Refs s held) {ops : List FsOp}
    {t : FsSt × List ℕ} (hrun : run fsStep (s, held) ops = some t) :
    WellFormed t.1 ∧
      (∀ op : FsOp, op.Allowed t.2 t.1 → ∀ s',
        op.exec t.2 t.1 ≠ .error (.panic .freeingFreeBlock) s') ∧
      ∀ {i j p q b}, diskRefs t.1.disk (i, p) = some b → diskRefs t.1.disk (j, q) = some b →
        i = j ∧ p = q := by
  have hgood := good_run ⟨⟨_, hwf.inv⟩, hheld⟩ hrun
  obtain ⟨V, hI⟩ := hgood.inv
  refine ⟨hI.wellFormed, fun op hop s' he => ?_, fun hp hq => ?_⟩
  · exact ((exec_spec hgood hop).of_error he).1 rfl
  · exact Prod.mk.inj (hI.wellFormed.accounted.once hp hq)

/-! ### Checking a disk -/

/-- The positions in an inode. -/
def positions : List Pos :=
  (List.finRange NDIRECT).map .direct ++ .indirect :: (List.finRange NINDIRECT).map .entry

/-- The references of the inodes on a disk, listed. -/
def refList (d : Disk) : List ((ℕ × Pos) × ℕ) :=
  ((List.range (superblock d).ninodes).filter fun i => (dinode d i).type ≠ 0).flatMap fun i =>
    positions.filterMap fun q => (diskRefs d (i, q)).map fun b => ((i, q), b)

/-- `Accounted`, as a test. -/
def accounts (d : Disk) : Bool :=
  (List.range (superblock d).size).all (fun b => bit d (superblock d).ninodes b ==
    (decide (b < nmeta (superblock d)) || (refList d).any (·.2 == b))) &&
  decide ((refList d).map Prod.snd).Nodup &&
  (List.range (superblock d).ninodes).all fun i => (dinode d i).type == 0 ||
    (List.range ((dinode d i).size.toNat / BSIZE + 1)).all fun bn =>
      (dinode d i).size.toNat ≤ bn * BSIZE || (blockOf (diskRefs d) i bn).isSome

/-- The rest of `WellFormed`, for a disk at boot. -/
def bootable (d : Disk) : Bool :=
  decide (nmeta (superblock d) ≤ (superblock d).size) &&
  decide (ROOTINO < (superblock d).ninodes) &&
  (refList d).all (fun x => decide (nmeta (superblock d) ≤ x.2 ∧ x.2 < (superblock d).size)) &&
  (List.range (superblock d).ninodes).all fun i => (dinode d i).type != T_DIR ||
    (List.range ((dinode d i).size.toNat / DESIZE)).all fun e =>
      (content d (diskRefs d) i).get16 (DESIZE * e) < (superblock d).ninodes

section Check

variable {d : Disk} {p : ℕ × Pos} {b : ℕ}

theorem mem_positions (q : Pos) : q ∈ positions := by
  cases q <;> simp [positions]

theorem mem_refList : (p, b) ∈ refList d ↔ diskRefs d p = some b := by
  simp only [refList, List.mem_flatMap, List.mem_filter, List.mem_range, List.mem_filterMap,
    Option.map_eq_some_iff, decide_eq_true_eq]
  constructor
  · rintro ⟨i, -, q, -, c, hc, heq⟩
    obtain ⟨rfl, rfl⟩ := Prod.mk.inj heq
    exact hc
  · intro h
    obtain ⟨hi, ht, -⟩ := refs_eq_some.mp h
    exact ⟨p.1, ⟨hi, ht⟩, p.2, mem_positions _, b, h, rfl⟩

theorem accounted_of_check (h : accounts d = true) : Accounted d := by
  simp only [accounts, Bool.and_eq_true, List.all_eq_true, List.mem_range, beq_iff_eq,
    decide_eq_true_eq, Bool.or_eq_true] at h
  obtain ⟨⟨hbits, hnodup⟩, hfilled⟩ := h
  refine ⟨fun b hb => ?_, fun {p q b} hp hq => ?_, fun i hi ht bn hbn => ?_⟩
  · rw [hbits b hb]
    simp only [Bool.or_eq_true, decide_eq_true_eq, List.any_eq_true, beq_iff_eq]
    refine or_congr_right ⟨?_, ?_⟩
    · rintro ⟨⟨p, b⟩, hp, rfl⟩
      exact ⟨p, mem_refList.mp hp⟩
    · rintro ⟨p, hp⟩
      exact ⟨(p, b), mem_refList.mpr hp, rfl⟩
  · have heq := List.inj_on_of_nodup_map hnodup (mem_refList.mpr hp) (mem_refList.mpr hq) rfl
    exact (Prod.mk.inj heq).1
  · have hlt : bn < (dinode d i).size.toNat / BSIZE + 1 := by
      simp only [BSIZE] at *
      omega
    have hsome := ((hfilled i hi).resolve_left ht bn hlt).resolve_left (not_le.mpr hbn)
    exact Option.isSome_iff_ne_none.mp hsome

/-- The kernel boots from a disk that passes the tests. -/
theorem wellFormed_of_check (h : accounts d = true) (h' : bootable d = true)
    (c : ℕ → ℤ × Bytes) : WellFormed (mounted d c) := by
  simp only [bootable, Bool.and_eq_true, List.all_eq_true, List.mem_range, decide_eq_true_eq,
    Bool.or_eq_true, bne_iff_ne] at h'
  obtain ⟨⟨⟨hroom, hroot⟩, hdata⟩, hdirs⟩ := h'
  refine ⟨accounted_of_check h, hroom, hroot, fun hp => hdata _ (mem_refList.mpr hp),
    fun i hi ht e he => ?_, mounted_cached hroot _⟩
  refine (hdirs i hi).resolve_left (not_not.mpr ht) e ?_
  have he : DESIZE * e + DESIZE ≤ (dinode d i).size.toNat := he
  simp only [DESIZE] at *
  omega

end Check

/-! ### A small disk -/

/-- A directory with one entry, in block 5. -/
def tinyRoot : Dinode :=
  { Dinode.zero with
    type := T_DIR, nlink := 1, size := 16, addrs := fun l => if l = 0 then 5 else 0 }

/-- A disk of 64 blocks and 8 inodes: the root directory has one entry, named "a", for
inode `inum`. -/
def tinyDisk (inum : ℕ) : Disk := fun x =>
  if x = 1 then ((Bytes.zero.put32 0 64).put32 4 29).put32 8 8
  else if x = 2 then Bytes.zero.blit 64 64 tinyRoot.encode
  else if x = 4 then fun k => if k = 0 then 63 else 0
  else if x = 5 then dirent inum [97]
  else Bytes.zero

/-- The kernel booted from it. -/
def tiny (inum : ℕ) : FsSt := mounted (tinyDisk inum) fun _ => (0, Bytes.zero)

theorem tiny_superblock (inum : ℕ) : superblock (tinyDisk inum) = ⟨64, 29, 8, 0⟩ := rfl

/-- With an entry for the root itself the small disk is well formed. -/
theorem tiny_wellFormed : WellFormed (tiny 1) :=
  wellFormed_of_check (by decide +kernel) (by decide +kernel) _

/-- A run in which a file is created, written, unlinked and closed. -/
theorem block_ownership_tiny : ∃ t : FsSt × List ℕ,
    run fsStep (tiny 1, []) [.create [98] T_FILE 0 0, .writei 1 (fun _ => 7) 0 1, .iunlock 1,
      .unlink [98], .iput 1] = some t ∧ t.1.ballocs.length = 1 ∧ WellFormed t.1 := by
  have hev : (run fsStep (tiny 1, []) [.create [98] T_FILE 0 0, .writei 1 (fun _ => 7) 0 1,
      .iunlock 1, .unlink [98], .iput 1]).map (fun t => t.1.ballocs.length) = some 1 := by
    decide +kernel
  obtain ⟨t, ht, hlen⟩ := Option.map_eq_some_iff.mp hev
  exact ⟨t, ht, hlen, (block_ownership (tiny_wellFormed) mounted_refs ht).1⟩

/-- A directory entry may name an inode behind the inode blocks: number 16 lies in the
bitmap block.  Looking its name up to create a file reads that block as an inode without
links, and `iput` clears it. -/
theorem entry_clears_bitmap : ∃ t : FsSt × List ℕ,
    Accounted (tiny 16).disk ∧
      Cached (superblock (tiny 16).disk) (tiny 16).icache (dinode (tiny 16).disk) ∧
      run fsStep (tiny 16, []) [.create [97] T_FILE 0 0] = some t ∧ ¬ Accounted t.1.disk := by
  have hev : (run fsStep (tiny 16, []) [.create [97] T_FILE 0 0]).map
      (fun t => ((superblock t.1.disk).size, (superblock t.1.disk).ninodes,
        bit t.1.disk 8 0)) = some (64, 8, false) := by
    decide +kernel
  obtain ⟨t, ht, hdata⟩ := Option.map_eq_some_iff.mp hev
  obtain ⟨hsize, hdata⟩ := Prod.mk.inj hdata
  obtain ⟨hninodes, hbit⟩ := Prod.mk.inj hdata
  refine ⟨t, accounted_of_check (by decide +kernel), mounted_cached (by decide) _, ht, fun hacc => ?_⟩
  -- block 0 is no longer marked
  have hmark := (hacc.bitmap 0 (by rw [hsize]; decide)).mpr
    (Or.inl (Nat.zero_lt_of_lt one_lt_nmeta))
  rw [hninodes, hbit] at hmark
  cases hmark

end Nunix.Fs
