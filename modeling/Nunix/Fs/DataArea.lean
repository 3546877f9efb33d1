/-
Nunix/Fs/DataArea.lean

The blocks `balloc` hands out.

The log lies at the end of the disk, where neither the bitmap of `mkfs` nor the scan
of `balloc` knows about it: the bitmap marks the blocks up to the counter of `mkfs`
only, and the scan runs to the end of the disk.  So a call of `balloc` returns a block
of the data area exactly if it finds a free one there, and a full data area makes it
hand out the log.
-/
import Nunix.Fs.Image
import Nunix.Fs.Ops

namespace Nunix.Fs

open Bytes Hoare Runs Mkfs

/-- The first block of the log (`initlog`). -/
def logStart (sb : Superblock) : ℕ := sb.size - sb.nlog

/-- The blocks between the bitmap and the log. -/
def dataArea (sb : Superblock) : Set ℕ := {b | nmeta sb ≤ b ∧ b < logStart sb}

variable {files : List HostFile}

/-- The inodes of a mounted image are the table. -/
theorem Mkfs.Image.inv {m : Img} (h : Image files m) (hroom : m.freeblock ≤ Mkfs.size)
    (consoleRead : ℕ → ℤ × Bytes) :
    Inv sb [] False (mounted m.disk consoleRead) (dinode m.disk) := by
  have hused : used m.disk sb = {b | b < m.freeblock} := by
    ext b
    show b < Mkfs.size ∧ bit m.disk ninodes b = true ↔ b < m.freeblock
    constructor
    · rintro ⟨hb, hbit⟩
      rw [h.bits b hb] at hbit
      exact of_decide_eq_true hbit
    · intro hb
      have hlt := hb.trans_le hroom
      refine ⟨hlt, ?_⟩
      rw [h.bits b hlt]
      exact decide_eq_true hb
  refine ⟨⟨by decide, h.counted.super, ?_, mounted_cached (by decide) _, ?_⟩, by decide,
    fun _ _ => ⟨rfl, fun _ _ => rfl⟩, h.dirs, False.elim⟩
  · show Owns (refs m.disk sb (dinode m.disk)) (used m.disk sb) (reserved sb)
    rw [hused]
    exact h.counted.owns
  · exact fun c hc => absurd hc List.not_mem_nil

/-- The kernel can run on an image of `mkfs`. -/
theorem Mkfs.Image.good {m : Img} (h : Image files m) (hroom : m.freeblock ≤ Mkfs.size)
    (consoleRead : ℕ → ℤ × Bytes) : Good sb [] False [] (mounted m.disk consoleRead) :=
  ⟨⟨dinode m.disk, h.inv hroom consoleRead⟩, mounted_refs⟩

/-- A call of `balloc` returns a block behind the bitmap; it is in the data area exactly
if some block of the data area is free. -/
theorem Handed.mem_dataArea {sb : Superblock} {c : Disk × ℕ} (h : Handed sb c) :
    nmeta sb ≤ c.2 ∧
      (c.2 ∈ dataArea sb ↔ ∃ b ∈ dataArea sb, bit c.1 sb.ninodes b = false) := by
  obtain ⟨-, hbit, hmin⟩ := firstFree_eq_some.mp h.first
  rw [h.super] at hbit hmin
  refine ⟨h.data, fun hc => ⟨c.2, hc, hbit⟩, ?_⟩
  rintro ⟨b, ⟨-, hlog⟩, hfree⟩
  -- the scan stops at `b` at the latest
  have hle : c.2 ≤ b := by
    by_contra hlt
    rw [hmin b (not_le.mp hlt)] at hfree
    cases hfree
  exact ⟨h.data, hle.trans_lt hlog⟩

/-- **The data area.**  `mkfs` makes an image of every list of files that fits, and in
every run on it every call of `balloc`, also of an operation that does not return,
returns a block behind the bitmap, and one in front of the log exactly if it finds such
a block free. -/
theorem balloc_dataArea {files : List HostFile} (hfits : Fits files)
    (consoleRead : ℕ → ℤ × Bytes) :
    ∃ m, mkfs files = some m ∧ ∀ {ops : List FsOp} {t : FsSt × List ℕ},
      run fsStep (mounted m.disk consoleRead, []) ops = some t →
      ∀ op : FsOp, op.Allowed t.2 t.1 → ∀ c ∈ (after (op.exec t.2) t.1).ballocs,
        nmeta sb ≤ c.2 ∧
          (c.2 ∈ dataArea sb ↔ ∃ b ∈ dataArea sb, bit c.1 sb.ninodes b = false) := by
  obtain ⟨m, hm, him, -⟩ := mkfs_spec hfits
  refine ⟨m, hm, fun {ops t} hrun op hop c hc => ?_⟩
  have hroom : m.freeblock ≤ Mkfs.size := by
    have hblocks := hfits.blocks
    have hmeta : nmeta sb + nblocks + LOGSIZE = Mkfs.size := by decide
    rw [him.freeblock]
    omega
  have hgood := good_run (him.good hroom consoleRead) hrun
  have hhanded : ∀ c ∈ (after (op.exec t.2) t.1).ballocs, Handed sb c := by
    refine (exec_spec hgood hop).after (P := fun s => ∀ c ∈ s.ballocs, Handed sb c) ?_ ?_
    · intro _ s' hs' c hc
      obtain ⟨V, hI⟩ := hs'.inv
      exact (hI.handed c hc).resolve_left List.not_mem_nil
    · exact fun _ s' hs' c hc => (hs'.2 c hc).resolve_left List.not_mem_nil
  exact (hhanded c hc).mem_dataArea

/-! ### A full data area -/

/-- A file of `n` blocks of zeros. -/
def zeroFile (n : ℕ) : HostFile where
  name := [97]
  reads := List.replicate n (List.replicate BSIZE 0)
  reads_le := by
    intro buf hbuf
    rw [List.eq_of_mem_replicate hbuf, List.length_replicate]
    decide

/-- Thirty files that take all blocks of the data area, together with the one block of
the root directory. -/
def fullFiles : List HostFile :=
  List.replicate 6 (zeroFile 140) ++ [zeroFile 117] ++ List.replicate 23 (zeroFile 0)

theorem zeroFile_size (n : ℕ) : (zeroFile n).size = n * BSIZE := by
  simp [HostFile.size, zeroFile]

theorem dataBlocks_fullFiles : dataBlocks 2 fullFiles = nblocks := by
  simp only [dataBlocks, fullFiles, List.map_append, List.map_replicate, List.map_cons,
    List.map_nil, zeroFile_size]
  decide

theorem fits_fullFiles : Fits fullFiles := by
  have hfile : ∀ f ∈ fullFiles, ∃ n ≤ MAXFILE, f = zeroFile n := by
    intro f hf
    simp only [fullFiles, List.mem_append, List.mem_replicate, List.mem_singleton] at hf
    rcases hf with (⟨-, rfl⟩ | rfl) | ⟨-, rfl⟩
    · exact ⟨140, by decide, rfl⟩
    · exact ⟨117, by decide, rfl⟩
    · exact ⟨0, by decide, rfl⟩
  refine ⟨fun f hf => ?_, fun f hf => ?_, by decide, dataBlocks_fullFiles.le⟩
  · obtain ⟨n, -, rfl⟩ := hfile f hf
    exact (by decide : slash ∉ [(97 : UInt8)])
  · obtain ⟨n, hn, rfl⟩ := hfile f hf
    rw [zeroFile_size]
    exact Nat.mul_le_mul_right _ hn

section FullRun

variable {d : Disk} {c : ℕ → ℤ × Bytes} {s : FsSt}

theorem namexLoop_none {parent : Bool} {path name : List UInt8} (ip : ℕ)
    (h : skipelem path = none) : namexLoop parent path ip name = (do
      if parent then
        iput ip
        return none
      return some (ip, name)) := by
  rw [namexLoop]
  split
  · rename_i h'
    rw [h] at h'
    cases h'
  · rfl

/-- Opening the root directory finds its cache entry. -/
theorem namei_root : Wp (FsOp.exec [] (.namei [slash])) (fun held s => held = [0] ∧ s.disk = d ∧
    s.icache 0 = { (mounted d c).icache 0 with ref := 2 }) (fun _ _ => False) (mounted d c) := by
  simp only [FsOp.exec, namei, namex, namexLoop_none _ (show skipelem [slash] = none from rfl)]
  exact ⟨rfl, rfl, rfl⟩

/-- Locking an inode for the first time reads it. -/
theorem ilock_read (hr : 1 ≤ (s.icache 0).ref) (hb : (s.icache 0).busy = false)
    (hv : (s.icache 0).valid = false) (ht : (dinode s.disk (s.icache 0).inum).type ≠ 0) :
    Wp (FsOp.exec [0] (.ilock 0)) (fun held s' => held = [0] ∧ s'.disk = s.disk ∧
      (s'.icache 0).busy = true ∧ (s'.icache 0).toDinode = dinode s.disk (s.icache 0).inum)
      (fun _ _ => False) s := by
  have hr' : ¬ (s.icache 0).ref < 1 := not_lt.mpr hr
  simp only [FsOp.exec, ilock, wp_bind, wp_slot, if_neg hr', hb, Bool.false_eq_true, if_false,
    wp_modifySlot, hv, if_true, wp_get, setSlot_disk]
  exact wp_ite.mpr ⟨fun h0 => absurd h0 ht, fun _ => ⟨rfl, rfl, rfl, rfl⟩⟩

/-- `bmap` of a missing direct block calls `balloc`. -/
theorem bmap_hole {k bn b : ℕ} (hbn : bn < NDIRECT)
    (ha : (s.icache k).addrs ⟨bn, Nat.lt_succ_of_lt hbn⟩ = 0) (hb : firstFree s.disk = some b)
    {E : Halt → FsSt → Prop} : Wp (bmap k bn) (fun _ s' => (s.disk, b) ∈ s'.ballocs) E s := by
  rw [bmap, dif_pos hbn]
  simp only [wp_bind, wp_slot, if_pos ha, wp_balloc]
  refine ⟨fun b' hb' => ?_, fun hnone => ?_⟩
  · rw [hb] at hb'
    obtain rfl := Option.some.inj hb'
    exact List.mem_cons_self
  · rw [hb] at hnone
    cases hnone

/-- Reading behind the first block of a directory of two blocks. -/
theorem readi_hole (ht : (s.icache 0).type = T_DIR) (hsize : (s.icache 0).size.toNat = 1024)
    (ha : (s.icache 0).addrs ⟨1, by decide⟩ = 0) {b : ℕ} (hb : firstFree s.disk = some b) :
    Wp (FsOp.exec [0] (.readi 0 512 1)) (fun _ s' => (s.disk, b) ∈ s'.ballocs)
      (fun _ _ => False) s := by
  have hdev : ¬ T_DIR = T_DEV := by decide
  simp only [FsOp.exec, readi, wp_bind, wp_slot, ht, hdev, if_false, hsize]
  rw [if_neg (by decide), if_neg (by decide), wp_bind, readiLoop, dif_pos (by decide), wp_bind]
  refine (bmap_hole (by decide) ha hb).imp fun x s' hs' => ?_
  simp only [wp_bind, wp_bread]
  rw [readiLoop, dif_neg (by decide)]
  exact hs'

end FullRun

/-- The image of the full disk, the root directory opened and locked, and a read of its
unused end. -/
theorem full_run : ∃ m t, mkfs fullFiles = some m ∧
    run fsStep (mounted m.disk fun _ => (0, Bytes.zero), []) [.namei [slash], .ilock 0] = some t ∧
    (FsOp.readi 0 512 1).Allowed t.2 t.1 ∧ ∃ held s,
      (FsOp.readi 0 512 1).exec t.2 t.1 = .ok held s ∧ (m.disk, logStart sb) ∈ s.ballocs := by
  obtain ⟨m, hm, him, -⟩ := mkfs_spec fits_fullFiles
  have hfree : m.freeblock = logStart sb := by
    rw [him.freeblock, dataBlocks_fullFiles]
    rfl
  have hsize : (dinode m.disk ROOTINO).size.toNat = 1024 := him.root_size
  -- the second block of the root directory is missing
  have hhole : (dinode m.disk ROOTINO).addrs ⟨1, by decide⟩ = 0 := by
    have hnone : blockOf (refs m.disk sb (dinode m.disk)) ROOTINO 1 = none := by
      by_contra hne
      exact absurd ((him.root_blocks.blocks 1).mp hne) (by decide)
    have hpos : posOf 1 = some (.direct ⟨1, by decide⟩) := rfl
    rw [blockOf, hpos] at hnone
    exact (refs_eq_none (by decide) (by rw [him.root]; decide)).mp hnone
  have hfirst : firstFree m.disk = some (logStart sb) := by
    rw [firstFree_eq_some, him.counted.super]
    refine ⟨by decide, ?_, fun a ha => ?_⟩
    · exact (him.bits (logStart sb) (by decide)).trans (by rw [hfree]; decide)
    · exact (him.bits a (ha.trans (by decide))).trans (by rw [hfree]; exact decide_eq_true ha)
  obtain ⟨held₁, s₁, e₁, rfl, hd₁, hc₁⟩ := (namei_root (d := m.disk)
    (c := fun _ => (0, Bytes.zero))).exists_ok
  have hin₁ : (s₁.icache 0).inum = ROOTINO := by
    rw [hc₁]
    rfl
  obtain ⟨held₂, s₂, e₂, rfl, hd₂, hb₂, hn₂⟩ := (ilock_read (s := s₁) (by rw [hc₁]; norm_num)
    (by rw [hc₁]; rfl) (by rw [hc₁]; rfl) (by rw [hin₁, hd₁, him.root]; decide)).exists_ok
  rw [hin₁, hd₁] at hn₂
  rw [hd₁] at hd₂
  have st₁ : fsStep (mounted m.disk fun _ => (0, Bytes.zero), []) (.namei [slash]) = some (s₁, [0]) :=
    fsStep_eq_some.mpr ⟨trivial, e₁⟩
  have st₂ : fsStep (s₁, [0]) (.ilock 0) = some (s₂, [0]) :=
    fsStep_eq_some.mpr ⟨List.mem_singleton.mpr rfl, e₂⟩
  refine ⟨m, (s₂, [0]), hm, by simp [run, st₁, st₂],
    ⟨List.mem_singleton.mpr rfl, hb₂, by decide⟩, ?_⟩
  rw [← hd₂]
  exact (readi_hole (by rw [hn₂]; exact him.root) (by rw [hn₂]; exact hsize)
    (by rw [hn₂]; exact hhole) (by rw [hd₂]; exact hfirst)).exists_ok

/-- With the data area full, reading the unused end of the root directory makes `balloc`
return the first block of the log. -/
theorem full_hands_out_log : Fits fullFiles ∧ ∃ m t, mkfs fullFiles = some m ∧
    run fsStep (mounted m.disk fun _ => (0, Bytes.zero), [])
      [.namei [slash], .ilock 0, .readi 0 512 1] = some t ∧
    ∃ c ∈ t.1.ballocs, c.2 = logStart sb ∧ c.2 ∉ dataArea sb := by
  obtain ⟨m, t, hm, hrun, hop, held, s, he, hmem⟩ := full_run
  refine ⟨fits_fullFiles, m, (s, held), hm, ?_, _, hmem, rfl, fun hlt => lt_irrefl _ hlt.2⟩
  exact run_concat_eq_some.mpr ⟨t, hrun, fsStep_eq_some.mpr ⟨hop, he⟩⟩

/-- In the run on the full disk the call found no free block in the data area. -/
theorem balloc_dataArea_full : ∃ m t, mkfs fullFiles = some m ∧
    run fsStep (mounted m.disk fun _ => (0, Bytes.zero), []) [.namei [slash], .ilock 0] = some t ∧
    ∃ c ∈ (after ((FsOp.readi 0 512 1).exec t.2) t.1).ballocs,
      ¬ ∃ b ∈ dataArea sb, bit c.1 sb.ninodes b = false := by
  obtain ⟨m, t, hm, hrun, hop, held, s, he, hmem⟩ := full_run
  obtain ⟨m', hm', hall⟩ := balloc_dataArea fits_fullFiles fun _ => (0, Bytes.zero)
  obtain rfl : m' = m := Option.some.inj (hm'.symm.trans hm)
  have hc : (m'.disk, logStart sb) ∈ (after ((FsOp.readi 0 512 1).exec t.2) t.1).ballocs := by
    rw [after, he]
    exact hmem
  refine ⟨m', t, hm, hrun, _, hc, fun hfree => ?_⟩
  exact lt_irrefl _ ((hall hrun _ hop _ hc).2.mpr hfree).2

end Nunix.Fs
