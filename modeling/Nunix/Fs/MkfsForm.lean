/-
Nunix/Fs/MkfsForm.lean

Which of the images that `mkfs` completes are well formed.

`mkfs` takes inodes and blocks off counters without looking at their bounds.  It stops only
where a file has too many blocks or a block is read behind the end of the image; so a run
that returns says that the files fit (`mkfs_image`), and the counters say which inodes and
blocks were handed out.  The last step rounds the size of the root
directory up to the next block even if it already fills its last one, which leaves a block
index below the size without a block.
-/
import Nunix.Fs.Image

namespace Nunix.Fs.Mkfs

open Bytes

/-- The inodes and the blocks that were handed out are those of the disk, and no inode has a
block index below its size without an address. -/
structure WellMade (m : Img) : Prop where
  inodes : ∀ i, 1 ≤ i → i < m.freeinode → i < ninodes
  blocks : ∀ b, nmeta sb ≤ b → b < m.freeblock → b < Mkfs.size - LOGSIZE
  filled : ∀ i, 1 ≤ i → i < m.freeinode → ∀ bn, bn * BSIZE < (dinode m.disk i).size.toNat →
    (dinode m.disk i).HasBlock m.disk bn

/-! ### The inode counter -/

section Counter

variable {m m' : Img} {din din' : Dinode} {x off off' : ℕ}

variable {bn i : ℕ}

theorem winode_freeinode (h : winode m i din = some m') : m'.freeinode = m.freeinode := by
  obtain ⟨buf, -, h⟩ := Option.bind_eq_some_iff.mp h
  rw [← Option.some.inj h]
  rfl

theorem entryAt_freeinode {j : ℕ} (h : entryAt m din j = some (m', din', x)) :
    m'.freeinode = m.freeinode := by
  obtain ⟨buf, -, h⟩ := Option.bind_eq_some_iff.mp h
  dsimp only at h
  split_ifs at h
  · rw [← (Prod.mk.inj (Option.some.inj h)).1]
    rfl
  · rw [← (Prod.mk.inj (Option.some.inj h)).1]

theorem blockAt_freeinode (h : blockAt m din bn = some (m', din', x)) :
    m'.freeinode = m.freeinode := by
  unfold blockAt at h
  dsimp only at h
  split_ifs at h
  · rw [← (Prod.mk.inj (Option.some.inj h)).1]
    rfl
  · rw [← (Prod.mk.inj (Option.some.inj h)).1]
  · exact (entryAt_freeinode h).trans rfl
  · exact entryAt_freeinode h

/-- The step of the loop of `iappend`. -/
theorem iappendLoop_step {p : Bytes} {n tot : ℕ} {r : Img × Dinode × ℕ} (hlt : tot < n)
    (h : iappendLoop p n m din tot off = some r) :
    off / BSIZE < MAXFILE ∧ ∃ m₁ din₁ x, blockAt m din (off / BSIZE) = some (m₁, din₁, x) ∧
      x < Mkfs.size ∧
      iappendLoop p n (wsect m₁ x ((m₁.disk x).blit (off % BSIZE)
        (min (n - tot) ((off / BSIZE + 1) * BSIZE - off)) (p.drop tot))) din₁
        (tot + min (n - tot) ((off / BSIZE + 1) * BSIZE - off))
        (off + min (n - tot) ((off / BSIZE + 1) * BSIZE - off)) = some r := by
  rw [iappendLoop, dif_pos hlt] at h
  dsimp only at h
  split_ifs at h with hmax
  · cases h
  obtain ⟨⟨m₁, din₁, x⟩, hat, h⟩ := Option.bind_eq_some_iff.mp h
  obtain ⟨buf, hbuf, h⟩ := Option.bind_eq_some_iff.mp h
  unfold rsect at hbuf
  split_ifs at hbuf with hx
  have hoff : off - off / BSIZE * BSIZE = off % BSIZE := by
    have := Nat.div_add_mod' off BSIZE
    omega
  rw [← Option.some.inj hbuf, hoff] at h
  exact ⟨not_le.mp hmax, m₁, din₁, x, hat, hx, h⟩

theorem iappendLoop_freeinode (p : Bytes) (n : ℕ) : ∀ (tot off : ℕ) (m : Img) (din : Dinode)
    {r : Img × Dinode × ℕ}, iappendLoop p n m din tot off = some r →
    r.1.freeinode = m.freeinode := by
  intro tot
  induction hN : n - tot using Nat.strong_induction_on generalizing tot with
  | _ N ih =>
    intro off m din r h
    by_cases hlt : tot < n
    · obtain ⟨-, m₁, din₁, x, hat, -, h⟩ := iappendLoop_step hlt h
      have hdm := Nat.div_add_mod' off BSIZE
      have hmod : off % BSIZE < BSIZE := Nat.mod_lt _ (by decide)
      have hloop := ih (n - (tot + min (n - tot) ((off / BSIZE + 1) * BSIZE - off)))
        (by rw [Nat.add_one_mul]; omega) _ rfl _ _ _ h
      have hone : m₁.freeinode = m.freeinode := blockAt_freeinode hat
      exact hloop.trans hone
    · rw [iappendLoop, dif_neg hlt] at h
      rw [← Option.some.inj h]

theorem iappend_freeinode {p : List UInt8} (h : iappend m i p = some m') :
    m'.freeinode = m.freeinode := by
  obtain ⟨din, -, h⟩ := Option.bind_eq_some_iff.mp h
  obtain ⟨⟨m₁, din₁, off⟩, hloop, h⟩ := Option.bind_eq_some_iff.mp h
  exact (winode_freeinode h).trans (iappendLoop_freeinode _ _ _ _ _ _ hloop)

theorem addFile_freeinode {f : HostFile} (h : addFile m f = some m') :
    m'.freeinode = m.freeinode + 1 := by
  have hslash : slash ∉ f.name := @slash_notMem_of_addFiles [f] m m'
    (by simpa using h) f List.mem_cons_self
  rw [addFile, if_neg hslash] at h
  obtain ⟨⟨m₁, inum⟩, halloc, h⟩ := Option.bind_eq_some_iff.mp h
  obtain ⟨m₂, hentry, h⟩ := Option.bind_eq_some_iff.mp h
  obtain ⟨m₀, hw, halloc⟩ := Option.bind_eq_some_iff.mp halloc
  have h₁ : m₁.freeinode = m.freeinode + 1 := by
    rw [← (Prod.mk.inj (Option.some.inj halloc)).1]
    exact winode_freeinode hw
  have hreads : ∀ (reads : List (List UInt8)) {m₂ m' : Img},
      reads.foldlM (fun m buf => iappend m inum buf) m₂ = some m' →
        m'.freeinode = m₂.freeinode := by
    intro reads
    induction reads with
    | nil =>
        intro m₂ m' h
        rw [← Option.some.inj h]
    | cons buf reads ih =>
        intro m₂ m' h
        rw [List.foldlM_cons] at h
        obtain ⟨m₃, h₃, h⟩ := Option.bind_eq_some_iff.mp h
        exact (ih h).trans (iappend_freeinode h₃)
  exact (hreads _ h).trans ((iappend_freeinode hentry).trans h₁)

theorem addFiles_freeinode {files : List HostFile} (h : files.foldlM addFile m = some m') :
    m'.freeinode = m.freeinode + files.length := by
  induction files generalizing m with
  | nil =>
      rw [← Option.some.inj h]
      rfl
  | cons f files ih =>
      rw [List.foldlM_cons] at h
      obtain ⟨m₁, h₁, h⟩ := Option.bind_eq_some_iff.mp h
      rw [ih h, addFile_freeinode h₁, List.length_cons]
      omega

/-- The parts of a run of `mkfs`. -/
theorem mkfs_eq_some {files : List HostFile} (h : mkfs files = some m) :
    ∃ m₀ m₁, start = some m₀ ∧ files.foldlM addFile m₀ = some m₁ ∧ finish m₁ = some m := by
  obtain ⟨m₀, h₀, h⟩ := Option.bind_eq_some_iff.mp h
  obtain ⟨m₁, h₁, h⟩ := Option.bind_eq_some_iff.mp h
  exact ⟨m₀, m₁, h₀, h₁, h⟩

/-- One inode for the root and one for each file. -/
theorem mkfs_freeinode {files : List HostFile} (h : mkfs files = some m) :
    m.freeinode = 2 + files.length := by
  obtain ⟨m₀, m₁, h₀, h₁, h₂⟩ := mkfs_eq_some h
  obtain ⟨m₀', h₀', -, -, hfi, -⟩ := start_spec
  obtain rfl : m₀ = m₀' := Option.some.inj (h₀.symm.trans h₀')
  unfold finish at h₂
  obtain ⟨din, -, h₂⟩ := Option.bind_eq_some_iff.mp h₂
  obtain ⟨m₂, hw, h₂⟩ := Option.bind_eq_some_iff.mp h₂
  have hm : m.freeinode = m₂.freeinode := by
    unfold balloc at h₂
    split_ifs at h₂
    rw [← Option.some.inj h₂]
    rfl
  rw [hm, winode_freeinode hw, addFiles_freeinode h₁, hfi]

end Counter

/-! ### Well-formed images -/

section Form

variable {files : List HostFile} {m : Img}

/-- An image for few enough files is what `mkfs_image` says. -/
theorem mkfs_image_of_some (h : mkfs files = some m) (hlen : files.length + 2 ≤ ninodes) :
    Image files m ∧ Holds files m ∧ Filled m := by
  obtain ⟨m₀, m₁, h₀, h₁, -⟩ := mkfs_eq_some h
  exact ((mkfs_image (slash_notMem_of_addFiles h₁) hlen).of_some h).2

theorem posOf_lt (h : posOf bn ≠ none) : bn < MAXFILE := by
  by_contra hge
  simp only [MAXFILE] at hge
  exact h (by rw [posOf, dif_neg (by omega), dif_neg (by omega)])

/-- A block index has an address just when the references have one. -/
theorem hasBlock_iff {d : Disk} (hi : i < sb.ninodes) (ht : (dinode d i).type ≠ 0)
    (hbn : bn < MAXFILE) :
    (dinode d i).HasBlock d bn ↔ blockOf (refs d sb (dinode d)) i bn ≠ none := by
  unfold Dinode.HasBlock
  by_cases hdir : bn < NDIRECT
  · rw [dif_pos hdir, blockOf, posOf_direct hdir]
    have hnone := refs_eq_none (d := d) (V := dinode d) (p := .direct ⟨bn, hdir⟩) hi ht
    exact hnone.not.symm
  · have hj : bn - NDIRECT < NINDIRECT := by
      simp only [MAXFILE] at hbn
      omega
    rw [dif_neg hdir, blockOf, posOf_entry hdir hj]
    have hnone := refs_eq_none (d := d) (V := dinode d) (p := .entry ⟨bn - NDIRECT, hj⟩) hi ht
    refine Iff.trans ?_ hnone.not.symm
    simp only [Dinode.addrAt]
    by_cases hind : (dinode d i).addrs indirectSlot = 0
    · simp [hind]
    · rw [if_neg hind]
      exact and_iff_right hind

/-- An inode with the blocks of `n` bytes has no hole below its size if and only if the size
is within these blocks. -/
theorem sized_filled_iff {d : Disk} {n size : ℕ} (hi : i < sb.ninodes) (ht : (dinode d i).type ≠ 0)
    (hs : Sized d (dinode d) i n) (hmax : size ≤ MAXFILE * BSIZE) :
    (∀ bn, bn * BSIZE < size → (dinode d i).HasBlock d bn) ↔
      ∀ bn, bn * BSIZE < size → bn * BSIZE < n := by
  refine forall₂_congr fun bn hbn => ?_
  have hlt : bn < MAXFILE := Nat.lt_of_mul_lt_mul_right (hbn.trans_le hmax)
  rw [hasBlock_iff hi ht hlt, hs.blocks]

/-- The root directory has a hole if its entries fill its blocks. -/
theorem Image.root_filled_iff (him : Image files m) (hlen : files.length + 2 ≤ ninodes) :
    (∀ bn, bn * BSIZE < (dinode m.disk ROOTINO).size.toNat →
      (dinode m.disk ROOTINO).HasBlock m.disk bn) ↔ (2 + files.length) % 32 ≠ 0 := by
  have hr : ROOTINO < sb.ninodes := by decide
  have ht : (dinode m.disk ROOTINO).type ≠ 0 := by
    rw [him.root]
    decide
  have hmax : (dinode m.disk ROOTINO).size.toNat ≤ MAXFILE * BSIZE := by
    rw [him.root_size]
    simp only [DESIZE, MAXFILE, NDIRECT, NINDIRECT, BSIZE, ninodes] at hlen ⊢
    omega
  rw [sized_filled_iff hr ht him.root_blocks hmax, him.root_size]
  simp only [DESIZE, BSIZE]
  constructor
  · intro h hmod
    have := h (16 * (2 + files.length) / 512) (by omega)
    omega
  · intro hmod bn hbn
    omega

/-- The inodes of the files have no holes. -/
theorem Image.file_filled (hH : Holds files m) (hfill : Filled m)
    (hlen : files.length + 2 ≤ ninodes) (hi : 2 ≤ i) (hlt : i < 2 + files.length)
    (hbn : bn * BSIZE < (dinode m.disk i).size.toNat) : (dinode m.disk i).HasBlock m.disk bn := by
  have hne : i ≠ ROOTINO := by
    have : ROOTINO = 1 := rfl
    omega
  have hfile := hH.file (i - 2) _ (List.getElem?_eq_getElem (by omega))
  rw [Nat.add_sub_cancel' hi] at hfile
  have ht : (dinode m.disk i).type ≠ 0 := by
    rw [hfile.type]
    decide
  have hin : i < ninodes := by omega
  have hblock := ((hfill i hin hne ht).blocks bn).mpr hbn
  have hpos : posOf bn ≠ none := by
    intro h0
    rw [blockOf, h0] at hblock
    exact hblock rfl
  exact (hasBlock_iff hin ht (posOf_lt hpos)).mpr hblock

/-- The parts of `WellMade` for an image. -/
theorem Image.wellMade_iff (him : Image files m) (hH : Holds files m) (hfill : Filled m)
    (hfree : m.freeinode = 2 + files.length) (hlen : files.length + 2 ≤ ninodes) :
    WellMade m ↔ nmeta sb + dataBlocks 2 files ≤ Mkfs.size - LOGSIZE ∧
      (2 + files.length) % 32 ≠ 0 := by
  have hone : ROOTINO = 1 := rfl
  rw [← him.root_filled_iff hlen, ← him.freeblock]
  constructor
  · refine fun h => ⟨?_, h.filled ROOTINO (by omega) (by omega)⟩
    by_contra hgt
    have hlow : nmeta sb ≤ Mkfs.size - LOGSIZE := by decide
    exact absurd (h.blocks (Mkfs.size - LOGSIZE) hlow (by omega)) (lt_irrefl _)
  · rintro ⟨hblocks, hroot⟩
    refine ⟨fun i _ hi => by omega, fun b _ hb => by omega, fun i h1 hi bn hbn => ?_⟩
    rcases Nat.eq_or_lt_of_le h1 with rfl | h2
    · exact hroot bn hbn
    · exact Image.file_filled hH hfill hlen h2 (hfree ▸ hi) hbn

/-- **Which images are well formed.**  When `mkfs` runs to its end, the image is well formed
if and only if the inodes and the data blocks of the disk suffice for the files and the
entries of the root directory do not fill their last block. -/
theorem mkfs_wellMade_iff (files : List HostFile) (m : Img) (h : mkfs files = some m) :
    WellMade m ↔ files.length + 2 ≤ ninodes ∧
      nmeta sb + dataBlocks 2 files ≤ Mkfs.size - LOGSIZE ∧ (2 + files.length) % 32 ≠ 0 := by
  have hfree := mkfs_freeinode h
  constructor
  · intro hw
    have hlen : files.length + 2 ≤ ninodes := by
      have := hw.inodes (files.length + 1) (by omega) (by omega)
      omega
    obtain ⟨him, hH, hfill⟩ := mkfs_image_of_some h hlen
    exact ⟨hlen, (him.wellMade_iff hH hfill hfree hlen).mp hw⟩
  · rintro ⟨hlen, hrest⟩
    obtain ⟨him, hH, hfill⟩ := mkfs_image_of_some h hlen
    exact (him.wellMade_iff hH hfill hfree hlen).mpr hrest

/-- Without input files the image is well formed. -/
theorem no_files_wellMade : ∃ m, mkfs [] = some m ∧ WellMade m := by
  obtain ⟨m, hm, -⟩ := mkfs_spec (⟨nofun, nofun, by decide, by decide⟩ : Fits [])
  exact ⟨m, hm, (mkfs_wellMade_iff [] m hm).mpr (by decide)⟩

/-- Thirty empty files. -/
def thirtyFiles : List HostFile := List.replicate 30 ⟨[97], [], nofun⟩

/-- With thirty files the root directory has 32 entries, and its second block is missing. -/
theorem thirty_files_hole : ∃ m, mkfs thirtyFiles = some m ∧
    (dinode m.disk ROOTINO).size.toNat = 2 * BSIZE ∧
    ¬ (dinode m.disk ROOTINO).HasBlock m.disk 1 ∧ ¬ WellMade m := by
  obtain ⟨m, hm, him, hH, hfill⟩ := mkfs_spec
    (⟨by decide, by decide, by decide, by decide⟩ : Fits thirtyFiles)
  have hsize : (dinode m.disk ROOTINO).size.toNat = 2 * BSIZE := him.root_size
  have hhole : ¬ (dinode m.disk ROOTINO).HasBlock m.disk 1 := by
    rw [hasBlock_iff (by decide) (by rw [him.root]; decide) (by decide), him.root_blocks.blocks]
    decide
  refine ⟨m, hm, hsize, hhole, fun hw => hhole (hw.filled ROOTINO le_rfl ?_ 1 ?_)⟩
  · rw [mkfs_freeinode hm]
    decide
  · rw [hsize]
    decide

end Form

end Nunix.Fs.Mkfs
