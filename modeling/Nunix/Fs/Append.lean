/-
Nunix/Fs/Append.lean

How `mkfs` takes blocks off its counter.

While `mkfs` runs, the references of the inodes own the blocks between the metadata
and the block counter, and the blocks behind the counter are zero (`Counted`).  The
size of an inode says which blocks it has (`Sized`), so when the loop of `iappend`
returns, the counter has grown by the difference of `blocksFor` of the sizes.
-/
import Nunix.Fs.Mkfs
import Nunix.Fs.Cache

namespace Nunix.Fs.Mkfs

open Bytes
open Function (update update_of_ne update_self)

/-! ### Taking blocks off the counter -/

/-- The references own the blocks up to the counter, and the blocks behind it are
zero. -/
structure Counted (m : Img) (V : ℕ → Dinode) : Prop where
  super : superblock m.disk = sb
  used : m.usedblocks = m.freeblock
  low : nmeta sb ≤ m.freeblock
  owns : Owns (refs m.disk sb V) {b | b < m.freeblock} (reserved sb)
  zero : ∀ b, m.freeblock ≤ b → m.disk b = Bytes.zero

/-- The block at the counter becomes the block at position `pos` of inode `i`. -/
structure Claimed (i : ℕ) (pos : Pos) (m : Img) (V : ℕ → Dinode) (m' : Img)
    (V' : ℕ → Dinode) : Prop where
  counted : Counted m' V'
  refs_eq : refs m'.disk sb V' = update (refs m.disk sb V) (i, pos) (some m.freeblock)
  content_eq : ∀ j, content m'.disk (refs m'.disk sb V') j
    = content m.disk (refs m.disk sb V) j
  inodes : ∀ j < ninodes, dinode m'.disk j = dinode m.disk j
  table : ∀ j ≠ i, V' j = V j
  inode : V' i = { V i with addrs := (V' i).addrs }
  freeblock : m'.freeblock = m.freeblock + 1
  freeinode : m'.freeinode = m.freeinode

section Claim

variable {m : Img} {V : ℕ → Dinode} {i x : ℕ}

variable {k b : ℕ}

theorem Counted.ref_data (h : Counted m V) {p : ℕ × Pos} (hp : refs m.disk sb V p = some b) :
    nmeta sb ≤ b ∧ b < m.freeblock :=
  ⟨not_lt.mp (h.owns.notMem_reserved hp), h.owns.mem_used hp⟩

theorem Counted.toNat_ofNat (hlt : m.freeblock < size) :
    (UInt32.ofNat m.freeblock).toNat = m.freeblock :=
  UInt32.toNat_ofNat_of_lt' (hlt.trans (by decide))

theorem Counted.toRef_ofNat (h : Counted m V) (hlt : m.freeblock < size) :
    toRef (UInt32.ofNat m.freeblock) = some m.freeblock := by
  have hnat := Counted.toNat_ofNat hlt
  have hne : UInt32.ofNat m.freeblock ≠ 0 := by
    intro h0
    rw [h0] at hnat
    have := one_lt_nmeta.trans_le h.low
    rw [show (0 : UInt32).toNat = 0 from rfl] at hnat
    omega
  rw [toRef, if_neg hne, hnat]

/-- Moving the counter. -/
theorem Counted.owns_take (h : Counted m V) (p : ℕ × Pos) :
    Owns (update (refs m.disk sb V) p (some m.freeblock))
      {b | b < m.freeblock + 1} (reserved sb) := by
  refine h.owns.claim (fun hlt => lt_irrefl _ (show m.freeblock < m.freeblock from hlt)) ?_
  intro b
  show b < m.freeblock + 1 ↔ b = m.freeblock ∨ b < m.freeblock
  omega

variable {pos : Pos}

/-- An address stored in the inode. -/
theorem Counted.claim_inode (h : Counted m V) {l : Fin (NDIRECT + 1)}
    (hempty : refs m.disk sb V (i, pos) = none) (hlt : m.freeblock < size)
    (hrefs : refs m.disk sb (setAt V i l (UInt32.ofNat m.freeblock))
      = update (refs m.disk sb V) (i, pos) (toRef (UInt32.ofNat m.freeblock))) :
    Claimed i pos m V m.take (setAt V i l (UInt32.ofNat m.freeblock)) := by
  have hrefs' : refs m.take.disk sb (setAt V i l (UInt32.ofNat m.freeblock))
      = update (refs m.disk sb V) (i, pos) (some m.freeblock) := by
    rw [← h.toRef_ofNat hlt]
    exact hrefs
  refine ⟨⟨h.super, ?_, h.low.trans (Nat.le_succ _), ?_, ?_⟩, hrefs', ?_, fun _ _ => rfl,
    fun j hj => setAt_of_ne hj l, by simp [setAt], rfl, rfl⟩
  · show m.usedblocks + 1 = m.freeblock + 1
    rw [h.used]
  · rw [hrefs']
    exact h.owns_take _
  · exact fun b hb => h.zero b (Nat.le_of_succ_le hb)
  · intro j
    rw [hrefs']
    exact content_grow hempty (h.zero _ le_rfl) (fun _ _ _ _ => rfl) j

/-- An address stored in the indirect block. -/
theorem Counted.claim_entry (h : Counted m V) (hi : i < ninodes) (ht : (V i).type ≠ 0)
    (hx : refs m.disk sb V (i, .indirect) = some x) (hlt : m.freeblock < size)
    {j : Fin NINDIRECT} (hempty : refs m.disk sb V (i, .entry j) = none) :
    Claimed i (.entry j) m V
      (wsect m.take x ((m.disk x).put32 (4 * j) (UInt32.ofNat m.freeblock).toNat)) V := by
  obtain ⟨hdata, hxlt⟩ := h.ref_data hx
  obtain ⟨-, -, hne, hxi⟩ := refs_eq_some.mp hx
  simp only [Dinode.addrAt] at hne hxi
  have huniq : ∀ l, refs m.disk sb V (l, .indirect) = some x → l = i := fun l hl =>
    (Prod.mk.inj (h.owns.inj hl hx)).1
  have hrefs : refs (update m.disk x ((m.disk x).put32 (4 * j)
      (UInt32.ofNat m.freeblock).toNat)) sb V
      = update (refs m.disk sb V) (i, .entry j) (some m.freeblock) := by
    rw [← h.toRef_ofNat hlt]
    exact refs_setEntry hi ht hne hxi huniq j
  refine ⟨⟨?_, ?_, h.low.trans (Nat.le_succ _), ?_, ?_⟩, hrefs, ?_, ?_, fun _ _ => rfl, rfl, rfl,
    rfl⟩
  · exact (superblock_update (one_lt_nmeta.trans_le hdata).ne').trans h.super
  · show m.usedblocks + 1 = m.freeblock + 1
    rw [h.used]
  · show Owns (refs (update m.disk x _) sb V) _ _
    rw [hrefs]
    exact h.owns_take _
  · intro b hb
    have hbx : b ≠ x := by
      have : m.freeblock + 1 ≤ b := hb
      omega
    exact (update_of_ne hbx _ _).trans (h.zero b (Nat.le_of_succ_le hb))
  · intro l
    show content (update m.disk x _) (refs (update m.disk x _) sb V) l = _
    rw [hrefs]
    refine content_grow hempty ?_ (fun p c hp hind => ?_) l
    · rw [update_of_ne hxlt.ne', h.zero _ le_rfl]
    · refine update_of_ne ?_ _ _
      rintro rfl
      exact hind (congrArg Prod.snd (h.owns.inj hp hx))
  · intro l hl
    have hl' : IBLOCK l < nmeta sb := iblock_lt_nmeta hl
    exact dinode_update_block (hl'.trans_le hdata).ne

end Claim

/-! ### Sizes and blocks -/

/-- The blocks of a file of `n` bytes: data blocks, and the indirect block. -/
def blocksFor (n : ℕ) : ℕ := (n + BSIZE - 1) / BSIZE + if NDIRECT * BSIZE < n then 1 else 0

/-- Inode `i` of the table has the blocks of a file of `n` bytes. -/
structure Sized (d : Disk) (V : ℕ → Dinode) (i n : ℕ) : Prop where
  blocks : ∀ bn, blockOf (refs d sb V) i bn ≠ none ↔ bn * BSIZE < n
  indirect : refs d sb V (i, .indirect) ≠ none ↔ NDIRECT * BSIZE < n

/-- The blocks that are new when a file of `n` bytes grows within its last block. -/
def newBlocks (n : ℕ) : ℕ :=
  (if n % BSIZE = 0 then 1 else 0) + if n = NDIRECT * BSIZE then 1 else 0

theorem blocksFor_add {n : ℕ} (hk : 0 < k) (hle : n + k ≤ (n / BSIZE + 1) * BSIZE) :
    blocksFor (n + k) = blocksFor n + newBlocks n := by
  unfold blocksFor newBlocks
  split_ifs <;> simp only [BSIZE, NDIRECT] at * <;> omega

theorem blocksFor_mono {n n' : ℕ} (h : n ≤ n') : blocksFor n ≤ blocksFor n' := by
  unfold blocksFor
  split_ifs <;> simp only [BSIZE, NDIRECT] at * <;> omega

theorem Sized.congr {d d' : Disk} {V V' : ℕ → Dinode} {i n : ℕ} (h : Sized d V i n)
    (hrefs : ∀ p, refs d' sb V' (i, p) = refs d sb V (i, p)) : Sized d' V' i n := by
  refine ⟨fun bn => ?_, ?_⟩
  · rw [← h.blocks bn]
    simp only [blockOf, hrefs]
  · rw [hrefs]
    exact h.indirect

section BlockAt

variable {m m' : Img} {V V' : ℕ → Dinode} {din din' : Dinode} {i n x : ℕ}

/-- A new data block at the end of the file. -/
theorem Claimed.sized (c : Claimed i pos m V m' V') (hpos : posOf (n / BSIZE) = some pos)
    (hmod : n % BSIZE = 0) (hk : 0 < k) (hle : n + k ≤ (n / BSIZE + 1) * BSIZE)
    (hblocks : ∀ bn, blockOf (refs m.disk sb V) i bn ≠ none ↔ bn * BSIZE < n)
    (hind : refs m.disk sb V (i, .indirect) ≠ none ↔ NDIRECT * BSIZE < n + k) :
    Sized m'.disk V' i (n + k) := by
  refine ⟨fun bn => ?_, ?_⟩
  · rw [c.refs_eq, blockOf_update_data hpos]
    split_ifs with hbn
    · rw [hbn]
      simp only [BSIZE] at *
      simp
      omega
    · rw [hblocks bn]
      simp only [BSIZE] at *
      omega
  · have hne : ((i, Pos.indirect) : ℕ × Pos) ≠ (i, pos) := fun h =>
      posOf_ne_indirect hpos (Prod.mk.inj h).2.symm
    rw [c.refs_eq, update_of_ne hne]
    exact hind

/-- What `blockAt` returns for the block behind byte `n` of inode `i`. -/
structure Found (i n x : ℕ) (m : Img) (V : ℕ → Dinode) (m' : Img) (V' : ℕ → Dinode) : Prop where
  counted : Counted m' V'
  block : blockOf (refs m'.disk sb V') i (n / BSIZE) = some x
  sized : ∀ k, 0 < k → n + k ≤ (n / BSIZE + 1) * BSIZE → Sized m'.disk V' i (n + k)
  other : ∀ j ≠ i, ∀ k, Sized m.disk V j k → Sized m'.disk V' j k
  content_eq : ∀ j, content m'.disk (refs m'.disk sb V') j
    = content m.disk (refs m.disk sb V) j
  inodes : ∀ j < ninodes, dinode m'.disk j = dinode m.disk j
  table : ∀ j ≠ i, V' j = V j
  inode : V' i = { V i with addrs := (V' i).addrs }
  freeblock : m'.freeblock = m.freeblock + newBlocks n
  freeinode : m'.freeinode = m.freeinode

theorem Claimed.other (c : Claimed i pos m V m' V') {j : ℕ} (hj : j ≠ i) (h : Sized m.disk V j k) :
    Sized m'.disk V' j k := by
  refine h.congr fun q => ?_
  rw [c.refs_eq]
  exact update_of_ne (fun e => hj (Prod.mk.inj e).1) _ _

/-- A claimed block at the end of the file. -/
theorem Claimed.found (c : Claimed i pos m V m' V') (hpos : posOf (n / BSIZE) = some pos)
    (hmod : n % BSIZE = 0) (hblocks : ∀ bn, blockOf (refs m.disk sb V) i bn ≠ none ↔ bn * BSIZE < n)
    (hind : ∀ k, 0 < k → n + k ≤ (n / BSIZE + 1) * BSIZE →
      (refs m.disk sb V (i, .indirect) ≠ none ↔ NDIRECT * BSIZE < n + k)) (hnew : newBlocks n = 1) :
    Found i n m.freeblock m V m' V' where
  counted := c.counted
  block := by
    refine blockOf_eq_some.mpr ⟨pos, hpos, ?_⟩
    rw [c.refs_eq, update_self]
  sized k hk hle := c.sized hpos hmod hk hle hblocks (hind k hk hle)
  other j hj k h := c.other hj h
  content_eq := c.content_eq
  inodes := c.inodes
  table := c.table
  inode := c.inode
  freeblock := by rw [hnew, c.freeblock]
  freeinode := c.freeinode

/-- The blocks of a file do not change while it grows within its last block. -/
theorem Sized.found (h : Counted m V) (hs : Sized m.disk V i n) (hmod : n % BSIZE ≠ 0) {x : ℕ}
    (hx : blockOf (refs m.disk sb V) i (n / BSIZE) = some x) : Found i n x m V m V where
  counted := h
  block := hx
  sized k hk hle := by
    refine ⟨fun bn => ?_, ?_⟩
    · rw [hs.blocks bn]
      simp only [BSIZE] at *
      omega
    · rw [hs.indirect]
      simp only [BSIZE, NDIRECT] at *
      omega
  other _ _ _ h := h
  content_eq _ := rfl
  inodes _ _ := rfl
  table _ _ := rfl
  inode := rfl
  freeblock := by
    have h12 : n ≠ NDIRECT * BSIZE := by
      rintro rfl
      exact hmod (by decide)
    rw [newBlocks, if_neg hmod, if_neg h12]
    rfl
  freeinode := rfl

theorem entryAt_present (h : Counted m V) (hi : i < ninodes) (ht : (V i).type ≠ 0)
    (hle : m.freeblock ≤ size) (j : Fin NINDIRECT) (hb : refs m.disk sb V (i, .entry j) = some b) :
    entryAt m (V i) j = some (m, V i, b) := by
  obtain ⟨-, -, hne, hab⟩ := refs_eq_some.mp hb
  have hind : (V i).addrs indirectSlot ≠ 0 := fun h0 => hne (if_pos h0)
  simp only [Dinode.addrAt, if_neg hind] at hne hab
  have hx : refs m.disk sb V (i, .indirect) = some ((V i).addrs indirectSlot).toNat :=
    refs_eq_some.mpr ⟨hi, ht, hind, rfl⟩
  have hlt := (h.ref_data hx).2.trans_le hle
  rw [entryAt, rsect, if_pos hlt]
  have hne' : UInt32.ofNat ((m.disk ((V i).addrs indirectSlot).toNat).get32 (4 * j)) ≠ 0 := hne
  simp only [Option.bind_eq_bind, Option.bind_some, if_neg hne']
  rw [← hab]
  rfl

theorem entryAt_absent (h : Counted m V) (hi : i < ninodes) (ht : (V i).type ≠ 0)
    (hlt : m.freeblock < size) (j : Fin NINDIRECT)
    (hind : refs m.disk sb V (i, .indirect) ≠ none)
    (hempty : refs m.disk sb V (i, .entry j) = none) :
    ∃ m', entryAt m (V i) j = some (m', V i, m.freeblock) ∧ Claimed i (.entry j) m V m' V := by
  obtain ⟨x, hx⟩ := Option.ne_none_iff_exists'.mp hind
  have hc := h.claim_entry hi ht hx hlt hempty
  obtain ⟨-, -, hne, hxi⟩ := refs_eq_some.mp hx
  simp only [Dinode.addrAt] at hne hxi
  have h0 : UInt32.ofNat ((m.disk x).get32 (4 * j)) = 0 := by
    have := (refs_eq_none hi ht).mp hempty
    simp only [Dinode.addrAt, if_neg hne, hxi] at this
    exact this
  refine ⟨_, ?_, hc⟩
  have hxlt := (h.ref_data hx).2.trans hlt
  rw [entryAt, hxi, rsect, if_pos hxlt]
  simp only [Option.bind_eq_bind, Option.bind_some, if_pos h0, Counted.toNat_ofNat hlt]
  rfl

theorem posOf_direct {bn : ℕ} (h : bn < NDIRECT) : posOf bn = some (.direct ⟨bn, h⟩) :=
  dif_pos h

theorem posOf_entry {bn : ℕ} (h : ¬ bn < NDIRECT) (h' : bn - NDIRECT < NINDIRECT) :
    posOf bn = some (.entry ⟨bn - NDIRECT, h'⟩) := by
  rw [posOf, dif_neg h, dif_pos h']

/-- A new direct block. -/
theorem blockAt_direct (h : Counted m V) (hi : i < ninodes) (ht : (V i).type ≠ 0)
    (hs : Sized m.disk V i n) (hmod : n % BSIZE = 0) (hdir : n / BSIZE < NDIRECT)
    (hnone : blockOf (refs m.disk sb V) i (n / BSIZE) = none)
    (hroom : m.freeblock + newBlocks n ≤ size) :
    ∃ m' V' x, blockAt m (V i) (n / BSIZE) = some (m', V' i, x) ∧ Found i n x m V m' V' := by
  have hpos := posOf_direct hdir
  have hempty : refs m.disk sb V (i, .direct ⟨n / BSIZE, hdir⟩) = none := by
    rw [blockOf, hpos] at hnone
    exact hnone
  have hlt12 : n < NDIRECT * BSIZE := by
    simp only [BSIZE, NDIRECT] at hdir ⊢
    omega
  have hnew : newBlocks n = 1 := by rw [newBlocks, if_pos hmod, if_neg hlt12.ne]
  have hlt : m.freeblock < size := by omega
  have haddr : (V i).addrs (Fin.castSucc ⟨n / BSIZE, hdir⟩) = 0 := (refs_eq_none hi ht).mp hempty
  have hc := h.claim_inode hempty hlt (refs_setDirect hi ht _)
  refine ⟨_, _, m.freeblock, ?_, hc.found hpos hmod hs.blocks ?_ hnew⟩
  · rw [blockAt, dif_pos hdir]
    have haddr' : (V i).addrs ⟨n / BSIZE, Nat.lt_succ_of_lt hdir⟩ = 0 := haddr
    simp only [if_pos haddr', Counted.toNat_ofNat hlt]
    rw [setAt, update_self]
    rfl
  · intro k _ hle
    rw [hs.indirect]
    simp only [BSIZE, NDIRECT] at hdir hle hlt12 ⊢
    omega

/-- The first block behind the indirect block: both are new. -/
theorem blockAt_indirect (h : Counted m V) (hi : i < ninodes) (ht : (V i).type ≠ 0)
    (hs : Sized m.disk V i n) (h12 : n = NDIRECT * BSIZE)
    (hnone : blockOf (refs m.disk sb V) i (n / BSIZE) = none)
    (hroom : m.freeblock + newBlocks n ≤ size) :
    ∃ m' V' x, blockAt m (V i) (n / BSIZE) = some (m', V' i, x) ∧ Found i n x m V m' V' := by
  have hmod : n % BSIZE = 0 := by
    rw [h12]
    decide
  have hdir : ¬ n / BSIZE < NDIRECT := by
    rw [h12]
    decide
  have hj : n / BSIZE - NDIRECT < NINDIRECT := by
    rw [h12]
    decide
  have hpos := posOf_entry hdir hj
  have hempty : refs m.disk sb V (i, .entry ⟨n / BSIZE - NDIRECT, hj⟩) = none := by
    rw [blockOf, hpos] at hnone
    exact hnone
  have hnew : newBlocks n = 2 := by rw [newBlocks, if_pos hmod, if_pos h12]
  have hlt : m.freeblock < size := by omega
  have hind : refs m.disk sb V (i, .indirect) = none := by
    by_contra hne
    exact absurd (hs.indirect.mp hne) (by rw [h12]; exact lt_irrefl _)
  have haddr : (V i).addrs indirectSlot = 0 := (refs_eq_none hi ht).mp hind
  have hzero : ∀ j, entry m.disk (UInt32.ofNat m.freeblock).toNat j = 0 := by
    intro j
    rw [Counted.toNat_ofNat hlt, entry, h.zero _ le_rfl]
    simp
  have c₁ := h.claim_inode hind hlt (refs_setIndirect hi ht haddr hzero)
  set V₁ := setAt V i indirectSlot (UInt32.ofNat m.freeblock) with hV₁
  have hlt₁ : m.take.freeblock < size := by
    show m.freeblock + 1 < size
    omega
  have hind₁ : refs m.take.disk sb V₁ (i, .indirect) ≠ none := by
    rw [c₁.refs_eq, update_self]
    simp
  have hempty₁ : refs m.take.disk sb V₁ (i, .entry ⟨n / BSIZE - NDIRECT, hj⟩) = none := by
    rw [c₁.refs_eq, update_of_ne (by simp), hempty]
  have ht₁ : (V₁ i).type ≠ 0 := by simpa [hV₁] using ht
  obtain ⟨m', hent, c₂⟩ := entryAt_absent c₁.counted hi ht₁ hlt₁ _ hind₁ hempty₁
  -- the indirect block is no data block
  have hb₁ : ∀ bn, blockOf (refs m.take.disk sb V₁) i bn ≠ none ↔ bn * BSIZE < n := by
    intro bn
    rw [← hs.blocks bn, c₁.refs_eq, blockOf_update_indirect]
  refine ⟨m', V₁, m.take.freeblock, ?_, ⟨c₂.counted, ?_, ?_, ?_, ?_, ?_, ?_, ?_, ?_, ?_⟩⟩
  · rw [blockAt, dif_neg hdir, if_pos haddr, ← hent, hV₁, setAt, update_self]
  · refine blockOf_eq_some.mpr ⟨_, hpos, ?_⟩
    rw [c₂.refs_eq, update_self]
  · intro k hk hle
    exact c₂.sized hpos hmod hk hle hb₁ (iff_of_true hind₁ (by omega))
  · exact fun j hji k hsz => c₂.other hji (c₁.other hji hsz)
  · exact fun j => (c₂.content_eq j).trans (c₁.content_eq j)
  · exact fun j hjn => (c₂.inodes j hjn).trans (c₁.inodes j hjn)
  · exact fun j hji => (c₂.table j hji).trans (c₁.table j hji)
  · rw [c₂.inode, c₁.inode]
  · rw [c₂.freeblock, c₁.freeblock, hnew]
  · exact c₂.freeinode.trans c₁.freeinode

/-- A new block behind the indirect block that is there. -/
theorem blockAt_entry (h : Counted m V) (hi : i < ninodes) (ht : (V i).type ≠ 0)
    (hs : Sized m.disk V i n) (hmod : n % BSIZE = 0) (hgt : NDIRECT * BSIZE < n)
    (hmax : n / BSIZE < MAXFILE) (hnone : blockOf (refs m.disk sb V) i (n / BSIZE) = none)
    (hroom : m.freeblock + newBlocks n ≤ size) :
    ∃ m' V' x, blockAt m (V i) (n / BSIZE) = some (m', V' i, x) ∧ Found i n x m V m' V' := by
  have hdir : ¬ n / BSIZE < NDIRECT := by
    simp only [BSIZE, NDIRECT] at hgt ⊢
    omega
  have hj : n / BSIZE - NDIRECT < NINDIRECT := by
    simp only [MAXFILE] at hmax
    omega
  have hpos := posOf_entry hdir hj
  have hempty : refs m.disk sb V (i, .entry ⟨n / BSIZE - NDIRECT, hj⟩) = none := by
    rw [blockOf, hpos] at hnone
    exact hnone
  have hind := hs.indirect.mpr hgt
  have hnew : newBlocks n = 1 := by rw [newBlocks, if_pos hmod, if_neg hgt.ne']
  have hlt : m.freeblock < size := by omega
  obtain ⟨m', hent, c⟩ := entryAt_absent h hi ht hlt _ hind hempty
  have haddr : (V i).addrs indirectSlot ≠ 0 := by
    obtain ⟨x, hx⟩ := Option.ne_none_iff_exists'.mp hind
    exact (refs_eq_some.mp hx).2.2.1
  refine ⟨m', V, m.freeblock, ?_, c.found hpos hmod hs.blocks ?_ hnew⟩
  · rw [blockAt, dif_neg hdir, if_neg haddr, ← hent]
  · exact fun k _ _ => iff_of_true hind (by omega)

/-- The block is there. -/
theorem blockAt_present (h : Counted m V) (hi : i < ninodes) (ht : (V i).type ≠ 0)
    (hmax : n / BSIZE < MAXFILE) (hle : m.freeblock ≤ size) {x : ℕ}
    (hx : blockOf (refs m.disk sb V) i (n / BSIZE) = some x) :
    blockAt m (V i) (n / BSIZE) = some (m, V i, x) := by
  obtain ⟨p, hp, hpx⟩ := blockOf_eq_some.mp hx
  by_cases hdir : n / BSIZE < NDIRECT
  · rw [posOf_direct hdir] at hp
    obtain rfl := Option.some.inj hp
    obtain ⟨-, -, hne, hab⟩ := refs_eq_some.mp hpx
    have hne' : (V i).addrs ⟨n / BSIZE, Nat.lt_succ_of_lt hdir⟩ ≠ 0 := hne
    rw [blockAt, dif_pos hdir]
    simp only [if_neg hne']
    rw [← hab]
    rfl
  · have hj : n / BSIZE - NDIRECT < NINDIRECT := by
      simp only [MAXFILE] at hmax
      omega
    rw [posOf_entry hdir hj] at hp
    obtain rfl := Option.some.inj hp
    have haddr : (V i).addrs indirectSlot ≠ 0 := fun h0 =>
      (refs_eq_some.mp hpx).2.2.1 (if_pos h0)
    rw [blockAt, dif_neg hdir, if_neg haddr]
    exact entryAt_present h hi ht hle ⟨n / BSIZE - NDIRECT, hj⟩ hpx

/-- `blockAt` finds the last block of a file, or adds the next one. -/
theorem blockAt_spec (h : Counted m V) (hi : i < ninodes) (ht : (V i).type ≠ 0)
    (hs : Sized m.disk V i n) (hmax : n < MAXFILE * BSIZE)
    (hroom : m.freeblock + newBlocks n ≤ size) :
    ∃ m' V' x, blockAt m (V i) (n / BSIZE) = some (m', V' i, x) ∧ Found i n x m V m' V' := by
  have hfbn : n / BSIZE < MAXFILE := Nat.div_lt_of_lt_mul (by rwa [Nat.mul_comm])
  have hdm := Nat.div_add_mod' n BSIZE
  by_cases hmod : n % BSIZE = 0
  · have hnone : blockOf (refs m.disk sb V) i (n / BSIZE) = none := by
      by_contra hne
      have := (hs.blocks _).mp hne
      omega
    rcases lt_trichotomy n (NDIRECT * BSIZE) with hlt | heq | hgt
    · have hdir : n / BSIZE < NDIRECT := Nat.div_lt_of_lt_mul (by rwa [Nat.mul_comm])
      exact blockAt_direct h hi ht hs hmod hdir hnone hroom
    · exact blockAt_indirect h hi ht hs heq hnone hroom
    · exact blockAt_entry h hi ht hs hmod hgt hfbn hnone hroom
  · have hne : blockOf (refs m.disk sb V) i (n / BSIZE) ≠ none := by
      rw [hs.blocks]
      omega
    obtain ⟨x, hx⟩ := Option.ne_none_iff_exists'.mp hne
    exact ⟨m, V, x, blockAt_present h hi ht hfbn (by omega) hx, hs.found h hmod hx⟩

theorem rsect_lt {b : Bytes} (h : rsect m x = some b) : x < size ∧ b = m.disk x := by
  unfold rsect at h
  split_ifs at h with hlt
  exact ⟨hlt, (Option.some.inj h).symm⟩

/-- `entryAt` reads the indirect block, and takes a block if the entry is empty. -/
theorem entryAt_some {j : ℕ} (h : entryAt m din j = some (m', din', x)) :
    (din.addrs indirectSlot).toNat < size ∧
      (UInt32.ofNat ((m.disk (din.addrs indirectSlot).toNat).get32 (4 * j)) = 0 →
        x = (UInt32.ofNat m.freeblock).toNat) := by
  obtain ⟨buf, hbuf, h⟩ := Option.bind_eq_some_iff.mp h
  obtain ⟨hlt, rfl⟩ := rsect_lt hbuf
  refine ⟨hlt, fun h0 => ?_⟩
  dsimp only at h
  rw [if_pos h0] at h
  exact (Prod.mk.inj (Prod.mk.inj (Option.some.inj h)).2).2.symm

/-- The block that `blockAt` took is within the image, so there was room for it. -/
theorem newBlocks_le (h : Counted m V) (hi : i < ninodes) (ht : (V i).type ≠ 0)
    (hs : Sized m.disk V i n) (hmax : n / BSIZE < MAXFILE) (hle : m.freeblock ≤ size)
    (hat : blockAt m (V i) (n / BSIZE) = some (m', din', x)) (hx : x < size) :
    m.freeblock + newBlocks n ≤ size := by
  have hnat : (UInt32.ofNat m.freeblock).toNat = m.freeblock :=
    UInt32.toNat_ofNat_of_lt' (hle.trans_lt (by decide))
  have hdm := Nat.div_add_mod' n BSIZE
  unfold newBlocks
  unfold blockAt at hat
  by_cases hmod : n % BSIZE = 0
  · have hnone : blockOf (refs m.disk sb V) i (n / BSIZE) = none := by
      by_contra hne
      have := (hs.blocks _).mp hne
      omega
    rw [if_pos hmod]
    by_cases hdir : n / BSIZE < NDIRECT
    · -- a direct block
      have haddr : (V i).addrs ⟨n / BSIZE, Nat.lt_succ_of_lt hdir⟩ = 0 := by
        rw [blockOf, posOf_direct hdir] at hnone
        exact (refs_eq_none hi ht).mp hnone
      rw [dif_pos hdir, if_pos haddr] at hat
      have hxe := (Prod.mk.inj (Prod.mk.inj (Option.some.inj hat)).2).2
      have h12 : n ≠ NDIRECT * BSIZE := by
        rintro rfl
        exact absurd hdir (by decide)
      rw [if_neg h12]
      omega
    · have hj : n / BSIZE - NDIRECT < NINDIRECT := by
        simp only [MAXFILE] at hmax
        omega
      rw [blockOf, posOf_entry hdir hj] at hnone
      have hempty := (refs_eq_none hi ht).mp hnone
      rw [dif_neg hdir] at hat
      by_cases h12 : n = NDIRECT * BSIZE
      · -- the indirect block and its first block
        have hind : (V i).addrs indirectSlot = 0 := by
          have hnone : refs m.disk sb V (i, .indirect) = none := by
            by_contra hne
            exact absurd (hs.indirect.mp hne) (by omega)
          exact (refs_eq_none hi ht).mp hnone
        rw [if_pos hind] at hat
        obtain ⟨hlt, hxe⟩ := entryAt_some hat
        simp only [update_self, hnat] at hlt hxe
        have hxe := hxe (by
          show UInt32.ofNat ((m.disk m.freeblock).get32 _) = 0
          rw [h.zero _ le_rfl, get32_zero]
          rfl)
        have hnat₁ : (UInt32.ofNat (m.freeblock + 1)).toNat = m.freeblock + 1 :=
          UInt32.toNat_ofNat_of_lt' ((Nat.succ_le_of_lt hlt).trans_lt (by decide))
        have hxe' : x = m.freeblock + 1 := hxe.trans hnat₁
        rw [if_pos h12]
        omega
      · -- another block behind the indirect block
        have hgt : NDIRECT * BSIZE < n := by
          simp only [BSIZE, NDIRECT] at *
          omega
        obtain ⟨b, hb⟩ := Option.ne_none_iff_exists'.mp (hs.indirect.mpr hgt)
        have hind : (V i).addrs indirectSlot ≠ 0 := (refs_eq_some.mp hb).2.2.1
        rw [if_neg hind] at hat
        have hxe := (entryAt_some hat).2 (by
          simp only [Dinode.addrAt, if_neg hind] at hempty
          exact hempty)
        rw [if_neg h12]
        omega
  · have h12 : n ≠ NDIRECT * BSIZE := by
      rintro rfl
      exact hmod (by decide)
    rw [if_neg hmod, if_neg h12]
    exact hle

end BlockAt

/-! ### Running out of blocks -/

/-- A file of `n` bytes can grow to `n'`. -/
def Room (m : Img) (n n' : ℕ) : Prop :=
  n' ≤ MAXFILE * BSIZE ∧ m.freeblock + blocksFor n' ≤ size + blocksFor n

/-- With room the program returns a result with `P`; without, it stops. -/
def IfRoom {α : Type} (room : Prop) (r : Option α) (P : α → Prop) : Prop :=
  (room ∧ ∃ a, r = some a ∧ P a) ∨ (¬ room ∧ r = none)

section IfRoom

variable {α β : Type} {room room' : Prop} {r : Option α} {P P' : α → Prop}

theorem IfRoom.intro (hroom : room) {a : α} (ha : P a) : IfRoom room (some a) P :=
  Or.inl ⟨hroom, a, rfl, ha⟩

theorem IfRoom.bind {f : α → Option β} {Q : β → Prop} (h : IfRoom room r P)
    (himp : room' → room) (hf : room → ∀ a, P a → IfRoom room' (f a) Q) :
    IfRoom room' (r.bind f) Q := by
  rcases h with ⟨hroom, a, rfl, ha⟩ | ⟨hno, rfl⟩
  · exact hf hroom a ha
  · exact Or.inr ⟨fun h => hno (himp h), rfl⟩

theorem IfRoom.imp (h : IfRoom room r P) (hiff : room ↔ room') (hP : ∀ a, P a → P' a) :
    IfRoom room' r P' := by
  rcases h with ⟨hroom, a, hr, ha⟩ | ⟨hno, hr⟩
  · exact Or.inl ⟨hiff.mp hroom, a, hr, hP a ha⟩
  · exact Or.inr ⟨fun h => hno (hiff.mpr h), hr⟩

theorem IfRoom.of_some (h : IfRoom room r P) {a : α} (hr : r = some a) : room ∧ P a := by
  rcases h with ⟨hroom, b, hb, ha⟩ | ⟨-, hno⟩
  · obtain rfl := Option.some.inj (hr.symm.trans hb)
    exact ⟨hroom, ha⟩
  · cases hr.symm.trans hno

theorem IfRoom.returns (h : IfRoom room r P) (hroom : room) : ∃ a, r = some a ∧ P a :=
  h.elim And.right fun hno => absurd hroom hno.1

end IfRoom

/-! ### Appending -/

/-- Inode `i` of the table grows from `n` to `n'` bytes and then has content `c`. -/
structure Appended (i n n' : ℕ) (c : Bytes) (m : Img) (V : ℕ → Dinode) (m' : Img)
    (V' : ℕ → Dinode) : Prop where
  counted : Counted m' V'
  sized : Sized m'.disk V' i n'
  sized_of_ne : ∀ j ≠ i, ∀ k, Sized m.disk V j k → Sized m'.disk V' j k
  content_self : content m'.disk (refs m'.disk sb V') i = c
  content_of_ne : ∀ j ≠ i, content m'.disk (refs m'.disk sb V') j
    = content m.disk (refs m.disk sb V) j
  inodes : ∀ j < ninodes, dinode m'.disk j = dinode m.disk j
  table : ∀ j ≠ i, V' j = V j
  inode : V' i = { V i with addrs := (V' i).addrs }
  freeblock : m'.freeblock + blocksFor n = m.freeblock + blocksFor n'
  freeinode : m'.freeinode = m.freeinode

section Append

variable {m m₁ m' : Img} {V V₁ V' : ℕ → Dinode} {i n n₁ n' x : ℕ} {c c₁ : Bytes}

theorem Appended.refl (h : Counted m V) (hs : Sized m.disk V i n) :
    Appended i n n (content m.disk (refs m.disk sb V) i) m V m V where
  counted := h
  sized := hs
  sized_of_ne _ _ _ hk := hk
  content_self := rfl
  content_of_ne _ _ := rfl
  inodes _ _ := rfl
  table _ _ := rfl
  inode := rfl
  freeblock := rfl
  freeinode := rfl

theorem Appended.trans (a : Appended i n n₁ c₁ m V m₁ V₁) (a' : Appended i n₁ n' c m₁ V₁ m' V') :
    Appended i n n' c m V m' V' where
  counted := a'.counted
  sized := a'.sized
  sized_of_ne j hj k hk := a'.sized_of_ne j hj k (a.sized_of_ne j hj k hk)
  content_self := a'.content_self
  content_of_ne j hj := (a'.content_of_ne j hj).trans (a.content_of_ne j hj)
  inodes j hj := (a'.inodes j hj).trans (a.inodes j hj)
  table j hj := (a'.table j hj).trans (a.table j hj)
  inode := by rw [a'.inode, a.inode]
  freeblock := by
    have h := a.freeblock
    have h' := a'.freeblock
    omega
  freeinode := a'.freeinode.trans a.freeinode

/-- Writing into the block `blockAt` has found. -/
theorem Found.store (f : Found i n x m V m' V') (hk : 0 < k) (hle : n + k ≤ (n / BSIZE + 1) * BSIZE)
    (src : Bytes) :
    Appended i n (n + k) ((content m.disk (refs m.disk sb V) i).blit n k src) m V
      (wsect m' x ((m'.disk x).blit (n % BSIZE) k src)) V' := by
  have hinj : ∀ {p q b}, refs m'.disk sb V' p = some b → refs m'.disk sb V' q = some b → p = q :=
    f.counted.owns.inj
  have hk' : k ≤ BSIZE - n % BSIZE := by
    simp only [BSIZE] at hle ⊢
    omega
  obtain ⟨q, -, hq⟩ := blockOf_eq_some.mp f.block
  obtain ⟨hdata, hlt⟩ := f.counted.ref_data hq
  have hrefs := refs_store (d := m'.disk) hinj f.block ((m'.disk x).blit (n % BSIZE) k src)
  have hcontent := content_store (d := m'.disk) hinj f.block
    ((m'.disk x).blit (n % BSIZE) k src)
  refine ⟨⟨?_, f.counted.used, f.counted.low, ?_, ?_⟩, ?_, ?_, ?_, ?_, ?_, f.table, f.inode, ?_,
    f.freeinode⟩
  · exact (superblock_update (one_lt_nmeta.trans_le hdata).ne').trans f.counted.super
  · show Owns (refs (update m'.disk x _) sb V') _ _
    rw [hrefs]
    exact f.counted.owns
  · intro b hb
    exact (update_of_ne (hlt.trans_le hb).ne' _ _).trans (f.counted.zero b hb)
  · exact (f.sized k hk hle).congr fun p => congrFun hrefs _
  · exact fun j hj l hl => (f.other j hj l hl).congr fun p => congrFun hrefs _
  · show content (update m'.disk x _) (refs (update m'.disk x _) sb V') i = _
    rw [hrefs, ← f.content_eq i, ← content_blit f.block hk']
    funext y
    rw [hcontent]
    simp only [true_and]
  · intro j hj
    show content (update m'.disk x _) (refs (update m'.disk x _) sb V') j = _
    rw [hrefs, ← f.content_eq j]
    funext y
    rw [hcontent, if_neg fun h => hj h.1]
  · intro j hj
    have hj' : IBLOCK j < nmeta sb := iblock_lt_nmeta hj
    exact (dinode_update_block (hj'.trans_le hdata).ne).trans (f.inodes j hj)
  · show m'.freeblock + _ = _
    rw [f.freeblock, blocksFor_add hk hle]
    omega

/-- The loop of `iappend` writes what is left of `p` at the end of the file, if there is
room. -/
theorem iappendLoop_spec (p : Bytes) (n : ℕ) (hi : i < ninodes) :
    ∀ (tot off : ℕ) (m : Img) (V : ℕ → Dinode), Counted m V → (V i).type ≠ 0 →
      Sized m.disk V i off → off ≤ MAXFILE * BSIZE → m.freeblock ≤ size →
      IfRoom (Room m off (off + (n - tot))) (iappendLoop p n m (V i) tot off) fun r =>
        ∃ V', r.2 = (V' i, off + (n - tot)) ∧ Appended i off (off + (n - tot))
          ((content m.disk (refs m.disk sb V) i).blit off (n - tot) (p.drop tot)) m V r.1 V' := by
  intro tot off
  -- by the number of bytes left
  induction hN : n - tot using Nat.strong_induction_on generalizing tot off with
  | _ N ih =>
    intro m V h ht hs hmax hle
    rw [iappendLoop]
    split_ifs with hlt
    swap
    · obtain rfl : N = 0 := by omega
      refine .intro ⟨hmax, Nat.add_le_add_right hle _⟩ ⟨V, rfl, ?_⟩
      rw [blit_zero]
      exact Appended.refl h hs
    have hdm := Nat.div_add_mod' off BSIZE
    have hmod : off % BSIZE < BSIZE := Nat.mod_lt _ (by decide)
    by_cases hfbn : MAXFILE ≤ off / BSIZE
    · -- the file has too many blocks
      have := Nat.mul_le_mul_right BSIZE hfbn
      refine Or.inr ⟨fun hroom => ?_, by simp only [if_pos hfbn]; rfl⟩
      have := hroom.1
      omega
    have hnext := Nat.mul_le_mul_right BSIZE (Nat.succ_le_of_lt (not_le.mp hfbn))
    have hoff : off < MAXFILE * BSIZE := by
      rw [Nat.succ_mul] at hnext
      omega
    set k := min (n - tot) ((off / BSIZE + 1) * BSIZE - off) with hk
    have hk0 : 0 < k := by
      rw [Nat.add_one_mul] at hk
      omega
    have hkle : off + k ≤ (off / BSIZE + 1) * BSIZE := by
      rw [Nat.add_one_mul] at hk ⊢
      omega
    have hadd := blocksFor_add hk0 hkle
    have hmono : blocksFor (off + k) ≤ blocksFor (off + N) := blocksFor_mono (by omega)
    simp only [if_neg hfbn, Option.bind_eq_bind]
    by_cases hroom : m.freeblock + newBlocks off ≤ size
    swap
    · -- the block is behind the end of the image, and so is what the program reads
      refine Or.inr ⟨fun hr => hroom (by have := hr.2; omega), ?_⟩
      rcases hat : blockAt m (V i) (off / BSIZE) with - | ⟨m₁, din₁, x⟩
      · rfl
      · have hx : ¬ x < size := fun hx =>
          hroom (newBlocks_le h hi ht hs (not_le.mp hfbn) hle hat hx)
        simp only [Option.bind_some, rsect, if_neg hx]
        rfl
    obtain ⟨m₁, V₁, x, hat, f⟩ := blockAt_spec h hi ht hs hoff hroom
    obtain ⟨q, -, hq⟩ := blockOf_eq_some.mp f.block
    have hx : x < size := by
      have := (f.counted.ref_data hq).2
      have := f.freeblock
      omega
    have a := f.store hk0 hkle (p.drop tot)
    have ht₁ : (V₁ i).type ≠ 0 := by
      rw [f.inode]
      exact ht
    have hfb := a.freeblock
    have hrest : off + k + (n - (tot + k)) = off + N := by omega
    have hrec := ih (n - (tot + k)) (by omega) (tot + k) (off + k) rfl _ V₁ a.counted ht₁ a.sized
      (hkle.trans hnext) (by omega)
    rw [hrest] at hrec
    simp only [hat, rsect, if_pos hx, Option.bind_some]
    rw [show off - off / BSIZE * BSIZE = off % BSIZE by omega]
    refine hrec.imp (by unfold Room; omega) ?_
    rintro ⟨m', din', off'⟩ ⟨V', hr, a'⟩
    have hblit : ((content m.disk (refs m.disk sb V) i).blit off k (p.drop tot)).blit (off + k)
        (n - (tot + k)) (p.drop (tot + k))
        = (content m.disk (refs m.disk sb V) i).blit off N (p.drop tot) := by
      have hdrop : p.drop (tot + k) = (p.drop tot).drop k := by
        funext y
        simp only [Bytes.drop]
        congr 1
        omega
      rw [hdrop, blit_blit]
      congr 1
      omega
    rw [a.content_self, hblit] at a'
    exact ⟨V', hr, a.trans a'⟩

end Append

end Nunix.Fs.Mkfs
