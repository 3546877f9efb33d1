/-
Nunix/Fs/Table.lean

The abstract view of the file system: a table of inodes and the blocks they own.

The table `V` gives for every inode number the inode as the kernel sees it, in the
cache if it is there and valid, on disk otherwise.  The positions of block addresses
in the inodes of the table are the owners, the disk blocks the resources of `Owns`
(`refs`): a block is in use when its bit is set, and the blocks in front of the data
area are reserved.  Through the references every inode has a content (`content`),
the bytes `readi` and `writei` work on.

The first section evaluates the basic programs of the inode layer; the lemmas on
`refs` say what a change of one address does to the references.
-/
import Nunix.Fs.Inode
import Nunix.Ownership

namespace Nunix.Fs

open Bytes Hoare
open Function (update update_apply update_of_ne update_self)

variable {R : ℕ × Pos → Option ℕ} {x bn y : ℕ}

/-! ### Effects of the basic programs -/

/-- A call noted in the trace. -/
def FsSt.note (s : FsSt) (e : TxEv) : FsSt := { s with trace := e :: s.trace }

/-- Block `x` written through the log. -/
def FsSt.write (s : FsSt) (x : ℕ) (b : Bytes) : FsSt :=
  { s with
    disk := update s.disk x b
    logged := x :: s.logged
    trace := .logWrite x b :: s.trace }

/-- The state after `begin_op`. -/
def FsSt.beginOp (s : FsSt) : FsSt := { s with logged := [], trace := .beginOp :: s.trace }

/-- The state after `end_op`. -/
def FsSt.endOp (s : FsSt) : FsSt :=
  { s with logged := [], ops := s.logged :: s.ops, trace := .endOp s.disk :: s.trace }

/-- Cache entry `k` replaced. -/
def FsSt.setSlot (s : FsSt) (k : ℕ) (ip : Inode) : FsSt :=
  { s with icache := update s.icache k ip }

section Effects

variable {Q : Unit → FsSt → Prop} {E : Halt → FsSt → Prop} {s : FsSt} {k : ℕ}

@[simp] theorem note_disk (e : TxEv) : (s.note e).disk = s.disk := rfl

@[simp] theorem note_icache (e : TxEv) : (s.note e).icache = s.icache := rfl

@[simp] theorem wp_note {e : TxEv} : Wp (note e) Q E s ↔ Q () (s.note e) := Iff.rfl

@[simp] theorem wp_beginOp : Wp beginOp Q E s ↔ Q () s.beginOp := Iff.rfl

@[simp] theorem wp_endOp : Wp endOp Q E s ↔ Q () s.endOp := Iff.rfl

@[simp] theorem write_disk (x : ℕ) (b : Bytes) :
    (s.write x b).disk = update s.disk x b := rfl

@[simp] theorem write_icache (x : ℕ) (b : Bytes) : (s.write x b).icache = s.icache := rfl

@[simp] theorem setSlot_disk (k : ℕ) (ip : Inode) : (s.setSlot k ip).disk = s.disk := rfl

@[simp] theorem setSlot_self (k : ℕ) (ip : Inode) : (s.setSlot k ip).icache k = ip :=
  update_self ..

theorem setSlot_of_ne {l : ℕ} (h : l ≠ k) (ip : Inode) : (s.setSlot k ip).icache l = s.icache l :=
  update_of_ne h _ _

@[simp] theorem wp_panic {α : Type} {Q : α → FsSt → Prop} {msg : FsPanic} :
    Wp (panic msg) Q E s ↔ E (.panic msg) s := Iff.rfl

@[simp] theorem wp_bread {Q : Bytes → FsSt → Prop} : Wp (bread x) Q E s ↔ Q (s.disk x) s := Iff.rfl

@[simp] theorem wp_logWrite {b : Bytes} : Wp (logWrite x b) Q E s ↔ Q () (s.write x b) := Iff.rfl

@[simp] theorem wp_readsb {Q : Superblock → FsSt → Prop} :
    Wp readsb Q E s ↔ Q (superblock s.disk) s := Iff.rfl

@[simp] theorem wp_slot {Q : Inode → FsSt → Prop} : Wp (slot k) Q E s ↔ Q (s.icache k) s := Iff.rfl

@[simp] theorem wp_modifySlot {f : Inode → Inode} :
    Wp (modifySlot k f) Q E s ↔ Q () (s.setSlot k (f (s.icache k))) := Iff.rfl

/-- `iget`: a hit, a free entry, or none. -/
theorem wp_iget {i : ℕ} {Q : ℕ → FsSt → Prop}
    (hhit : ∀ k, 0 < (s.icache k).ref → (s.icache k).inum = i →
      Q k (s.setSlot k { s.icache k with ref := (s.icache k).ref + 1 }))
    (hmiss : ∀ k < NINODE, (s.icache k).ref = 0 →
      (∀ l < NINODE, 0 < (s.icache l).ref → (s.icache l).inum ≠ i) → Q k (s.setSlot k
        { s.icache k with inum := i, ref := 1, busy := false, valid := false }))
    (hfull : (∀ l < NINODE, (s.icache l).ref ≠ 0) →
      (∀ l < NINODE, 0 < (s.icache l).ref → (s.icache l).inum ≠ i) → E (.panic .igetNoInodes) s) :
    Wp (iget i) Q E s := by
  unfold iget
  simp only [wp_bind, wp_get]
  rcases e : (List.range NINODE).find? fun k =>
      decide (0 < (s.icache k).ref) && (s.icache k).inum == i with - | k
  · have hnew : ∀ l < NINODE, 0 < (s.icache l).ref → (s.icache l).inum ≠ i := by
      intro l hl hpos hil
      have := List.find?_eq_none.mp e l (List.mem_range.mpr hl)
      simp [hpos, hil] at this
    rcases e' : (List.range NINODE).find? fun k => (s.icache k).ref == 0 with - | k
    · refine hfull (fun l hl h0 => ?_) hnew
      have := List.find?_eq_none.mp e' l (List.mem_range.mpr hl)
      simp [h0] at this
    · have hk : k < NINODE := List.mem_range.mp (List.mem_of_find?_eq_some e')
      exact hmiss k hk (by simpa using List.find?_some e') hnew
  · have hk := List.find?_some e
    simp only [Bool.and_eq_true, decide_eq_true_eq, beq_iff_eq] at hk
    exact hhit k hk.1 hk.2

@[simp] theorem wp_setAddr {i : Fin (NDIRECT + 1)} {a : UInt32} :
    Wp (setAddr k i a) Q E s ↔ Q () (s.setSlot k { s.icache k with
      addrs := update (s.icache k).addrs i a }) := Iff.rfl

@[simp] theorem wp_iupdate :
    Wp (iupdate k) Q E s ↔ Q () ((s.note (.iupdate k)).write (IBLOCK (s.icache k).inum)
      (withDinode s.disk (s.icache k).inum (s.icache k).toDinode)) := Iff.rfl

/-- The state after `balloc` returned `b`. -/
def FsSt.alloc (s : FsSt) (b : ℕ) : FsSt :=
  let bb := BBLOCK b (superblock s.disk).ninodes
  { ((s.note .balloc).write bb ((s.disk bb).setBit (b % BPB))).write b Bytes.zero with
    ballocs := (s.disk, b) :: s.ballocs }

theorem wp_balloc {Q : ℕ → FsSt → Prop} :
    Wp balloc Q E s ↔ (∀ b, firstFree s.disk = some b → Q b (s.alloc b)) ∧
      (firstFree s.disk = none → E (.panic .outOfBlocks) (s.note .balloc)) := by
  unfold balloc
  simp only [wp_bind, wp_get, wp_note, note_disk]
  rcases firstFree s.disk with - | b
  · simp
  · simp only [Option.some.injEq, forall_eq', reduceCtorEq, IsEmpty.forall_iff, and_true]
    rfl

/-- The state after `bfree` of `b`. -/
def FsSt.free (s : FsSt) (b : ℕ) : FsSt :=
  let bb := BBLOCK b (superblock s.disk).ninodes
  (s.note (.bfree b)).write bb ((s.disk bb).clearBit (b % BPB))

theorem wp_bfree {b : ℕ} :
    Wp (bfree b) Q E s ↔
      (bit s.disk (superblock s.disk).ninodes b = true → Q () (s.free b)) ∧
      (bit s.disk (superblock s.disk).ninodes b = false →
        E (.panic .freeingFreeBlock) (s.note (.bfree b))) := by
  unfold bfree bit
  rcases e : (s.disk (BBLOCK b (superblock s.disk).ninodes)).getBit (b % BPB) with - | -
  · simp [e]
  · simp [e, FsSt.free]

end Effects

/-! ### Regions of the disk -/

/-- The number of blocks in front of the data area: boot block, superblock, inode
blocks and bitmap blocks. -/
def nmeta (sb : Superblock) : ℕ := sb.ninodes / IPB + 3 + (sb.size / BPB + 1)

section Regions

variable {sb : Superblock} {b i : ℕ}

theorem one_lt_iblock : 1 < IBLOCK i := by
  simp only [IBLOCK, IPB, BSIZE]
  omega

theorem iblock_lt_bblock (h : i < sb.ninodes) : IBLOCK i < BBLOCK b sb.ninodes := by
  simp only [IBLOCK, BBLOCK, IPB, BPB, BSIZE]
  omega

theorem bblock_lt_nmeta (h : b < sb.size) : BBLOCK b sb.ninodes < nmeta sb := by
  simp only [nmeta, BBLOCK, IPB, BPB, BSIZE]
  omega

theorem iblock_lt_nmeta (h : i < sb.ninodes) : IBLOCK i < nmeta sb := by
  simp only [nmeta, IBLOCK, IPB, BPB, BSIZE]
  omega

theorem one_lt_nmeta : 1 < nmeta sb := by
  simp only [nmeta, IPB, BPB, BSIZE]
  omega

end Regions

/-- `balloc` takes the first block whose bit is clear. -/
theorem firstFree_eq_some {d : Disk} {b : ℕ} :
    firstFree d = some b ↔ b < (superblock d).size ∧ bit d (superblock d).ninodes b = false ∧
      ∀ a < b, bit d (superblock d).ninodes a = true := by
  rw [firstFree, List.find?_range_eq_some]
  simp only [Bool.not_eq_true', List.mem_range, Bool.not_not]
  tauto

theorem firstFree_spec {d : Disk} {b : ℕ} (h : firstFree d = some b) :
    b < (superblock d).size ∧ bit d (superblock d).ninodes b = false :=
  ⟨(firstFree_eq_some.mp h).1, (firstFree_eq_some.mp h).2.1⟩

/-! ### References -/

/-- The positions of block addresses in an inode. -/
inductive Pos
  | direct (i : Fin NDIRECT)
  | indirect
  | entry (j : Fin NINDIRECT)
  deriving DecidableEq

/-- The block address at a position, 0 if there is none. -/
def Dinode.addrAt (d : Disk) (n : Dinode) : Pos → UInt32
  | .direct i => n.addrs i.castSucc
  | .indirect => n.addrs indirectSlot
  | .entry j =>
      if n.addrs indirectSlot = 0 then 0 else entry d (n.addrs indirectSlot).toNat j

/-- The blocks the allocated inodes of table `V` refer to. -/
def refs (d : Disk) (sb : Superblock) (V : ℕ → Dinode) (p : ℕ × Pos) : Option ℕ :=
  if p.1 < sb.ninodes ∧ (V p.1).type ≠ 0 ∧ (V p.1).addrAt d p.2 ≠ 0 then
    some ((V p.1).addrAt d p.2).toNat
  else none

/-- The blocks whose bit is set. -/
def used (d : Disk) (sb : Superblock) : Set ℕ := {b | b < sb.size ∧ bit d sb.ninodes b = true}

/-- The blocks in front of the data area. -/
def reserved (sb : Superblock) : Set ℕ := {b | b < nmeta sb}

theorem refs_eq_some {d : Disk} {sb : Superblock} {V : ℕ → Dinode} {p : ℕ × Pos} {b : ℕ} :
    refs d sb V p = some b ↔ p.1 < sb.ninodes ∧ (V p.1).type ≠ 0 ∧
      (V p.1).addrAt d p.2 ≠ 0 ∧ ((V p.1).addrAt d p.2).toNat = b := by
  unfold refs
  split_ifs with h
  · simp [h]
  · simp only [false_iff]
    exact fun h' => h ⟨h'.1, h'.2.1, h'.2.2.1⟩

/-- References depend on the table and on the contents of the indirect blocks. -/
theorem refs_congr {d d' : Disk} {sb : Superblock} {V : ℕ → Dinode}
    (h : ∀ i x, refs d sb V (i, .indirect) = some x → d' x = d x) :
    refs d' sb V = refs d sb V := by
  funext ⟨i, p⟩
  by_cases hi : i < sb.ninodes ∧ (V i).type ≠ 0
  · have haddr : (V i).addrAt d' p = (V i).addrAt d p := by
      cases p with
      | direct j => rfl
      | indirect => rfl
      | entry j =>
          simp only [Dinode.addrAt]
          split_ifs with h0
          · rfl
          · have := h i _ (refs_eq_some.mpr ⟨hi.1, hi.2, h0, rfl⟩)
            simp only [entry]
            rw [show (V i).addrAt d .indirect = (V i).addrs indirectSlot from rfl] at this
            rw [this]
    simp only [refs, haddr]
  · have hno : ∀ d'' : Disk, refs d'' sb V (i, p) = none := by
      intro d''
      exact if_neg fun h' => hi ⟨h'.1, h'.2.1⟩
    rw [hno, hno]

/-- References depend on the inodes of the disk only. -/
theorem refs_congr_table {d : Disk} {sb : Superblock} {V V' : ℕ → Dinode}
    (h : ∀ i < sb.ninodes, V' i = V i) : refs d sb V' = refs d sb V := by
  funext ⟨i, p⟩
  by_cases hi : i < sb.ninodes
  · simp only [refs, h i hi]
  · have hno : ∀ V'' : ℕ → Dinode, refs d sb V'' (i, p) = none := fun V'' =>
      if_neg fun h' => hi h'.1
    rw [hno, hno]

/-- The table with one block address of inode `i` replaced. -/
def setAt (V : ℕ → Dinode) (i : ℕ) (k : Fin (NDIRECT + 1)) (a : UInt32) : ℕ → Dinode :=
  update V i { V i with addrs := update (V i).addrs k a }

section SetAt

variable {d : Disk} {sb : Superblock} {V : ℕ → Dinode} {i : ℕ} {a : UInt32}

theorem setAt_of_ne {j : ℕ} (h : j ≠ i) (k : Fin (NDIRECT + 1)) : setAt V i k a j = V j :=
  update_of_ne h _ _

theorem setAt_addrs (k l : Fin (NDIRECT + 1)) :
    (setAt V i k a i).addrs l = if l = k then a else (V i).addrs l := by
  rw [setAt, update_self]
  exact update_apply ..

@[simp] theorem setAt_type (k : Fin (NDIRECT + 1)) (j : ℕ) :
    (setAt V i k a j).type = (V j).type := by
  by_cases h : j = i
  · rw [h, setAt, update_self]
  · rw [setAt_of_ne h]

/-- The reference an address stands for. -/
def toRef (a : UInt32) : Option ℕ := if a = 0 then none else some a.toNat

variable {p pos : Pos}

theorem refs_of_alloc {V : ℕ → Dinode} (hi : i < sb.ninodes) (ht : (V i).type ≠ 0) :
    refs d sb V (i, p) = toRef ((V i).addrAt d p) := by
  unfold refs toRef
  by_cases h : (V i).addrAt d p = 0
  · simp [h]
  · simp [hi, ht, h]

theorem refs_eq_none {V : ℕ → Dinode} (hi : i < sb.ninodes) (ht : (V i).type ≠ 0) :
    refs d sb V (i, p) = none ↔ (V i).addrAt d p = 0 := by
  rw [refs_of_alloc hi ht, toRef]
  split_ifs with h <;> simp [h]

/-- Two tables that agree on inode `j`'s type and addresses have its references. -/
theorem refs_congr_at {d' : Disk} {V' : ℕ → Dinode} {j : ℕ} (ht : (V' j).type = (V j).type)
    (ha : (V' j).addrAt d' p = (V j).addrAt d p) : refs d' sb V' (j, p) = refs d sb V (j, p) := by
  simp only [refs, ht, ha]

/-- References depend on the type and the addresses of an inode. -/
theorem refs_update_same {n : Dinode} (haddrs : n.addrs = (V i).addrs)
    (htype : n.type = (V i).type) :
    refs d sb (update V i n) = refs d sb V := by
  funext ⟨j, p⟩
  by_cases hj : j = i
  · subst hj
    refine refs_congr_at ?_ ?_
    · rw [update_self, htype]
    · rw [update_self]
      cases p <;> simp only [Dinode.addrAt, haddrs]
  · refine refs_congr_at ?_ ?_ <;> rw [update_of_ne hj]

theorem refs_setDirect (hi : i < sb.ninodes) (ht : (V i).type ≠ 0) (k : Fin NDIRECT) :
    refs d sb (setAt V i k.castSucc a)
      = update (refs d sb V) (i, .direct k) (toRef a) := by
  have hlast : indirectSlot ≠ k.castSucc := (Fin.castSucc_lt_last k).ne'
  funext ⟨j, p⟩
  by_cases hjp : (j, p) = (i, Pos.direct k)
  · obtain ⟨rfl, rfl⟩ := Prod.mk.inj hjp
    rw [update_self, refs_of_alloc hi (by simpa using ht)]
    simp only [Dinode.addrAt, setAt_addrs, if_pos]
  · rw [update_of_ne hjp]
    by_cases hj : j = i
    · subst hj
      refine refs_congr_at (setAt_type ..) ?_
      cases p with
      | direct l =>
          have hl : l.castSucc ≠ k.castSucc := fun h => hjp (by rw [Fin.castSucc_inj.mp h])
          simp only [Dinode.addrAt, setAt_addrs, if_neg hl]
      | indirect => simp only [Dinode.addrAt, setAt_addrs, if_neg hlast]
      | entry l => simp only [Dinode.addrAt, setAt_addrs, if_neg hlast]
    · refine refs_congr_at (setAt_type ..) ?_
      rw [setAt_of_ne hj]

/-- A zeroed block becomes the indirect block. -/
theorem refs_setIndirect (hi : i < sb.ninodes) (ht : (V i).type ≠ 0)
    (h0 : (V i).addrs indirectSlot = 0) (hz : ∀ j, entry d a.toNat j = 0) :
    refs d sb (setAt V i indirectSlot a)
      = update (refs d sb V) (i, .indirect) (toRef a) := by
  funext ⟨j, p⟩
  by_cases hjp : (j, p) = (i, Pos.indirect)
  · obtain ⟨rfl, rfl⟩ := Prod.mk.inj hjp
    rw [update_self, refs_of_alloc hi (by simpa using ht)]
    simp only [Dinode.addrAt, setAt_addrs, if_pos]
  · rw [update_of_ne hjp]
    by_cases hj : j = i
    · subst hj
      refine refs_congr_at (setAt_type ..) ?_
      cases p with
      | direct l =>
          have hl : l.castSucc ≠ indirectSlot := (Fin.castSucc_lt_last l).ne
          simp only [Dinode.addrAt, setAt_addrs, if_neg hl]
      | indirect => exact absurd rfl hjp
      | entry l => simp [Dinode.addrAt, setAt_addrs, h0, hz]
    · refine refs_congr_at (setAt_type ..) ?_
      rw [setAt_of_ne hj]

/-- An entry of the indirect block is stored. -/
theorem refs_setEntry (hi : i < sb.ninodes) (ht : (V i).type ≠ 0)
    (hx : (V i).addrs indirectSlot ≠ 0) (hxi : ((V i).addrs indirectSlot).toNat = x)
    (huniq : ∀ j, refs d sb V (j, .indirect) = some x → j = i) (l : Fin NINDIRECT) :
    refs (update d x ((d x).put32 (4 * l) a.toNat)) sb V
      = update (refs d sb V) (i, .entry l) (toRef a) := by
  funext ⟨j, p⟩
  by_cases hjp : (j, p) = (i, Pos.entry l)
  · obtain ⟨rfl, rfl⟩ := Prod.mk.inj hjp
    rw [update_self, refs_of_alloc hi ht]
    simp only [Dinode.addrAt, if_neg hx, hxi, entry_put32, if_pos]
  · rw [update_of_ne hjp]
    by_cases hj : j = i
    · subst hj
      refine refs_congr_at rfl ?_
      cases p with
      | direct m => rfl
      | indirect => rfl
      | entry m =>
          have hm : (m : ℕ) ≠ l := fun h => hjp (by rw [Fin.ext h])
          simp only [Dinode.addrAt, if_neg hx, hxi, entry_put32, if_neg hm]
    · -- another inode has another indirect block
      by_cases hall : j < sb.ninodes ∧ (V j).type ≠ 0
      · refine refs_congr_at rfl ?_
        cases p with
        | direct m => rfl
        | indirect => rfl
        | entry m =>
            simp only [Dinode.addrAt]
            split_ifs with h0
            · rfl
            · rw [entry_update_block]
              intro hxj
              exact hj (huniq j (refs_eq_some.mpr ⟨hall.1, hall.2, h0, hxj⟩))
      · have hno : ∀ d' : Disk, refs d' sb V (j, p) = none := fun d' =>
          if_neg fun h' => hall ⟨h'.1, h'.2.1⟩
        rw [hno, hno]

end SetAt

/-! ### Contents -/

/-- The position of the address of the `bn`-th block of a file. -/
def posOf (bn : ℕ) : Option Pos :=
  if h : bn < NDIRECT then some (.direct ⟨bn, h⟩)
  else if h : bn - NDIRECT < NINDIRECT then some (.entry ⟨bn - NDIRECT, h⟩)
  else none

theorem posOf_inj {bm : ℕ} (h : posOf bn = some p) (h' : posOf bm = some p) : bn = bm := by
  unfold posOf at h h'
  split_ifs at h with h₁ h₂ <;> split_ifs at h' with h₁' h₂' <;>
    rw [← Option.some.inj h] at h' <;> simp at h'
  · exact h'.symm
  · omega

theorem posOf_ne_indirect (h : posOf bn = some p) : p ≠ .indirect := by
  unfold posOf at h
  split_ifs at h <;> rw [← Option.some.inj h] <;> simp

/-- The block that holds the `bn`-th block of inode `i`. -/
def blockOf (R : ℕ × Pos → Option ℕ) (i bn : ℕ) : Option ℕ := (posOf bn).bind fun p => R (i, p)

/-- The bytes of inode `i`; a missing block reads as zeros. -/
def content (d : Disk) (R : ℕ × Pos → Option ℕ) (i : ℕ) : Bytes := fun x =>
  match blockOf R i (x / BSIZE) with
  | some b => d b (x % BSIZE)
  | none => 0

theorem blockOf_eq_some {i b : ℕ} :
    blockOf R i bn = some b ↔ ∃ p, posOf bn = some p ∧ R (i, p) = some b := by
  simp [blockOf, Option.bind_eq_some_iff]

/-- A new reference to a data block. -/
theorem blockOf_update_data {i b : ℕ} (hpos : posOf bn = some pos) (x : ℕ) :
    blockOf (update R (i, pos) (some b)) i x
      = if x = bn then some b else blockOf R i x := by
  by_cases hx : x = bn
  · rw [hx, if_pos rfl]
    exact blockOf_eq_some.mpr ⟨pos, hpos, update_self ..⟩
  · rw [if_neg hx, blockOf, blockOf]
    rcases e : posOf x with - | q
    · rfl
    · refine update_of_ne (fun hq => hx ?_) _ _
      exact posOf_inj e ((Prod.mk.inj hq).2 ▸ hpos)

/-- A new reference to an indirect block. -/
theorem blockOf_update_indirect {i : ℕ} {o : Option ℕ} (x : ℕ) :
    blockOf (update R (i, .indirect) o) i x = blockOf R i x := by
  rw [blockOf, blockOf]
  rcases e : posOf x with - | q
  · rfl
  · exact update_of_ne (fun hq => posOf_ne_indirect e (Prod.mk.inj hq).2) _ _

theorem content_of_block {d : Disk} {i b : ℕ} (h : blockOf R i (x / BSIZE) = some b) :
    content d R i x = d b (x % BSIZE) := by
  simp only [content, h]

theorem content_of_none {d : Disk} {i : ℕ} (h : blockOf R i (x / BSIZE) = none) :
    content d R i x = 0 := by
  simp only [content, h]

theorem content_congr {d d' : Disk}
    (h : ∀ p b, R p = some b → d' b = d b) (j : ℕ) : content d' R j = content d R j := by
  funext x
  rcases e : blockOf R j (x / BSIZE) with - | b
  · rw [content_of_none e, content_of_none e]
  · obtain ⟨p, -, hp⟩ := blockOf_eq_some.mp e
    rw [content_of_block e, content_of_block e, h _ b hp]

/-- A new block is zero, so no content changes. -/
theorem content_grow {d d' : Disk} {i b : ℕ} (hempty : R (i, pos) = none)
    (hzero : d' b = Bytes.zero) (hdata : ∀ p c, R p = some c → p.2 ≠ .indirect → d' c = d c) (j : ℕ) :
    content d' (update R (i, pos) (some b)) j = content d R j := by
  funext x
  rcases e : posOf (x / BSIZE) with - | q
  · rw [content_of_none (by rw [blockOf, e]; rfl), content_of_none (by rw [blockOf, e]; rfl)]
  · have hblock : ∀ R, blockOf R j (x / BSIZE) = R (j, q) := fun R => by rw [blockOf, e]; rfl
    by_cases hq : (j, q) = (i, pos)
    · have hnew : update R (i, pos) (some b) (j, q) = some b := by
        rw [hq, update_self]
      rw [content_of_none ((hblock R).trans (hq ▸ hempty)),
        content_of_block ((hblock _).trans hnew), hzero]
      rfl
    · have hsame : update R (i, pos) (some b) (j, q) = R (j, q) :=
        update_of_ne hq _ _
      rcases e' : R (j, q) with - | c
      · rw [content_of_none ((hblock R).trans e'),
          content_of_none ((hblock _).trans (hsame.trans e'))]
      · rw [content_of_block ((hblock R).trans e'),
          content_of_block ((hblock _).trans (hsame.trans e')),
          hdata _ c e' (posOf_ne_indirect e)]

/-- Storing `a` in the block of file block `bn` of inode `i`. -/
theorem content_store {d : Disk} (hinj : ∀ {p q b}, R p = some b → R q = some b → p = q) {i b : ℕ}
    (hb : blockOf R i bn = some b) (a : Bytes) (j x : ℕ) :
    content (update d b a) R j x
      = if j = i ∧ x / BSIZE = bn then a (x % BSIZE) else content d R j x := by
  obtain ⟨p, hp, hpb⟩ := blockOf_eq_some.mp hb
  rcases e : blockOf R j (x / BSIZE) with - | y
  · have hne : ¬ (j = i ∧ x / BSIZE = bn) := by
      rintro ⟨rfl, rfl⟩
      rw [hb] at e
      cases e
    rw [if_neg hne, content_of_none e, content_of_none e]
  · obtain ⟨q, hq, hqy⟩ := blockOf_eq_some.mp e
    rw [content_of_block e, content_of_block e]
    by_cases hyb : y = b
    · obtain ⟨rfl, rfl⟩ := Prod.mk.inj (hinj (hyb ▸ hqy) hpb)
      rw [if_pos ⟨rfl, posOf_inj hq hp⟩, hyb, update_self]
    · have hne : ¬ (j = i ∧ x / BSIZE = bn) := by
        rintro ⟨rfl, rfl⟩
        rw [hb] at e
        exact hyb (Option.some.inj e).symm
      rw [if_neg hne, update_of_ne hyb]

/-- Offsets up to the end of the block. -/
theorem add_div_mod (off : ℕ) (h : y < BSIZE - off % BSIZE) :
    (off + y) / BSIZE = off / BSIZE ∧ (off + y) % BSIZE = off % BSIZE + y := by
  simp only [BSIZE] at h ⊢
  omega

/-- Part of a block replaced is part of the content replaced. -/
theorem content_blit {d : Disk} {i off b m : ℕ}
    (hb : blockOf R i (off / BSIZE) = some b) (hm : m ≤ BSIZE - off % BSIZE) {src : Bytes} :
    (fun x => if x / BSIZE = off / BSIZE then (d b).blit (off % BSIZE) m src (x % BSIZE)
      else content d R i x) = (content d R i).blit off m src := by
  funext x
  by_cases hx : x / BSIZE = off / BSIZE
  · rw [if_pos hx]
    by_cases hr : off ≤ x ∧ x < off + m
    · have hmod : (off + (x - off)) % BSIZE = off % BSIZE + (x - off) :=
        (add_div_mod off (by omega)).2
      rw [show off + (x - off) = x by omega] at hmod
      rw [blit_apply_of_mem hr.1 hr.2, hmod, blit_apply_of_mem (by omega) (by omega)]
      congr 1
      omega
    · have hmod : x % BSIZE < off % BSIZE ∨ off % BSIZE + m ≤ x % BSIZE := by
        simp only [BSIZE] at *
        omega
      rw [blit_apply_of_notMem hmod, blit_apply_of_notMem (by omega),
        content_of_block (hx ▸ hb)]
  · rw [if_neg hx, blit_apply_of_notMem]
    simp only [BSIZE] at *
    omega

/-- A data block is no indirect block, so storing in it changes no reference. -/
theorem refs_store {d : Disk} {sb : Superblock} {V : ℕ → Dinode}
    (hinj : ∀ {p q b}, refs d sb V p = some b → refs d sb V q = some b → p = q) {i b : ℕ}
    (hb : blockOf (refs d sb V) i bn = some b) (a : Bytes) :
    refs (update d b a) sb V = refs d sb V := by
  obtain ⟨p, hp, hpb⟩ := blockOf_eq_some.mp hb
  refine refs_congr fun j x hx => update_of_ne ?_ _ _
  rintro rfl
  exact posOf_ne_indirect hp (Prod.mk.inj (hinj hpb hx)).2

end Nunix.Fs
