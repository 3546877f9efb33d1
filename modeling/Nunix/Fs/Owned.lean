/-
Nunix/Fs/Owned.lean

Block ownership in the inode layer.

`Core` ties a file system state to an inode table: the references of the table own
the data blocks whose bits are set, and the valid entries of the inode cache are the
inodes of the table.  It holds between any two steps of fs.c that change block
addresses.

Allocation is described once, by the relation `Grow`: one block is taken off the
bitmap, zeroed, and stored at one position of one inode.  `bmap` makes at most two
such steps (`Mapped`), and what a later proof needs about it is proved for `Grow`.
`itrunc` releases the references of an inode one by one; `bfree` never finds a free
block on the way.
-/
import Nunix.Fs.Table

namespace Nunix.Fs

open Bytes Hoare
open Function (update update_eq_self update_of_ne update_self)

/-! ### The invariant -/

/-- A call of `balloc` that found the disk `c.1` and returned a block behind the
bitmap, the first free one. -/
structure Handed (sb : Superblock) (c : Disk × ℕ) : Prop where
  super : superblock c.1 = sb
  first : firstFree c.1 = some c.2
  data : nmeta sb ≤ c.2

/-- The cache entries in use: each holds an inode of the table, and a valid one is a
copy of it. -/
structure Cached (sb : Superblock) (c : ℕ → Inode) (V : ℕ → Dinode) : Prop where
  slot_lt : ∀ {k}, 0 < (c k).ref → k < NINODE
  inum_lt : ∀ {k}, 0 < (c k).ref → (c k).inum < sb.ninodes
  copy : ∀ {k}, 0 < (c k).ref → (c k).valid = true → (c k).toDinode = V (c k).inum
  type_ne : ∀ {k}, 0 < (c k).ref → (c k).valid = true → (V (c k).inum).type ≠ 0
  valid : ∀ {k}, 0 < (c k).ref → (c k).busy = true → (c k).valid = true
  inj : ∀ {k l}, 0 < (c k).ref → 0 < (c l).ref → (c k).inum = (c l).inum → k = l

/-- The state `s` is described by the table `V`; `H` are the calls of `balloc` before
the run. -/
structure Core (sb : Superblock) (H : List (Disk × ℕ)) (s : FsSt) (V : ℕ → Dinode) :
    Prop where
  room : nmeta sb ≤ sb.size
  super : superblock s.disk = sb
  owns : Owns (refs s.disk sb V) (used s.disk sb) (reserved sb)
  cache : Cached sb s.icache V
  handed : ∀ c ∈ s.ballocs, c ∈ H ∨ Handed sb c

/-- How a program may stop: not in `bfree`, and with no call of `balloc` but those of
`Handed`. -/
def Stops (sb : Superblock) (H : List (Disk × ℕ)) (e : Halt) (s : FsSt) : Prop :=
  e ≠ .panic .freeingFreeBlock ∧ ∀ c ∈ s.ballocs, c ∈ H ∨ Handed sb c

/-- Cache entry `k` holds inode `i` and has been read from disk. -/
structure Loaded (s : FsSt) (k i : ℕ) : Prop where
  ref : 0 < (s.icache k).ref
  valid : (s.icache k).valid = true
  inum : (s.icache k).inum = i

section Core

variable {sb : Superblock} {H : List (Disk × ℕ)} {s : FsSt} {V : ℕ → Dinode} {k i b : ℕ}
variable {ip : Inode}

theorem superblock_size_lt (d : Disk) : (superblock d).size < 2 ^ 32 := get32_lt ..

theorem Core.size_lt (h : Core sb H s V) : sb.size < 2 ^ 32 := by
  rw [← h.super]
  exact superblock_size_lt s.disk

theorem Core.stops (h : Core sb H s V) {e : Halt} (he : e ≠ .panic .freeingFreeBlock) :
    Stops sb H e s := ⟨he, h.handed⟩

theorem Core.inode_eq (h : Core sb H s V) (hk : Loaded s k i) : (s.icache k).toDinode = V i := by
  rw [← hk.inum]
  exact h.cache.copy hk.ref hk.valid

theorem Core.type_ne (h : Core sb H s V) (hk : Loaded s k i) : (V i).type ≠ 0 := by
  rw [← hk.inum]
  exact h.cache.type_ne hk.ref hk.valid

theorem Core.inum_lt (h : Core sb H s V) (hk : Loaded s k i) : i < sb.ninodes := by
  rw [← hk.inum]
  exact h.cache.inum_lt hk.ref

variable {p : ℕ × Pos}

theorem Core.ref_data (h : Core sb H s V) (hp : refs s.disk sb V p = some b) : nmeta sb ≤ b :=
  not_lt.mp (h.owns.notMem_reserved hp)

theorem Core.ref_lt (h : Core sb H s V) (hp : refs s.disk sb V p = some b) : b < sb.size :=
  (h.owns.mem_used hp).1

/-- Entry `k` changes, and the table at no inode that another entry holds. -/
theorem Cached.change {c : ℕ → Inode} {V' : ℕ → Dinode} (h : Cached sb c V)
    (hk : 0 < ip.ref → k < NINODE ∧ ip.inum < sb.ninodes ∧
      (ip.busy = true → ip.valid = true) ∧
      (ip.valid = true → ip.toDinode = V' ip.inum ∧ (V' ip.inum).type ≠ 0) ∧
      ∀ l ≠ k, 0 < (c l).ref → (c l).inum ≠ ip.inum)
    (hV : ∀ l ≠ k, 0 < (c l).ref → V' (c l).inum = V (c l).inum) :
    Cached sb (update c k ip) V' := by
  -- an entry in use is the changed one or an old one
  have hcases : ∀ {l}, 0 < (update c k ip l).ref →
      l = k ∧ update c k ip l = ip ∧ 0 < ip.ref ∨
        l ≠ k ∧ update c k ip l = c l ∧ 0 < (c l).ref := by
    intro l hl
    by_cases hlk : l = k
    · rw [hlk, update_self] at hl
      exact Or.inl ⟨hlk, by rw [hlk, update_self], hl⟩
    · rw [update_of_ne hlk] at hl
      exact Or.inr ⟨hlk, update_of_ne hlk _ _, hl⟩
  refine ⟨fun hl => ?_, fun hl => ?_, fun hl hv => ?_, fun hl hv => ?_, fun hl hb => ?_,
    fun hl hm e => ?_⟩
  · rcases hcases hl with ⟨rfl, -, hr⟩ | ⟨-, -, hr⟩
    · exact (hk hr).1
    · exact h.slot_lt hr
  · rcases hcases hl with ⟨-, e, hr⟩ | ⟨-, e, hr⟩ <;> rw [e]
    · exact (hk hr).2.1
    · exact h.inum_lt hr
  · rcases hcases hl with ⟨-, e, hr⟩ | ⟨hlk, e, hr⟩ <;> rw [e] at hv ⊢
    · exact ((hk hr).2.2.2.1 hv).1
    · exact (h.copy hr hv).trans (hV _ hlk hr).symm
  · rcases hcases hl with ⟨-, e, hr⟩ | ⟨hlk, e, hr⟩ <;> rw [e] at hv ⊢
    · exact ((hk hr).2.2.2.1 hv).2
    · exact hV _ hlk hr ▸ h.type_ne hr hv
  · rcases hcases hl with ⟨-, e, hr⟩ | ⟨-, e, hr⟩ <;> rw [e] at hb ⊢
    · exact (hk hr).2.2.1 hb
    · exact h.valid hr hb
  · rcases hcases hl with ⟨hlk, el, hlr⟩ | ⟨hlk, el, hlr⟩ <;>
      rcases hcases hm with ⟨hmk, em, hmr⟩ | ⟨hmk, em, hmr⟩ <;> rw [el, em] at e
    · exact hlk.trans hmk.symm
    · exact absurd e.symm ((hk hlr).2.2.2.2 _ hmk hmr)
    · exact absurd e ((hk hmr).2.2.2.2 _ hlk hlr)
    · exact h.inj hlr hmr e

/-- No other entry holds the inode of entry `k`. -/
theorem Cached.other {c : ℕ → Inode} (h : Cached sb c V) (hr : 0 < (c k).ref) :
    ∀ l ≠ k, 0 < (c l).ref → (c l).inum ≠ (c k).inum :=
  fun _ hl hl' e => hl (h.inj hl' hr e)

/-- The inode in entry `k` is replaced, in the cache and in the table. -/
theorem Cached.set {c : ℕ → Inode} (h : Cached sb c V) (hr : 0 < (c k).ref)
    (hinum : ip.inum = (c k).inum) (hvalid : ip.busy = true → ip.valid = true) {n : Dinode}
    (hn : ip.valid = true → ip.toDinode = n ∧ n.type ≠ 0) :
    Cached sb (update c k ip) (update V (c k).inum n) := by
  refine h.change (fun _ => ?_) fun l hl hl' => update_of_ne (h.other hr l hl hl') _ _
  rw [hinum, update_self]
  exact ⟨h.slot_lt hr, h.inum_lt hr, hvalid, hn, h.other hr⟩

/-- A change of entry `k` that leaves its inode alone. -/
theorem Cached.set_same {c : ℕ → Inode} (h : Cached sb c V) (hr : 0 < (c k).ref)
    (hinum : ip.inum = (c k).inum) (hvalid : ip.busy = true → ip.valid = true)
    (hn : ip.valid = true → ip.toDinode = V (c k).inum ∧ (V (c k).inum).type ≠ 0) :
    Cached sb (update c k ip) V := by
  have := h.set hr hinum hvalid hn
  rwa [update_eq_self] at this

end Core

/-! ### Taking a block off the bitmap -/

section Alloc

variable {sb : Superblock} {H : List (Disk × ℕ)} {s : FsSt} {V : ℕ → Dinode} {k i b : ℕ}

theorem Core.free_data (h : Core sb H s V) (hb : firstFree s.disk = some b) : nmeta sb ≤ b := by
  have hbit := (firstFree_spec hb).2
  rw [h.super] at hbit
  by_contra hlt
  have := (h.owns.reserved_used (not_le.mp hlt : b ∈ reserved sb)).2
  rw [hbit] at this
  cases this

theorem Core.free_lt (h : Core sb H s V) (hb : firstFree s.disk = some b) : b < sb.size := by
  have := (firstFree_spec hb).1
  rwa [h.super] at this

theorem Core.free_notMem (h : Core sb H s V) (hb : firstFree s.disk = some b) :
    b ∉ used s.disk sb := by
  rintro ⟨-, hbit⟩
  have := (firstFree_spec hb).2
  rw [h.super, hbit] at this
  cases this

theorem Core.toNat_ofNat (h : Core sb H s V) (hb : b < sb.size) : (UInt32.ofNat b).toNat = b :=
  UInt32.toNat_ofNat_of_lt' (hb.trans h.size_lt)

/-- The address of a data block stands for the block. -/
theorem Core.toRef_ofNat (h : Core sb H s V) (hb : b < sb.size) (hd : nmeta sb ≤ b) :
    toRef (UInt32.ofNat b) = some b := by
  have hnat := h.toNat_ofNat hb
  have hne : UInt32.ofNat b ≠ 0 := by
    intro h0
    rw [h0] at hnat
    have : 1 < nmeta sb := one_lt_nmeta
    rw [show (0 : UInt32).toNat = 0 from rfl] at hnat
    omega
  rw [toRef, if_neg hne, hnat]

/-- What `balloc` does to the disk. -/
theorem Core.alloc_disk (h : Core sb H s V) :
    (s.alloc b).disk = update (update s.disk (BBLOCK b sb.ninodes)
      ((s.disk (BBLOCK b sb.ninodes)).setBit (b % BPB))) b Bytes.zero := by
  rw [← h.super]
  rfl

theorem Core.alloc_zero (h : Core sb H s V) : (s.alloc b).disk b = Bytes.zero := by
  rw [h.alloc_disk, update_self]

variable (h : Core sb H s V) (hb : firstFree s.disk = some b)

include h hb

variable {x : ℕ}

theorem Core.alloc_data (hx : nmeta sb ≤ x) (hne : x ≠ b) : (s.alloc b).disk x = s.disk x := by
  have hbb : x ≠ BBLOCK b sb.ninodes := ((bblock_lt_nmeta (h.free_lt hb)).trans_le hx).ne'
  rw [h.alloc_disk, update_of_ne hne, update_of_ne hbb]

theorem Core.alloc_super : superblock (s.alloc b).disk = sb := by
  have hb1 : b ≠ 1 := (one_lt_nmeta.trans_le (h.free_data hb)).ne'
  have hbb : BBLOCK b sb.ninodes ≠ 1 := by
    simp only [BBLOCK, BPB, IPB, BSIZE]
    omega
  rw [h.alloc_disk, superblock_update hb1, superblock_update hbb, h.super]

theorem Core.alloc_dinode {j : ℕ} (hj : j < sb.ninodes) :
    dinode (s.alloc b).disk j = dinode s.disk j := by
  have hb' : IBLOCK j ≠ b := ((iblock_lt_nmeta hj).trans_le (h.free_data hb)).ne
  rw [h.alloc_disk, dinode_update_block hb', dinode_update_block (iblock_lt_bblock hj).ne]

theorem Core.alloc_bit (hx : x < sb.size) :
    bit (s.alloc b).disk sb.ninodes x = if x = b then true else bit s.disk sb.ninodes x := by
  have hxb : BBLOCK x sb.ninodes ≠ b := ((bblock_lt_nmeta hx).trans_le (h.free_data hb)).ne
  rw [h.alloc_disk, bit_update_block hxb, bit_set]

/-- A block that has just been taken is nobody's indirect block. -/
theorem Core.alloc_refs : refs (s.alloc b).disk sb V = refs s.disk sb V := by
  refine refs_congr fun j x hx => h.alloc_data hb (h.ref_data hx) ?_
  rintro rfl
  exact h.free_notMem hb (h.owns.mem_used hx)

end Alloc

/-! ### Growing an inode by one block -/

/-- The step from `s`, `V` to `s'`, `V'` takes the first free block `b`, zeroes it, and
stores its address at the empty position `pos` of inode `i`, which is in cache entry
`k`. -/
structure Grow (sb : Superblock) (k i : ℕ) (pos : Pos) (b : ℕ) (s : FsSt) (V : ℕ → Dinode)
    (s' : FsSt) (V' : ℕ → Dinode) : Prop where
  empty : refs s.disk sb V (i, pos) = none
  first : firstFree s.disk = some b
  refs_eq : refs s'.disk sb V' = update (refs s.disk sb V) (i, pos) (some b)
  bits : ∀ x < sb.size, bit s'.disk sb.ninodes x
    = if x = b then true else bit s.disk sb.ninodes x
  zeroed : s'.disk b = Bytes.zero
  data : ∀ x, nmeta sb ≤ x → x ≠ b → refs s.disk sb V (i, .indirect) ≠ some x →
    s'.disk x = s.disk x
  super : superblock s'.disk = sb
  inodes : ∀ j < sb.ninodes, dinode s'.disk j = dinode s.disk j
  table : ∀ j ≠ i, V' j = V j
  inode : V' i = { V i with addrs := (V' i).addrs }
  addrs : ∀ l, (V i).addrs l ≠ 0 → (V' i).addrs l = (V i).addrs l
  cache : s'.icache = update s.icache k { s.icache k with toDinode := V' i }
  ballocs : s'.ballocs = (s.disk, b) :: s.ballocs
  logged : ∀ x, x ∈ s'.logged ↔ x ∈ s.logged ∨ x = b ∨ x = BBLOCK b sb.ninodes ∨
    (∃ j, pos = .entry j) ∧ refs s.disk sb V (i, .indirect) = some x
  rest : s'.cwd = s.cwd ∧ s'.consoleRead = s.consoleRead ∧ s'.ops = s.ops

section Grow

variable {sb : Superblock} {H : List (Disk × ℕ)} {s s' : FsSt} {V V' : ℕ → Dinode}
  {k i b : ℕ} {pos : Pos}

theorem mem_used_of_bits {d d' : Disk} (hbits : ∀ x < sb.size, bit d' sb.ninodes x
      = if x = b then true else bit d sb.ninodes x) (hb : b < sb.size) (x : ℕ) :
    x ∈ used d' sb ↔ x = b ∨ x ∈ used d sb := by
  constructor
  · rintro ⟨hx, hbit⟩
    rw [hbits x hx] at hbit
    by_cases hxb : x = b
    · exact Or.inl hxb
    · rw [if_neg hxb] at hbit
      exact Or.inr ⟨hx, hbit⟩
  · rintro (rfl | ⟨hx, hbit⟩)
    · exact ⟨hb, by rw [hbits x hb, if_pos rfl]⟩
    · refine ⟨hx, ?_⟩
      rw [hbits x hx]
      split_ifs
      · rfl
      · exact hbit

theorem Grow.loaded (g : Grow sb k i pos b s V s' V') (hk : Loaded s k i) : Loaded s' k i := by
  obtain ⟨hr, hv, hi⟩ := hk
  refine ⟨?_, ?_, ?_⟩ <;> rw [g.cache, update_self]
  · exact hr
  · exact hv
  · exact hi

theorem Grow.core (g : Grow sb k i pos b s V s' V') (h : Core sb H s V) (hk : Loaded s k i) :
    Core sb H s' V' := by
  refine ⟨h.room, g.super, ?_, ?_, ?_⟩
  · rw [g.refs_eq]
    exact h.owns.claim (h.free_notMem g.first) (mem_used_of_bits g.bits (h.free_lt g.first))
  · have hV : V' = update V (s.icache k).inum (V' i) := by
      rw [hk.inum]
      funext j
      by_cases hj : j = i
      · rw [hj, update_self]
      · rw [update_of_ne hj, g.table j hj]
    have hset : Cached sb (update s.icache k { s.icache k with toDinode := V' i })
        (update V (s.icache k).inum (V' i)) := by
      apply h.cache.set hk.ref
      · rfl
      · exact fun _ => hk.valid
      · refine fun _ => ⟨rfl, ?_⟩
        rw [g.inode]
        exact h.type_ne hk
    rwa [← g.cache, ← hV] at hset
  · intro c hc
    rw [g.ballocs] at hc
    rcases List.mem_cons.mp hc with rfl | hc
    · exact Or.inr ⟨h.super, g.first, h.free_data g.first⟩
    · exact h.handed c hc

theorem Grow.exact (g : Grow sb k i pos b s V s' V') (h : Core sb H s V)
    (he : Owns.Exact (refs s.disk sb V) (used s.disk sb) (reserved sb)) :
    Owns.Exact (refs s'.disk sb V') (used s'.disk sb) (reserved sb) := by
  rw [g.refs_eq]
  exact he.claim g.empty (mem_used_of_bits g.bits (h.free_lt g.first))

/-- References are kept. -/
theorem Grow.refs_mono (g : Grow sb k i pos b s V s' V') {c : ℕ} (hp : refs s.disk sb V p = some c) :
    refs s'.disk sb V' p = some c := by
  rw [g.refs_eq]
  by_cases hpp : p = (i, pos)
  · rw [hpp, g.empty] at hp
    cases hp
  · rw [update_of_ne hpp, hp]

theorem Grow.refs_pos (g : Grow sb k i pos b s V s' V') : refs s'.disk sb V' (i, pos) = some b := by
  rw [g.refs_eq, update_self]

theorem Grow.content (g : Grow sb k i pos b s V s' V') (h : Core sb H s V) (j : ℕ) :
    content s'.disk (refs s'.disk sb V') j = content s.disk (refs s.disk sb V) j := by
  rw [g.refs_eq]
  refine content_grow g.empty g.zeroed (fun p c hp hind => ?_) j
  refine g.data c (h.ref_data hp) ?_ fun hx => ?_
  · rintro rfl
    exact h.free_notMem g.first (h.owns.mem_used hp)
  · exact hind (congrArg Prod.snd (h.owns.inj hp hx))

end Grow

/-! ### bmap -/

section Bmap

variable {sb : Superblock} {H : List (Disk × ℕ)} {s : FsSt} {V : ℕ → Dinode} {k i b : ℕ}

/-- The state after `balloc` returned `b` and the address was stored in entry `k`. -/
def FsSt.allocAt (s : FsSt) (k : ℕ) (l : Fin (NDIRECT + 1)) (b : ℕ) : FsSt :=
  (s.alloc b).setSlot k { s.icache k with
    addrs := update (s.icache k).addrs l (UInt32.ofNat b) }

/-- Storing a new block in the inode is a `Grow` step, once its references are known. -/
theorem Core.grow_inode (h : Core sb H s V) (hk : Loaded s k i)
    (hb : firstFree s.disk = some b) {l : Fin (NDIRECT + 1)} (h0 : (V i).addrs l = 0) {pos : Pos}
    (hpos : ∀ j, pos ≠ .entry j) (hempty : refs s.disk sb V (i, pos) = none)
    (hrefs : refs (s.alloc b).disk sb (setAt V i l (UInt32.ofNat b))
      = update (refs (s.alloc b).disk sb V) (i, pos) (toRef (UInt32.ofNat b))) :
    Grow sb k i pos b s V (s.allocAt k l b) (setAt V i l (UInt32.ofNat b)) where
  empty := hempty
  first := hb
  refs_eq := by
    show refs (s.alloc b).disk sb _ = _
    rw [hrefs, h.alloc_refs hb, h.toRef_ofNat (h.free_lt hb) (h.free_data hb)]
  bits _ hx := h.alloc_bit hb hx
  zeroed := h.alloc_zero
  data _ hx hne _ := h.alloc_data hb hx hne
  super := h.alloc_super hb
  inodes _ hj := h.alloc_dinode hb hj
  table _ hj := setAt_of_ne hj l
  inode := by simp [setAt]
  addrs m hm := by
    have hml : m ≠ l := by
      rintro rfl
      exact hm h0
    rw [setAt_addrs, if_neg hml]
  cache := by
    have hi := h.inode_eq hk
    show update s.icache k _ = _
    rw [setAt, update_self, ← hi]
  ballocs := rfl
  logged x := by
    have hlog : (s.allocAt k l b).logged = b :: BBLOCK b sb.ninodes :: s.logged := by
      rw [← h.super]
      rfl
    rw [hlog]
    simp only [List.mem_cons, hpos, exists_false, false_and, or_false]
    tauto
  rest := ⟨rfl, rfl, rfl⟩

theorem Core.grow_direct (h : Core sb H s V) (hk : Loaded s k i)
    (hb : firstFree s.disk = some b) {m : Fin NDIRECT} (h0 : (V i).addrs m.castSucc = 0) :
    Grow sb k i (.direct m) b s V (s.allocAt k m.castSucc b)
      (setAt V i m.castSucc (UInt32.ofNat b)) := by
  refine h.grow_inode hk hb h0 (by simp) ?_ (refs_setDirect (h.inum_lt hk) (h.type_ne hk) m)
  rw [refs_of_alloc (h.inum_lt hk) (h.type_ne hk)]
  simp [Dinode.addrAt, h0, toRef]

theorem Core.grow_indirect (h : Core sb H s V) (hk : Loaded s k i)
    (hb : firstFree s.disk = some b) (h0 : (V i).addrs indirectSlot = 0) :
    Grow sb k i .indirect b s V (s.allocAt k indirectSlot b)
      (setAt V i indirectSlot (UInt32.ofNat b)) := by
  refine h.grow_inode hk hb h0 (by simp) ?_ (refs_setIndirect (h.inum_lt hk) (h.type_ne hk) h0 ?_)
  · rw [refs_of_alloc (h.inum_lt hk) (h.type_ne hk)]
    simp [Dinode.addrAt, h0, toRef]
  · intro j
    rw [h.toNat_ofNat (h.free_lt hb), entry, h.alloc_zero]
    simp

/-- The state after `balloc` returned `b` and the address was stored in entry `j` of the
indirect block `x`. -/
def FsSt.allocEntry (s : FsSt) (x j b : ℕ) : FsSt :=
  (s.alloc b).write x ((s.disk x).put32 (4 * j) (UInt32.ofNat b).toNat)

theorem Core.grow_entry (h : Core sb H s V) (hk : Loaded s k i) (hb : firstFree s.disk = some b)
    (hx : refs s.disk sb V (i, .indirect) = some x) {j : Fin NINDIRECT} (h0 : entry s.disk x j = 0) :
    Grow sb k i (.entry j) b s V (s.allocEntry x j b) V := by
  have hi := h.inum_lt hk
  have ht := h.type_ne hk
  have hxb : x ≠ b := by
    rintro rfl
    exact h.free_notMem hb (h.owns.mem_used hx)
  have hdx : (s.alloc b).disk x = s.disk x := h.alloc_data hb (h.ref_data hx) hxb
  obtain ⟨-, -, hne, hxi⟩ := refs_eq_some.mp hx
  simp only [Dinode.addrAt] at hne hxi
  have hdisk : (s.allocEntry x j b).disk = update (s.alloc b).disk x
      (((s.alloc b).disk x).put32 (4 * j) (UInt32.ofNat b).toNat) := by
    rw [hdx]
    rfl
  -- the block `x` lies in the data area, so only block `x` itself is affected
  have hx1 : x ≠ 1 := (one_lt_nmeta.trans_le (h.ref_data hx)).ne'
  have hxi' : ∀ {m}, m < sb.ninodes → IBLOCK m ≠ x := fun hm =>
    ((iblock_lt_nmeta hm).trans_le (h.ref_data hx)).ne
  have hxb' : ∀ {y}, y < sb.size → BBLOCK y sb.ninodes ≠ x := fun hy =>
    ((bblock_lt_nmeta hy).trans_le (h.ref_data hx)).ne
  refine ⟨?_, hb, ?_, ?_, ?_, ?_, ?_, ?_, fun _ _ => rfl, rfl, fun _ _ => rfl, ?_, rfl,
    ?_, ⟨rfl, rfl, rfl⟩⟩
  · rw [refs_of_alloc hi ht]
    simp [Dinode.addrAt, hne, hxi, h0, toRef]
  · rw [hdisk, refs_setEntry hi ht hne hxi, h.alloc_refs hb,
      h.toRef_ofNat (h.free_lt hb) (h.free_data hb)]
    intro m hm
    rw [h.alloc_refs hb] at hm
    exact (Prod.mk.inj (h.owns.inj hm hx)).1
  · intro y hy
    rw [hdisk, bit_update_block (hxb' hy), h.alloc_bit hb hy]
  · rw [hdisk, update_of_ne hxb.symm, h.alloc_zero]
  · intro y hy hne' hind
    have hyx : y ≠ x := by
      rintro rfl
      exact hind hx
    rw [hdisk, update_of_ne hyx, h.alloc_data hb hy hne']
  · rw [hdisk, superblock_update hx1, h.alloc_super hb]
  · intro m hm
    rw [hdisk, dinode_update_block (hxi' hm), h.alloc_dinode hb hm]
  · rw [← h.inode_eq hk]
    exact (update_eq_self k s.icache).symm
  · intro y
    have hlog : (s.allocEntry x j b).logged = x :: b :: BBLOCK b sb.ninodes :: s.logged := by
      rw [← h.super]
      rfl
    rw [hlog, hx]
    simp only [List.mem_cons, Pos.entry.injEq, exists_eq', true_and, Option.some.injEq]
    tauto

/-- `bmap` found or made block `bn` of inode `i`: nothing changed, or the block was
added, or the indirect block was added first. -/
inductive Mapped (sb : Superblock) (k i bn b : ℕ) (s : FsSt) (V : ℕ → Dinode) :
    FsSt → (ℕ → Dinode) → Prop
  | present (hb : blockOf (refs s.disk sb V) i bn = some b) : Mapped sb k i bn b s V s V
  | grow {pos : Pos} {s' : FsSt} {V' : ℕ → Dinode} (hpos : posOf bn = some pos)
      (hind : ∀ j, pos = .entry j → refs s.disk sb V (i, .indirect) ≠ none)
      (g : Grow sb k i pos b s V s' V') : Mapped sb k i bn b s V s' V'
  | grow₂ {j : Fin NINDIRECT} {x : ℕ} {s₁ s' : FsSt} {V₁ V' : ℕ → Dinode}
      (hpos : posOf bn = some (.entry j)) (g₁ : Grow sb k i .indirect x s V s₁ V₁)
      (g₂ : Grow sb k i (.entry j) b s₁ V₁ s' V') : Mapped sb k i bn b s V s' V'

/-- Why `bmap` stops: block `bn` of inode `i` is missing, and no block is free, or only one
and it needs an indirect block as well; or `bn` is out of range. -/
structure Unmapped (sb : Superblock) (k i bn : ℕ) (s : FsSt) (V : ℕ → Dinode) (e : Halt) :
    Prop where
  missing : blockOf (refs s.disk sb V) i bn = none
  full : bn < MAXFILE → e = .panic .outOfBlocks ∧ (firstFree s.disk = none ∨
    NDIRECT ≤ bn ∧ ∃ x s₁ V₁, Grow sb k i .indirect x s V s₁ V₁ ∧ firstFree s₁.disk = none)

/-- The part of `bmap` behind the indirect block `x`. -/
theorem Core.bmap_entry (h : Core sb H s V) (hk : Loaded s k i)
    (hx : refs s.disk sb V (i, .indirect) = some x) (j : Fin NINDIRECT) {Q : ℕ → FsSt → Prop}
    {E : Halt → FsSt → Prop} (hhit : ∀ b, refs s.disk sb V (i, .entry j) = some b → Q b s)
    (hmiss : ∀ b s', Grow sb k i (.entry j) b s V s' V → Q b s')
    (hfull : refs s.disk sb V (i, .entry j) = none → firstFree s.disk = none →
      E (.panic .outOfBlocks) (s.note .balloc)) :
    Wp (do
      let bp ← bread x
      let a := UInt32.ofNat (bp.get32 (4 * j))
      if a = 0 then
        let b ← balloc
        logWrite x (bp.put32 (4 * j) (UInt32.ofNat b).toNat)
        return b
      return a.toNat) Q E s := by
  obtain ⟨-, -, hne, hxi⟩ := refs_eq_some.mp hx
  simp only [Dinode.addrAt] at hne hxi
  have hent : refs s.disk sb V (i, .entry j) = toRef (entry s.disk x j) := by
    rw [refs_of_alloc (h.inum_lt hk) (h.type_ne hk)]
    simp only [Dinode.addrAt, if_neg hne, hxi]
  simp only [wp_bind, wp_bread, wp_ite]
  refine ⟨fun h0 => ?_, fun h0 => ?_⟩
  · rw [wp_balloc]
    refine ⟨fun b hb => hmiss b _ (h.grow_entry hk hb hx h0), hfull ?_⟩
    rw [hent, toRef]
    exact if_pos h0
  · have hne' : entry s.disk x j ≠ 0 := h0
    refine hhit _ ?_
    rw [hent, toRef, if_neg hne']
    rfl

theorem bmap_spec (h : Core sb H s V) (hk : Loaded s k i) (bn : ℕ) :
    Wp (bmap k bn) (fun b s' => ∃ V', Mapped sb k i bn b s V s' V')
      (fun e s' => Stops sb H e s' ∧ Unmapped sb k i bn s V e) s := by
  have hi := h.inum_lt hk
  have ht := h.type_ne hk
  have haddrs : (s.icache k).addrs = (V i).addrs := by rw [← h.inode_eq hk]
  have hstop : Stops sb H (.panic .outOfBlocks) (s.note .balloc) := h.stops (by simp)
  unfold bmap
  split_ifs with hdir hind
  · -- a direct block
    have hpos : posOf bn = some (.direct ⟨bn, hdir⟩) := by rw [posOf, dif_pos hdir]
    simp only [wp_bind, wp_slot, haddrs, wp_ite]
    refine ⟨fun h0 => ?_, fun h0 => ?_⟩
    · rw [wp_balloc]
      refine ⟨fun b hb => ⟨_, .grow hpos (by simp) (h.grow_direct hk hb h0)⟩, fun hn =>
        ⟨hstop, ?_, fun _ => ⟨rfl, Or.inl hn⟩⟩⟩
      rw [blockOf, hpos, Option.bind_some, refs_of_alloc hi ht]
      exact if_pos h0
    · refine ⟨V, .present (blockOf_eq_some.mpr ⟨_, hpos, ?_⟩)⟩
      exact refs_eq_some.mpr ⟨hi, ht, h0, rfl⟩
  · have hpos : posOf bn = some (.entry ⟨bn - NDIRECT, hind⟩) := by
      rw [posOf, dif_neg hdir, dif_pos hind]
    have hblock : blockOf (refs s.disk sb V) i bn = refs s.disk sb V (i, .entry ⟨bn - NDIRECT, hind⟩) := by
      rw [blockOf, hpos, Option.bind_some]
    simp only [wp_bind, wp_slot, haddrs, wp_ite]
    refine ⟨fun h0 => ?_, fun h0 => ?_⟩
    · -- the indirect block comes first
      have hmissing : blockOf (refs s.disk sb V) i bn = none := by
        rw [hblock, refs_of_alloc hi ht]
        simp [Dinode.addrAt, h0, toRef]
      rw [wp_balloc]
      refine ⟨fun x hx => ?_, fun hn => ⟨hstop, hmissing, fun _ => ⟨rfl, Or.inl hn⟩⟩⟩
      have g := h.grow_indirect hk hx h0
      refine (g.core h hk).bmap_entry (g.loaded hk) g.refs_pos ⟨bn - NDIRECT, hind⟩ ?_ ?_ ?_
      · intro b hb
        -- its entries are empty
        obtain ⟨-, -, hne, -⟩ := refs_eq_some.mp hb
        refine absurd ?_ hne
        have hz : (setAt V i indirectSlot (UInt32.ofNat x) i).addrs indirectSlot
            = UInt32.ofNat x := by rw [setAt_addrs, if_pos rfl]
        simp only [Dinode.addrAt, hz]
        split_ifs
        · rfl
        · rw [h.toNat_ofNat (h.free_lt hx), entry, g.zeroed]
          simp
      · exact fun b s' g₂ => ⟨_, .grow₂ hpos g g₂⟩
      · exact fun _ hn => ⟨(g.core h hk).stops (by simp), hmissing, fun _ =>
          ⟨rfl, Or.inr ⟨not_lt.mp hdir, x, _, _, g, hn⟩⟩⟩
    · have hx : refs s.disk sb V (i, .indirect) = some ((V i).addrs indirectSlot).toNat :=
        refs_eq_some.mpr ⟨hi, ht, h0, rfl⟩
      refine h.bmap_entry hk hx ⟨bn - NDIRECT, hind⟩ ?_ ?_ ?_
      · exact fun b hb => ⟨V, .present (blockOf_eq_some.mpr ⟨_, hpos, hb⟩)⟩
      · exact fun b s' g => ⟨V, .grow hpos (by simp [hx]) g⟩
      · exact fun hent hn => ⟨hstop, hblock.trans hent, fun _ => ⟨rfl, Or.inl hn⟩⟩
  · refine ⟨h.stops (by simp), ?_, fun hbn => absurd hbn ?_⟩
    · rw [blockOf, posOf, dif_neg hdir, dif_neg hind, Option.bind_none]
    · simp only [MAXFILE, NDIRECT, NINDIRECT, BSIZE] at *
      omega

end Bmap

/-! ### Changing the content of an inode -/

/-- From `s`, `V` to `s'`, `V'` inode `i` in cache entry `k` got the content `c` and
possibly new blocks; nothing else changed, and the inode on disk did not. -/
structure Updated (sb : Superblock) (H : List (Disk × ℕ)) (k i : ℕ) (s : FsSt)
    (V : ℕ → Dinode) (c : Bytes) (s' : FsSt) (V' : ℕ → Dinode) : Prop where
  core : Core sb H s' V'
  loaded : Loaded s' k i
  refs_mono : ∀ {p b}, refs s.disk sb V p = some b → refs s'.disk sb V' p = some b
  content_self : content s'.disk (refs s'.disk sb V') i = c
  content_of_ne : ∀ j ≠ i, content s'.disk (refs s'.disk sb V') j
    = content s.disk (refs s.disk sb V) j
  inodes : ∀ j < sb.ninodes, dinode s'.disk j = dinode s.disk j
  table : ∀ j ≠ i, V' j = V j
  inode : V' i = { V i with addrs := (V' i).addrs }
  addrs : ∀ l, (V i).addrs l ≠ 0 → (V' i).addrs l = (V i).addrs l
  cache : s'.icache = update s.icache k { s.icache k with toDinode := V' i }
  exact : Owns.Exact (refs s.disk sb V) (used s.disk sb) (reserved sb) →
    Owns.Exact (refs s'.disk sb V') (used s'.disk sb) (reserved sb)
  rest : s'.cwd = s.cwd ∧ s'.consoleRead = s.consoleRead ∧ s'.ops = s.ops

section Updated

variable {sb : Superblock} {H : List (Disk × ℕ)} {s s' s₁ : FsSt} {V V' V₁ : ℕ → Dinode}
  {k i b bn : ℕ} {c c₁ : Bytes} {pos : Pos}

theorem Updated.refl (h : Core sb H s V) (hk : Loaded s k i) :
    Updated sb H k i s V (content s.disk (refs s.disk sb V) i) s V where
  core := h
  loaded := hk
  refs_mono := id
  content_self := rfl
  content_of_ne _ _ := rfl
  inodes _ _ := rfl
  table _ _ := rfl
  inode := rfl
  addrs _ _ := rfl
  cache := by
    rw [← h.inode_eq hk]
    exact (update_eq_self k s.icache).symm
  exact := id
  rest := ⟨rfl, rfl, rfl⟩

theorem Updated.trans (u : Updated sb H k i s V c₁ s₁ V₁) (u' : Updated sb H k i s₁ V₁ c s' V') :
    Updated sb H k i s V c s' V' where
  core := u'.core
  loaded := u'.loaded
  refs_mono h := u'.refs_mono (u.refs_mono h)
  content_self := u'.content_self
  content_of_ne j hj := (u'.content_of_ne j hj).trans (u.content_of_ne j hj)
  inodes j hj := (u'.inodes j hj).trans (u.inodes j hj)
  table j hj := (u'.table j hj).trans (u.table j hj)
  inode := by rw [u'.inode, u.inode]
  addrs l hl := by
    have hl₁ := u.addrs l hl
    rw [u'.addrs l (by rw [hl₁]; exact hl), hl₁]
  cache := by
    rw [u'.cache, u.cache]
    simp
  exact h := u'.exact (u.exact h)
  rest := ⟨u'.rest.1.trans u.rest.1, u'.rest.2.1.trans u.rest.2.1,
    u'.rest.2.2.trans u.rest.2.2⟩

theorem Grow.updated (g : Grow sb k i pos b s V s' V') (h : Core sb H s V) (hk : Loaded s k i) :
    Updated sb H k i s V (Fs.content s.disk (refs s.disk sb V) i) s' V' where
  core := g.core h hk
  loaded := g.loaded hk
  refs_mono := g.refs_mono
  content_self := g.content h i
  content_of_ne j _ := g.content h j
  inodes := g.inodes
  table := g.table
  inode := g.inode
  addrs := g.addrs
  cache := g.cache
  exact := g.exact h
  rest := g.rest

/-- `bmap` changes no content. -/
theorem Mapped.updated (m : Mapped sb k i bn b s V s' V') (h : Core sb H s V)
    (hk : Loaded s k i) :
    Updated sb H k i s V (content s.disk (refs s.disk sb V) i) s' V' := by
  cases m with
  | present hb => exact Updated.refl h hk
  | grow hpos hind g => exact g.updated h hk
  | grow₂ hpos g₁ g₂ =>
      have u₁ := g₁.updated h hk
      have u₂ := g₂.updated u₁.core u₁.loaded
      rw [u₁.content_self] at u₂
      exact u₁.trans u₂

/-- The block `bmap` returns is the block of the file. -/
theorem Mapped.blockOf (m : Mapped sb k i bn b s V s' V') :
    blockOf (refs s'.disk sb V') i bn = some b := by
  cases m with
  | present hb => exact hb
  | grow hpos hind g => exact blockOf_eq_some.mpr ⟨_, hpos, g.refs_pos⟩
  | grow₂ hpos g₁ g₂ => exact blockOf_eq_some.mpr ⟨_, hpos, g₂.refs_pos⟩

/-- Nothing is allocated for a block that is there. -/
theorem Mapped.eq_of_present (m : Mapped sb k i bn b s V s' V')
    (hb : Fs.blockOf (refs s.disk sb V) i bn ≠ none) : s' = s ∧ V' = V := by
  obtain ⟨c, hc⟩ := Option.ne_none_iff_exists'.mp hb
  obtain ⟨p, hp, hpc⟩ := blockOf_eq_some.mp hc
  cases m with
  | present _ => exact ⟨rfl, rfl⟩
  | grow hpos hind g =>
      rw [hp] at hpos
      obtain rfl := Option.some.inj hpos
      rw [g.empty] at hpc
      cases hpc
  | grow₂ hpos g₁ g₂ =>
      rw [hp] at hpos
      obtain rfl := Option.some.inj hpos
      have := g₁.refs_mono hpc
      rw [g₂.empty] at this
      cases this

/-- Storing `a` in the block of file block `bn`. -/
theorem Core.store (h : Core sb H s V) (hk : Loaded s k i)
    (hb : blockOf (refs s.disk sb V) i bn = some b) (a : Bytes) :
    Updated sb H k i s V (fun x => if x / BSIZE = bn then a (x % BSIZE)
      else content s.disk (refs s.disk sb V) i x) (s.write b a) V := by
  obtain ⟨p, hp, hpb⟩ := blockOf_eq_some.mp hb
  have hdata := h.ref_data hpb
  have hrefs : refs (s.write b a).disk sb V = refs s.disk sb V := refs_store h.owns.inj hb a
  have hused : used (s.write b a).disk sb = used s.disk sb := by
    ext x
    refine and_congr_right fun hx => ?_
    rw [write_disk, bit_update_block ((bblock_lt_nmeta hx).trans_le hdata).ne]
  have hcontent := content_store (d := s.disk) h.owns.inj hb a
  refine ⟨⟨h.room, ?_, ?_, h.cache, h.handed⟩, ⟨hk.ref, hk.valid, hk.inum⟩, ?_, ?_, ?_, ?_,
    fun _ _ => rfl, rfl, fun _ _ => rfl, ?_, ?_, ⟨rfl, rfl, rfl⟩⟩
  · rw [write_disk, superblock_update (one_lt_nmeta.trans_le hdata).ne', h.super]
  · rw [hrefs, hused]
    exact h.owns
  · rw [hrefs]
    exact id
  · funext x
    rw [hrefs, write_disk, hcontent]
    simp
  · intro j hj
    funext x
    rw [hrefs, write_disk, hcontent, if_neg fun hji => hj hji.1]
  · intro j hj
    rw [write_disk, dinode_update_block ((iblock_lt_nmeta hj).trans_le hdata).ne]
  · rw [← h.inode_eq hk]
    exact (update_eq_self k s.icache).symm
  · rw [hrefs, hused]
    exact id

end Updated

end Nunix.Fs
