/-
Nunix/Umalloc/FreeList.lean

The free list and what `free` does to it.

`FreeList base top m l` says that the headers in `m` form a ring of the blocks `l`: the
first is `base`, of size zero, the others are in increasing order, each ends strictly
before the next one starts, and all end below `top`.  `free` looks for the last block `x`
below the one that comes back; since `base` is below everything, the test of its loop
holds at `x` and nowhere else (`stops_iff`), from wherever the search starts.  The two
joins then replace `x` and the block after it as `insert` says on lists.
-/
import Nunix.Links
import Nunix.Umalloc.Model

namespace Nunix.Umalloc

open Bytes Links

/-! ### Blocks -/

/-- A block of `size` headers at `addr`, its own header first. -/
structure Block where
  addr : ℕ
  size : ℕ
deriving DecidableEq

/-- Where the block ends. -/
def Block.stop (b : Block) : ℕ := b.addr + 8 * b.size

/-- The blocks do not overlap. -/
def Apart (b c : Block) : Prop := b.stop ≤ c.addr ∨ c.stop ≤ b.addr

instance (b c : Block) : Decidable (Apart b c) := inferInstanceAs (Decidable (_ ∨ _))

variable {x c : Block}

theorem Apart.symm {b : Block} (h : Apart b c) : Apart c b := Or.symm h

instance : Std.Symm Apart := ⟨fun _ _ => Apart.symm⟩

/-- The header of a block is outside every block apart from it. -/
theorem Apart.header {b : Block} (h : Apart b c) (hb : 0 < b.size) {i : ℕ} (hle : c.addr ≤ i)
    (hlt : i < c.stop) : i < b.addr ∨ b.addr + 8 ≤ i := by
  simp only [Apart, Block.stop] at *
  omega

/-- `b` ends before `c` starts, and does not touch it. -/
def Before (b c : Block) : Prop := b.stop < c.addr ∧ b.addr + 8 ≤ c.addr

theorem Before.apart {b : Block} (h : Before b c) : Apart b c := Or.inl h.1.le

/-- The headers in a list of blocks. -/
def units (l : List Block) : ℕ := (l.map Block.size).sum

@[simp] theorem units_nil : units [] = 0 := rfl

@[simp] theorem units_cons (b : Block) (l : List Block) : units (b :: l) = b.size + units l := by
  simp [units]

@[simp] theorem units_append (l₁ l₂ : List Block) :
    units (l₁ ++ l₂) = units l₁ + units l₂ := by
  simp [units]

/-! ### Headers -/

/-- `m'` differs from `m` in the header at `p` only. -/
def Frame (p : ℕ) (m m' : Bytes) : Prop := ∀ i, i < p ∨ p + 8 ≤ i → m' i = m i

theorem Frame.trans {p : ℕ} {m₁ m₂ m₃ : Bytes} (h₁ : Frame p m₁ m₂) (h₂ : Frame p m₂ m₃) :
    Frame p m₁ m₃ := fun i hi => (h₂ i hi).trans (h₁ i hi)

theorem frame_setPtr (m : Bytes) (p v : ℕ) : Frame p m (setPtr m p v) := by
  rintro i (h | h)
  · exact put32_apply_of_lt h
  · exact put32_apply_of_ge (by omega)

theorem frame_setSize (m : Bytes) (p v : ℕ) : Frame p m (setSize m p v) := by
  rintro i (h | h)
  · exact put32_apply_of_lt (by omega)
  · exact put32_apply_of_ge (by omega)

theorem ptr_congr {m m' : Bytes} {p : ℕ} (h : ∀ i, p ≤ i → i < p + 8 → m' i = m i) :
    ptr m' p = ptr m p :=
  get32_congr fun k hk => h (p + k) (by omega) (by omega)

theorem size_congr {m m' : Bytes} {p : ℕ} (h : ∀ i, p ≤ i → i < p + 8 → m' i = m i) :
    size m' p = size m p :=
  get32_congr fun k hk => h (p + 4 + k) (by omega) (by omega)

section Frame

variable {p q : ℕ} {m m' : Bytes}

theorem Frame.ptr (h : Frame p m m') (hq : q + 8 ≤ p ∨ p + 8 ≤ q) :
    ptr m' q = Umalloc.ptr m q :=
  ptr_congr fun i _ _ => h i (by omega)

theorem Frame.size (h : Frame p m m') (hq : q + 8 ≤ p ∨ p + 8 ≤ q) :
    size m' q = Umalloc.size m q :=
  size_congr fun i _ _ => h i (by omega)

end Frame

theorem ptr_lt (m : Bytes) (p : ℕ) : ptr m p < 2 ^ 32 := get32_lt m p

@[simp] theorem ptr_setPtr (m : Bytes) (p v : ℕ) : ptr (setPtr m p v) p = v % 2 ^ 32 :=
  get32_put32_self m p v

@[simp] theorem size_setSize (m : Bytes) (p v : ℕ) : size (setSize m p v) p = v % 2 ^ 32 :=
  get32_put32_self m (p + 4) v

@[simp] theorem size_setPtr (m : Bytes) (p v : ℕ) : size (setPtr m p v) p = size m p :=
  get32_put32_of_disjoint (Or.inr le_rfl)

@[simp] theorem ptr_setSize (m : Bytes) (p v : ℕ) : ptr (setSize m p v) p = ptr m p :=
  get32_put32_of_disjoint (Or.inl le_rfl)

/-! ### The free list -/

/-- The headers in `m` form the ring of the blocks `l`, which starts at `base`. -/
structure FreeList (base top : ℕ) (m : Bytes) (l : List Block) : Prop where
  base_pos : 0 < base
  head : ∃ l', l = ⟨base, 0⟩ :: l'
  linked : Linked Block.addr (ptr m) l base
  size_eq : ∀ b ∈ l, size m b.addr = b.size
  order : l.Pairwise Before
  pos : ∀ b ∈ l, b = ⟨base, 0⟩ ∨ 0 < b.size
  le_top : ∀ b ∈ l, b.addr + 8 ≤ top ∧ b.stop ≤ top
  top_lt : top < 2 ^ 32

/-- The block that comes back: it is nowhere in the list, and its header has its size. -/
structure Returned (base top : ℕ) (m : Bytes) (l : List Block) (b : Block) : Prop where
  size_eq : size m b.addr = b.size
  pos : 0 < b.size
  base_le : base + 8 ≤ b.addr
  le_top : b.stop ≤ top
  apart : ∀ c ∈ l, Apart b c

/-- `x` is the last block of `A ++ x :: C` below `b`. -/
structure Place (A : List Block) (x : Block) (C : List Block) (b : Block) : Prop where
  below : ∀ c ∈ A, c.addr < x.addr
  stop_le : x.stop ≤ b.addr
  room : x.addr + 8 ≤ b.addr
  above : ∀ c ∈ C, b.stop ≤ c.addr

variable {C A : List Block}

/-- Every block that does not overlap the list has its place in it. -/
theorem exists_place {b : Block} (horder : (A ++ x :: C).Pairwise Before)
    (hx : x.stop ≤ b.addr ∧ x.addr + 8 ≤ b.addr)
    (hC : ∀ c ∈ C, Apart b c ∧ (c.stop ≤ b.addr → c.addr + 8 ≤ b.addr)) :
    ∃ A' x' C', A ++ x :: C = A' ++ x' :: C' ∧ Place A' x' C' b := by
  induction C generalizing A x with
  | nil =>
      refine ⟨A, x, [], rfl, ?_, hx.1, hx.2, by simp⟩
      intro c hc
      have := (List.pairwise_append.mp horder).2.2 c hc x (by simp)
      have := this.2
      omega
  | cons c C ih =>
      have hc := hC c List.mem_cons_self
      rcases hc.1 with hbc | hcb
      · -- `c` is above `b`, and so is what follows it
        refine ⟨A, x, c :: C, rfl, ?_, hx.1, hx.2, ?_⟩
        · intro d hd
          have := ((List.pairwise_append.mp horder).2.2 d hd x (by simp)).2
          omega
        · intro d hd
          rcases List.mem_cons.mp hd with rfl | hd
          · exact hbc
          · have h2 := (List.pairwise_append.mp horder).2.1
            have := ((List.pairwise_cons.mp (List.pairwise_cons.mp h2).2).1 d hd).2
            omega
      · -- `c` is below `b`: go on from there
        have e : A ++ x :: c :: C = (A ++ [x]) ++ c :: C := by simp
        rw [e] at horder ⊢
        exact ih horder ⟨hcb, hc.2 hcb⟩ fun d hd => hC d (List.mem_cons_of_mem c hd)

section Free

variable {base top : ℕ} {m : Bytes} {l : List Block} {b : Block}

theorem FreeList.base_le (h : FreeList base top m l) : ∀ c ∈ l, base ≤ c.addr := by
  obtain ⟨l', rfl⟩ := h.head
  intro c hc
  rcases List.mem_cons.mp hc with rfl | hc
  · exact le_rfl
  · have := ((List.pairwise_cons.mp h.order).1 c hc).2
    simp only at this
    omega

theorem FreeList.place (h : FreeList base top m l) (hb : Returned base top m l b) :
    ∃ A x C, l = A ++ x :: C ∧ Place A x C b := by
  obtain ⟨l', rfl⟩ := h.head
  have hbase : (⟨base, 0⟩ : Block).stop ≤ b.addr := by
    have := hb.base_le
    simp only [Block.stop]
    omega
  refine exists_place (A := []) h.order ⟨hbase, hb.base_le⟩ fun c hc => ?_
  refine ⟨hb.apart c (List.mem_cons_of_mem _ hc), fun hle => ?_⟩
  rcases h.pos c (List.mem_cons_of_mem _ hc) with rfl | hpos
  · exact hb.base_le
  · simp only [Block.stop] at hle
    omega

/-- Replace a block of the list, and drop blocks after it. -/
theorem FreeList.replace {M C' : List Block} {y : Block} {m' : Bytes}
    (h : FreeList base top m (A ++ x :: C)) (hC : C' <:+ C)
    (hkeep : ∀ d ∈ A ++ C', ptr m' d.addr = ptr m d.addr ∧ size m' d.addr = size m d.addr)
    (hfirst : y.addr = x.addr) (hhead : A = [] → y = ⟨base, 0⟩)
    (hlinked : Linked Block.addr (ptr m') (y :: M) (entry Block.addr C' base))
    (hM : ∀ d ∈ y :: M, size m' d.addr = d.size ∧ d.addr + 8 ≤ top ∧ d.stop ≤ top)
    (hpos : ∀ d ∈ y :: M, d = ⟨base, 0⟩ ∨ 0 < d.size) (horder : (y :: M ++ C').Pairwise Before)
    (hA : ∀ a ∈ A, ∀ d ∈ y :: M, Before a d) : FreeList base top m' (A ++ y :: M ++ C') := by
  have hsub : ∀ d ∈ A ++ C', d ∈ A ++ x :: C := by
    intro d hd
    rcases List.mem_append.mp hd with hd | hd
    · simp [hd]
    · simp [hC.subset hd]
  have hmem : ∀ d ∈ A ++ y :: M ++ C', d ∈ A ++ C' ∨ d ∈ y :: M := by
    intro d hd
    simp only [List.mem_append] at hd ⊢
    tauto
  obtain ⟨hlA, hlC⟩ := (linked_append _ _ A (x :: C) base).mp h.linked
  obtain ⟨hoA, -, hoAC⟩ := List.pairwise_append.mp h.order
  refine ⟨h.base_pos, ?_, ?_, ?_, ?_, ?_, ?_, h.top_lt⟩
  · rcases A with - | ⟨a, A⟩
    · exact ⟨M ++ C', by rw [hhead rfl]; rfl⟩
    · obtain ⟨l', hl'⟩ := h.head
      obtain ⟨rfl, -⟩ := List.cons.inj hl'
      exact ⟨A ++ y :: M ++ C', rfl⟩
  · rw [List.append_assoc, linked_append, linked_append]
    refine ⟨?_, hlinked, ?_⟩
    · rw [List.cons_append, entry_cons, hfirst]
      exact hlA.congr fun d hd => (hkeep d (by simp [hd])).1
    · obtain ⟨D, rfl⟩ := hC
      have hlC' := ((linked_append _ _ D C' base).mp hlC.2).2
      exact hlC'.congr fun d hd => (hkeep d (by simp [hd])).1
  · intro d hd
    rcases hmem d hd with hd | hd
    · rw [(hkeep d hd).2, h.size_eq d (hsub d hd)]
    · exact (hM d hd).1
  · rw [List.append_assoc]
    refine List.pairwise_append.mpr ⟨hoA, horder, fun a ha d hd => ?_⟩
    rcases List.mem_append.mp hd with hd | hd
    · exact hA a ha d hd
    · exact hoAC a ha d (List.mem_cons_of_mem x (hC.subset hd))
  · intro d hd
    rcases hmem d hd with hd | hd
    · exact h.pos d (hsub d hd)
    · exact hpos d hd
  · intro d hd
    rcases hmem d hd with hd | hd
    · exact h.le_top d (hsub d hd)
    · exact (hM d hd).2

/-! ### The search -/

/-- The test that ends the search of `free`. -/
def Stops (m : Bytes) (bp p : ℕ) : Prop :=
  (bp > p ∧ bp < ptr m p) ∨ (p ≥ ptr m p ∧ (bp > p ∨ bp < ptr m p))

instance (m : Bytes) (bp : ℕ) : DecidablePred (Stops m bp) :=
  fun _ => inferInstanceAs (Decidable (_ ∨ _))

theorem freeLoop_eq (m : Bytes) (bp fuel p : ℕ) :
    freeLoop m bp fuel p = walkTo (ptr m) (Stops m bp) fuel p := by
  induction fuel generalizing p with
  | zero => rfl
  | succ fuel ih =>
      have hs : Stops m bp p ↔ (bp > p ∧ bp < ptr m p) ∨
          (p ≥ ptr m p ∧ (bp > p ∨ bp < ptr m p)) := Iff.rfl
      rw [freeLoop, walkTo, ih]
      split
      · rw [if_pos (hs.mpr (Or.inl ‹_›))]
      · split
        · rw [if_pos (hs.mpr (Or.inr ‹_›))]
        · rw [if_neg fun h => by rcases hs.mp h with h | h <;> contradiction]

/-- The test holds at the last block below `bp` and at no other. -/
theorem FreeList.stops_iff {y : Block} (h : FreeList base top m (A ++ x :: C)) (hp : Place A x C b)
    (hpos : 0 < b.size) (hy : y ∈ A ++ x :: C) : Stops m b.addr y.addr ↔ y = x := by
  have hbase := h.base_le
  have hstop : b.stop = b.addr + 8 * b.size := rfl
  constructor
  · intro hs
    by_contra hne
    rcases List.mem_append.mp hy with hA | hC
    · -- below `x` the next block is still not above `bp`
      obtain ⟨A₁, A₂, rfl⟩ := List.append_of_mem hA
      have hnext : ptr m y.addr = entry Block.addr (A₂ ++ x :: C) base := by
        have hl : Linked Block.addr (ptr m) (A₁ ++ y :: (A₂ ++ x :: C)) base := by
          simpa using h.linked
        exact hl.next_eq
      have ho := h.order
      simp only [List.append_assoc, List.cons_append] at ho
      have hyz : ∀ z ∈ A₂ ++ x :: C, y.addr < z.addr := by
        intro z hz
        have := ((List.pairwise_cons.mp (List.pairwise_append.mp ho).2.1).1 z hz).2
        omega
      have hz : entry Block.addr (A₂ ++ x :: C) base ≤ x.addr ∧
          y.addr < entry Block.addr (A₂ ++ x :: C) base := by
        rcases A₂ with - | ⟨z, A₂⟩
        · exact ⟨le_rfl, hyz x (by simp)⟩
        · exact ⟨(hp.below z (by simp)).le, hyz z (by simp)⟩
      have := hp.room
      unfold Stops at hs
      rw [hnext] at hs
      omega
    · -- above `bp` the next block is higher still, or it is `base`
      have hC : y ∈ C := by
        rcases List.mem_cons.mp hC with rfl | hC
        · exact absurd rfl hne
        · exact hC
      have hyb := hp.above y hC
      obtain ⟨C₁, C₂, rfl⟩ := List.append_of_mem hC
      have hnext : ptr m y.addr = entry Block.addr C₂ base := by
        have hl : Linked Block.addr (ptr m) (A ++ x :: C₁ ++ y :: C₂) base := by
          simpa using h.linked
        exact hl.next_eq
      have hz : y.addr < entry Block.addr C₂ base ∨ entry Block.addr C₂ base = base := by
        rcases C₂ with - | ⟨z, C₂⟩
        · exact Or.inr rfl
        · left
          have ho := h.order
          rw [show A ++ x :: (C₁ ++ y :: z :: C₂) = (A ++ x :: C₁) ++ y :: z :: C₂ by simp] at ho
          have := ((List.pairwise_cons.mp (List.pairwise_append.mp ho).2.1).1 z (by simp)).2
          simp only [entry_cons]
          omega
      have hxb := hbase x (by simp)
      have := hp.room
      unfold Stops at hs
      rw [hnext] at hs
      omega
  · rintro rfl
    have hnext : ptr m y.addr = entry Block.addr C base := h.linked.next_eq
    have := hp.room
    unfold Stops
    rw [hnext]
    rcases C with - | ⟨c, C⟩
    · have := hbase y (by simp)
      simp only [entry_nil]
      omega
    · have := hp.above c (by simp)
      simp only [entry_cons]
      omega

/-- The ring as seen from one of its blocks. -/
theorem FreeList.enter {y : Block} (h : FreeList base top m l) (hy : y ∈ l) :
    ∃ L, Linked Block.addr (ptr m) (y :: L) y.addr ∧ (y :: L).Perm l := by
  obtain ⟨l', rfl⟩ := h.head
  rcases List.mem_cons.mp hy with rfl | hy
  · exact ⟨l', h.linked, List.Perm.refl _⟩
  · obtain ⟨B, D, rfl⟩ := List.append_of_mem hy
    have hperm : (y :: D ++ ⟨base, 0⟩ :: B).Perm (⟨base, 0⟩ :: B ++ y :: D) :=
      List.perm_append_comm
    exact ⟨D ++ ⟨base, 0⟩ :: B, Linked.rotate h.linked, hperm⟩

/-- **The search of `free` comes back with the last block below `bp`**, wherever it
starts. -/
theorem FreeList.freeLoop {freep fuel : ℕ} (h : FreeList base top m (A ++ x :: C))
    (hp : Place A x C b) (hpos : 0 < b.size) (hfreep : freep ∈ (A ++ x :: C).map Block.addr)
    (hfuel : (A ++ x :: C).length ≤ fuel) : freeLoop m b.addr fuel freep = some x.addr := by
  obtain ⟨y, hy, rfl⟩ := List.mem_map.mp hfreep
  obtain ⟨L, hL, hperm⟩ := h.enter hy
  have hx : x ∈ A ++ x :: C := by simp
  have hex : ∃ z ∈ y :: L, Stops m b.addr z.addr :=
    ⟨x, hperm.mem_iff.mpr hx, (h.stops_iff hp hpos hx).mpr rfl⟩
  obtain ⟨z, hz, hs, hw⟩ := hL.walk (n := fuel) hex (hperm.length_eq.trans_le hfuel)
  rw [freeLoop_eq]
  rw [(h.stops_iff hp hpos (hperm.mem_iff.mp hz)).mp hs] at hw
  exact hw

/-! ### The joins, on lists -/

/-- `b` swallows the first block of the list if that starts where `b` ends. -/
def joinUp (b : Block) : List Block → Block × List Block
  | [] => (b, [])
  | c :: C => if b.stop = c.addr then (⟨b.addr, b.size + c.size⟩, C) else (b, c :: C)

/-- `x` swallows `b` if `b` starts where `x` ends. -/
def joinDown (A : List Block) (x b : Block) (C : List Block) : List Block :=
  if x.stop = b.addr then A ++ ⟨x.addr, x.size + b.size⟩ :: C else A ++ x :: b :: C

/-- What `free` makes of the list `A ++ x :: C` when `b` comes back after `x`. -/
def insert (A : List Block) (x : Block) (C : List Block) (b : Block) : List Block :=
  joinDown A x (joinUp b C).1 (joinUp b C).2

/-- Two blocks that touch make one that overlaps nothing new. -/
theorem Apart.join {b e : Block} (hbc : b.stop = c.addr) (he : 0 < e.size) (h₁ : Apart b e)
    (h₂ : Apart c e) : Apart ⟨b.addr, b.size + c.size⟩ e := by
  simp only [Apart, Block.stop] at *
  omega

/-- What is left above after the join with the next block. -/
structure JoinedUp (b : Block) (C : List Block) (b' : Block) (C' : List Block) : Prop where
  addr_eq : b'.addr = b.addr
  size_le : b.size ≤ b'.size
  units_eq : b'.size + units C' = b.size + units C
  suffix : C' <:+ C
  order : (b' :: C').Pairwise Before
  stop_le : b'.stop = b.stop ∨ ∃ c ∈ C, b'.stop = c.stop
  apart : ∀ e : Block, 0 < e.size → (∀ d ∈ b :: C, Apart d e) → Apart b' e

theorem joinedUp (hpos : 0 < b.size) (horder : C.Pairwise Before)
    (habove : ∀ c ∈ C, b.stop ≤ c.addr) : JoinedUp b C (joinUp b C).1 (joinUp b C).2 := by
  rcases C with - | ⟨c, C⟩
  · exact ⟨rfl, le_rfl, rfl, List.suffix_rfl, by simp [joinUp], Or.inl rfl,
      fun e _ h => h b List.mem_cons_self⟩
  · obtain ⟨hc, hC⟩ := List.pairwise_cons.mp horder
    by_cases hbc : b.stop = c.addr
    · -- the next block becomes part of `b`
      have hstop : (⟨b.addr, b.size + c.size⟩ : Block).stop = c.stop := by
        simp only [Block.stop] at *
        omega
      simp only [joinUp, if_pos hbc]
      refine ⟨rfl, Nat.le_add_right _ _, ?_, List.suffix_cons c C, ?_,
        Or.inr ⟨c, List.mem_cons_self, hstop⟩, ?_⟩
      · simp only [units_cons]
        omega
      · refine List.pairwise_cons.mpr ⟨fun d hd => ?_, hC⟩
        have := hc d hd
        have hb : b.stop = b.addr + 8 * b.size := rfl
        exact ⟨hstop ▸ this.1, by simp only; have := this.2; omega⟩
      · exact fun e he h => (h b (by simp)).join hbc he (h c (by simp))
    · simp only [joinUp, if_neg hbc]
      refine ⟨rfl, le_rfl, rfl, List.suffix_rfl, ?_, Or.inl rfl,
        fun e _ h => h b List.mem_cons_self⟩
      refine List.pairwise_cons.mpr ⟨fun d hd => ?_, horder⟩
      have hlt : b.stop < d.addr := by
        have h₁ := habove c List.mem_cons_self
        rcases List.mem_cons.mp hd with rfl | hd
        · omega
        · have := (hc d hd).2
          omega
      have hb : b.stop = b.addr + 8 * b.size := rfl
      exact ⟨hlt, by omega⟩

/-- The blocks start at `lo` or above; `base` has no room and does not count. -/
def Above (lo : ℕ) (l : List Block) : Prop := ∀ b ∈ l, 0 < b.size → lo ≤ b.addr

/-- What becomes of the list when `b` comes back. -/
structure Inserted (l : List Block) (b : Block) (l' : List Block) : Prop where
  above : ∀ {lo}, Above lo (b :: l) → Above lo l'
  units_eq : units l' = units l + b.size
  holds : ∃ d ∈ l', b.size ≤ d.size
  apart : ∀ e : Block, 0 < e.size → (∀ d ∈ b :: l, Apart d e) → ∀ d ∈ l', Apart d e

theorem inserted (horder : (A ++ x :: C).Pairwise Before) (hp : Place A x C b) (hpos : 0 < b.size) :
    Inserted (A ++ x :: C) b (insert A x C b) := by
  have hC := (List.pairwise_cons.mp (List.pairwise_append.mp horder).2.1).2
  have hj := joinedUp hpos hC hp.above
  unfold insert
  generalize (joinUp b C).1 = b' at *
  generalize (joinUp b C).2 = C' at *
  have hu := hj.units_eq
  have hapart : ∀ e : Block, 0 < e.size → (∀ d ∈ b :: (A ++ x :: C), Apart d e) →
      (∀ d ∈ A, Apart d e) ∧ Apart x e ∧ Apart b' e ∧ ∀ d ∈ C', Apart d e := by
    intro e he h
    refine ⟨fun d hd => h d (by simp [hd]), h x (by simp), hj.apart e he fun d hd => ?_,
      fun d hd => h d (by simp [hj.suffix.subset hd])⟩
    rcases List.mem_cons.mp hd with rfl | hd
    · exact h d List.mem_cons_self
    · exact h d (by simp [hd])
  have hmem : ∀ d ∈ A ++ x :: C', d ∈ b :: (A ++ x :: C) := by
    intro d hd
    simp only [List.mem_cons, List.mem_append] at hd ⊢
    rcases hd with hd | hd | hd
    · exact Or.inr (Or.inl hd)
    · exact Or.inr (Or.inr (Or.inl hd))
    · exact Or.inr (Or.inr (Or.inr (hj.suffix.subset hd)))
  unfold joinDown
  split
  case isTrue hx =>
    refine ⟨?_, ?_, ⟨⟨x.addr, x.size + b'.size⟩, by simp, ?_⟩, ?_⟩
    · intro lo h d hd hd'
      rcases List.mem_append.mp hd with hdA | hdC
      · exact h d (hmem d (by simp [hdA])) hd'
      rcases List.mem_cons.mp hdC with rfl | hdC
      · -- `base` touches nothing
        refine h x (by simp) ?_
        have := hp.room
        rw [hj.addr_eq, Block.stop] at hx
        omega
      · exact h d (hmem d (by simp [hdC])) hd'
    · simp only [units_append, units_cons]
      omega
    · have := hj.size_le
      simp only
      omega
    · intro e he h d hd
      obtain ⟨h₁, h₂, h₃, h₄⟩ := hapart e he h
      rcases List.mem_append.mp hd with hd | hd
      · exact h₁ d hd
      · rcases List.mem_cons.mp hd with rfl | hd
        · exact h₂.join hx he h₃
        · exact h₄ d hd
  case isFalse =>
    refine ⟨?_, ?_, ⟨b', by simp, hj.size_le⟩, ?_⟩
    · intro lo h d hd hd'
      by_cases hdb : d = b'
      · rw [hdb, hj.addr_eq]
        exact h b List.mem_cons_self hpos
      · refine h d (hmem d ?_) hd'
        simp only [List.mem_append, List.mem_cons] at hd ⊢
        tauto
    · simp only [units_append, units_cons]
      omega
    · intro e he h d hd
      obtain ⟨h₁, h₂, h₃, h₄⟩ := hapart e he h
      simp only [List.mem_append, List.mem_cons] at hd
      rcases hd with hd | rfl | rfl | hd
      · exact h₁ d hd
      · exact h₂
      · exact h₃
      · exact h₄ d hd

/-! ### The joins, in memory -/

theorem plus_eq_stop (hb : b.stop < 2 ^ 32) : plus b.addr b.size = b.stop :=
  Nat.mod_eq_of_lt hb

theorem joinUp_of_ne (h : b.stop ≠ entry Block.addr C base) : joinUp b C = (b, C) := by
  rcases C with - | ⟨c, C⟩
  · rfl
  · exact if_neg h

/-- The block after the second one of a part of the list. -/
theorem FreeList.next {y : Block} (h : FreeList base top m (A ++ x :: y :: C)) :
    ptr m y.addr = entry Block.addr C base := by
  have hl : Linked Block.addr (ptr m) (A ++ [x] ++ y :: C) base := by
    simpa using h.linked
  exact hl.next_eq

/-- The first join of `free`. -/
theorem FreeList.joinNext (h : FreeList base top m (A ++ x :: C))
    (hb : Returned base top m (A ++ x :: C) b) (hp : Place A x C b) :
    Frame b.addr m (joinNext m b.addr x.addr) ∧
      ptr (Umalloc.joinNext m b.addr x.addr) b.addr = entry Block.addr (joinUp b C).2 base ∧
      size (Umalloc.joinNext m b.addr x.addr) b.addr = (joinUp b C).1.size := by
  have hnext : ptr m x.addr = entry Block.addr C base := h.linked.next_eq
  have hlt : entry Block.addr C base < 2 ^ 32 := hnext ▸ ptr_lt m x.addr
  have hplus : plus b.addr b.size = b.stop := plus_eq_stop (hb.le_top.trans_lt h.top_lt)
  have hbpos := hb.pos
  have hbase := h.base_pos
  have hbb : b.stop = b.addr + 8 * b.size := rfl
  have hle := hb.base_le
  by_cases hbc : b.stop = entry Block.addr C base
  · -- the block after `x` starts where `b` ends
    rcases C with - | ⟨c, C⟩
    · rw [entry_nil] at hbc
      omega
    rw [entry_cons] at hnext hbc
    have hcmem : c ∈ A ++ x :: c :: C := by simp
    have hf := frame_setSize m b.addr (b.size + c.size)
    have hxm : ptr (setSize m b.addr (b.size + c.size)) x.addr = c.addr := by
      rw [hf.ptr (Or.inl hp.room), hnext]
    have hcm : ptr (setSize m b.addr (b.size + c.size)) c.addr = entry Block.addr C base := by
      rw [hf.ptr (Or.inr (by omega)), h.next]
    have hlt' : entry Block.addr C base < 2 ^ 32 := hcm ▸ ptr_lt _ c.addr
    have hsize : b.size + c.size < 2 ^ 32 := by
      have : c.stop = c.addr + 8 * c.size := rfl
      have := (h.le_top c hcmem).2
      have := h.top_lt
      omega
    simp only [Umalloc.joinNext, hplus, hnext, if_pos hbc, hb.size_eq, h.size_eq c hcmem, joinUp,
      hxm, hcm]
    refine ⟨hf.trans (frame_setPtr _ _ _), ?_, ?_⟩
    · rw [ptr_setPtr, Nat.mod_eq_of_lt hlt']
    · rw [size_setPtr, size_setSize, Nat.mod_eq_of_lt hsize]
  · rw [joinUp_of_ne hbc, Umalloc.joinNext, if_neg (by rwa [hb.size_eq, hplus, hnext])]
    refine ⟨frame_setPtr m b.addr (ptr m x.addr), ?_, ?_⟩
    · rw [ptr_setPtr, hnext, Nat.mod_eq_of_lt hlt]
    · rw [size_setPtr, hb.size_eq]

/-- The second join of `free`, once the first has made `b'` of the block that came back. -/
theorem FreeList.joinPrev {C' : List Block} {b' : Block} {m₁ : Bytes}
    (h : FreeList base top m (A ++ x :: C)) (hb : Returned base top m (A ++ x :: C) b)
    (hp : Place A x C b) (hj : JoinedUp b C b' C') (hf : Frame b.addr m m₁)
    (hptr : ptr m₁ b.addr = entry Block.addr C' base) (hsize : size m₁ b.addr = b'.size) :
    Frame x.addr m₁ (joinPrev m₁ b.addr x.addr) ∧
      FreeList base top (Umalloc.joinPrev m₁ b.addr x.addr) (joinDown A x b' C') := by
  have hbb : b.stop = b.addr + 8 * b.size := rfl
  have hbpos := hb.pos
  have hroom := hp.room
  have hxmem : x ∈ A ++ x :: C := by simp
  have hle := h.base_le x hxmem
  have hbase := h.base_pos
  have hA := (List.pairwise_append.mp h.order).2.2
  have hxsize : size m₁ x.addr = x.size := by
    rw [hf.size (Or.inl hroom), h.size_eq x hxmem]
  have hlt : b.addr < 2 ^ 32 := by
    have := hb.le_top.trans_lt h.top_lt
    omega
  have hplus : plus x.addr x.size = x.stop :=
    plus_eq_stop ((h.le_top x hxmem).2.trans_lt h.top_lt)
  have hCb : ∀ c ∈ C', b.stop ≤ c.addr := fun c hc => hp.above c (hj.suffix.subset hc)
  have hb't : b'.stop ≤ top := by
    rcases hj.stop_le with he | ⟨c, hc, he⟩
    · exact he ▸ hb.le_top
    · exact he ▸ (h.le_top c (by simp [hc])).2
  have hb'b : b'.stop = b.addr + 8 * b'.size := by rw [← hj.addr_eq]; rfl
  have hb'C := (List.pairwise_cons.mp hj.order).1
  have hptrlt : entry Block.addr C' base < 2 ^ 32 := hptr ▸ ptr_lt m₁ b.addr
  -- the headers of the other blocks are as they were
  have hkeep : ∀ m₂, Frame x.addr m₁ m₂ → ∀ d ∈ A ++ C',
      ptr m₂ d.addr = ptr m d.addr ∧ size m₂ d.addr = size m d.addr := by
    intro m₂ hf₂ d hd
    rcases List.mem_append.mp hd with hd | hd
    · have := (hA d hd x (by simp)).2
      exact ⟨by rw [hf₂.ptr (by omega), hf.ptr (by omega)],
        by rw [hf₂.size (by omega), hf.size (by omega)]⟩
    · have := hCb d hd
      exact ⟨by rw [hf₂.ptr (by omega), hf.ptr (by omega)],
        by rw [hf₂.size (by omega), hf.size (by omega)]⟩
  unfold joinDown
  rw [hj.addr_eq]
  by_cases hx : x.stop = b.addr
  · -- `x` ends where `b` starts, so it is not `base`
    simp only [Umalloc.joinPrev, hplus, if_pos hx, hxsize, hsize]
    have hf₁ := frame_setSize m₁ x.addr (x.size + b'.size)
    have hstop : (⟨x.addr, x.size + b'.size⟩ : Block).stop = b'.stop := by
      simp only [Block.stop] at *
      omega
    rw [hf₁.ptr (Or.inr hroom), hptr]
    have hf₂ := hf₁.trans (frame_setPtr _ x.addr (entry Block.addr C' base))
    refine ⟨hf₂, ?_⟩
    rw [show A ++ ⟨x.addr, x.size + b'.size⟩ :: C' = A ++ [⟨x.addr, x.size + b'.size⟩] ++ C' by
      simp]
    refine h.replace hj.suffix (hkeep _ hf₂) rfl ?_ ?_ ?_ ?_ ?_ ?_
    · rintro rfl
      obtain ⟨l', hl'⟩ := h.head
      obtain ⟨rfl, -⟩ := List.cons.inj hl'
      simp only [Block.stop] at hx hroom
      omega
    · exact ⟨by rw [ptr_setPtr, Nat.mod_eq_of_lt hptrlt]; rfl, trivial⟩
    · intro d hd
      obtain rfl := List.mem_singleton.mp hd
      refine ⟨?_, (h.le_top x hxmem).1, hstop ▸ hb't⟩
      rw [size_setPtr, size_setSize, Nat.mod_eq_of_lt]
      have := h.top_lt
      have : x.stop = x.addr + 8 * x.size := rfl
      omega
    · intro d hd
      obtain rfl := List.mem_singleton.mp hd
      have := hj.size_le
      exact Or.inr (by simp only; omega)
    · refine List.pairwise_cons.mpr ⟨fun d hd => ⟨?_, ?_⟩, (List.pairwise_cons.mp hj.order).2⟩
      · exact hstop ▸ (hb'C d hd).1
      · have := hCb d hd
        simp only
        omega
    · intro a ha d hd
      obtain rfl := List.mem_singleton.mp hd
      exact hA a ha x (by simp)
  · simp only [Umalloc.joinPrev, hxsize, hplus, if_neg hx]
    have hf₂ := frame_setPtr m₁ x.addr b.addr
    refine ⟨hf₂, ?_⟩
    rw [show A ++ x :: b' :: C' = A ++ [x, b'] ++ C' by simp]
    have hxb : Before x b' := by
      have := hp.stop_le
      exact ⟨by rw [hj.addr_eq]; omega, by rw [hj.addr_eq]; omega⟩
    refine h.replace hj.suffix (hkeep _ hf₂) rfl ?_ ?_ ?_ ?_ ?_ ?_
    · rintro rfl
      obtain ⟨l', hl'⟩ := h.head
      exact (List.cons.inj hl').1
    · refine ⟨?_, ?_, trivial⟩
      · rw [ptr_setPtr, Nat.mod_eq_of_lt hlt]
        exact hj.addr_eq.symm
      · rw [hj.addr_eq, hf₂.ptr (Or.inr hroom), hptr]
        rfl
    · intro d hd
      rcases List.mem_pair.mp hd with rfl | rfl
      · exact ⟨by rw [size_setPtr, hxsize], h.le_top d hxmem⟩
      · refine ⟨by rw [hj.addr_eq, hf₂.size (Or.inr hroom), hsize], ?_, hb't⟩
        have := hj.size_le
        rw [hj.addr_eq]
        omega
    · intro d hd
      rcases List.mem_pair.mp hd with rfl | rfl
      · exact h.pos d hxmem
      · exact Or.inr (hb.pos.trans_le hj.size_le)
    · refine List.pairwise_cons.mpr ⟨fun d hd => ?_, hj.order⟩
      rcases List.mem_cons.mp hd with rfl | hd
      · exact hxb
      · have := hCb d hd
        have := hp.stop_le
        exact ⟨by omega, by omega⟩
    · intro a ha d hd
      have hax := hA a ha x (by simp)
      rcases List.mem_pair.mp hd with rfl | rfl
      · exact hax
      · have := hax.1
        have := hax.2
        exact ⟨by rw [hj.addr_eq]; omega, by rw [hj.addr_eq]; omega⟩

/-! ### `free` -/

/-- Blocks above `base` that overlap none of `l` keep every byte. -/
def Spares (base : ℕ) (l : List Block) (m m' : Bytes) : Prop :=
  ∀ e : Block, 0 < e.size → base + 8 ≤ e.addr → (∀ d ∈ l, Apart d e) →
    ∀ i, e.addr ≤ i → i < e.stop → m' i = m i

/-- **`free` of a block that is not in the list comes back, and puts it in its place**,
joined to the neighbours it touches. -/
theorem free_spec {s : Heap} (h : FreeList base top s.mem l)
    (hb : Returned base top s.mem l b) (hfreep : s.freep ∈ l.map Block.addr) :
    ∃ l' m' p, (∀ fuel ≥ l.length,
        free fuel (b.addr + 8) s = some { s with mem := m', freep := p }) ∧
      FreeList base top m' l' ∧ p ∈ l'.map Block.addr ∧ Inserted l b l' ∧
      Spares base (b :: l) s.mem m' := by
  obtain ⟨A, x, C, rfl, hp⟩ := h.place hb
  have hlt : b.addr < 2 ^ 32 := by
    have := hb.le_top.trans_lt h.top_lt
    simp only [Block.stop] at this
    omega
  have hbp : (b.addr + 8 + 2 ^ 32 - 8) % 2 ^ 32 = b.addr := by
    rw [show b.addr + 8 + 2 ^ 32 - 8 = b.addr + 2 ^ 32 by omega, Nat.add_mod_right,
      Nat.mod_eq_of_lt hlt]
  have hC := (List.pairwise_cons.mp (List.pairwise_append.mp h.order).2.1).2
  obtain ⟨hf₁, hptr, hsize⟩ := h.joinNext hb hp
  obtain ⟨hf₂, hl'⟩ := h.joinPrev hb hp (joinedUp hb.pos hC hp.above) hf₁ hptr hsize
  refine ⟨_, _, x.addr, ?_, hl', ?_, inserted h.order hp hb.pos, ?_⟩
  · intro fuel hfuel
    simp only [free, hbp, h.freeLoop hp hb.pos hfreep hfuel]
    rfl
  · refine List.mem_map.mpr ?_
    unfold joinDown
    split
    · exact ⟨⟨x.addr, x.size + (joinUp b C).1.size⟩, by simp, rfl⟩
    · exact ⟨x, by simp, rfl⟩
  · intro e he hbase hapart i hle hlt
    have hxe : i < x.addr ∨ x.addr + 8 ≤ i := by
      have hxe := hapart x (by simp)
      rcases h.pos x (by simp) with rfl | hxpos
      · exact Or.inr (hbase.trans hle)
      · exact hxe.header hxpos hle hlt
    rw [hf₂ i hxe, hf₁ i ((hapart b List.mem_cons_self).header hb.pos hle hlt)]

end Free

end Nunix.Umalloc
