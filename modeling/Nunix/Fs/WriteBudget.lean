/-
Nunix/Fs/WriteBudget.lean

The sectors `filewrite` passes to the log.

`filewrite` splits a write into transactions of at most `writeMax` bytes, and `begin_op`
reserves `MAXOPBLOCKS` log sectors for each.  The transactions of a call pass as many
distinct sectors to the log as the plan of the file says (`Plan.costs`), so they keep
within the reservation exactly if these numbers do; a transaction of `writeMax` bytes
that makes a new file long enough does not.
-/
import Nunix.Fs.Frames
import Nunix.Fs.Plan
import Nunix.Fs.WellFormed

namespace Nunix.Fs

open Bytes Hoare Runs

/-! ### The plan of a file -/

/-- The blocks that are free, in the order in which `balloc` takes them. -/
def freeList (d : Disk) : List ℕ :=
  (List.range (superblock d).size).filter fun b => !bit d (superblock d).ninodes b

/-- The plan of the inode `n` on the disk `d`. -/
def planOf (d : Disk) (n : Dinode) : Plan where
  present bn :=
    match posOf bn with
    | some q => decide (n.addrAt d q ≠ 0)
    | none => false
  indirect := decide (n.addrs indirectSlot ≠ 0)
  free := freeList d
  size := n.size.toNat

section PlanOf

variable {sb : Superblock} {H : List (Disk × ℕ)} {s s' : FsSt} {V V' : ℕ → Dinode}
  {k i b bn : ℕ} {pos : Pos}

theorem isSome_toRef (a : UInt32) : (toRef a).isSome = decide (a ≠ 0) := by
  unfold toRef
  split_ifs with h <;> simp [h]

/-- The plan, from the references of the inode. -/
theorem Core.planOf_eq (h : Core sb H s V) (hk : Loaded s k i) :
    planOf s.disk (V i) = ⟨fun bn => (blockOf (refs s.disk sb V) i bn).isSome,
      (refs s.disk sb V (i, .indirect)).isSome, freeList s.disk, (V i).size.toNat⟩ := by
  have href : ∀ q, (refs s.disk sb V (i, q)).isSome = decide ((V i).addrAt s.disk q ≠ 0) := by
    intro q
    rw [refs_of_alloc (h.inum_lt hk) (h.type_ne hk), isSome_toRef]
  rw [planOf, Plan.mk.injEq]
  refine ⟨funext fun bn => ?_, (href .indirect).symm, rfl, rfl⟩
  rcases e : posOf bn with - | q
  · simp [blockOf, e]
  · rw [blockOf, e]
    exact (href q).symm

/-- A block taken off the bitmap was the first of the free list. -/
theorem Grow.freeList (g : Grow sb k i pos b s V s' V') (h : Core sb H s V) :
    Fs.freeList s.disk = b :: Fs.freeList s'.disk := by
  have hhead : (Fs.freeList s.disk).head? = some b := by
    rw [Fs.freeList, List.head?_filter]
    exact g.first
  obtain ⟨rest, hrest⟩ := List.head?_eq_some_iff.mp hhead
  have hnodup : (b :: rest).Nodup := by
    rw [← hrest]
    exact List.nodup_range.filter _
  have hfilter : Fs.freeList s'.disk = (Fs.freeList s.disk).filter (· ≠ b) := by
    rw [Fs.freeList, Fs.freeList, g.super, h.super, List.filter_filter]
    refine List.filter_congr fun x hx => ?_
    rw [g.bits x (List.mem_range.mp hx)]
    by_cases hxb : x = b <;> simp [hxb]
  rw [hfilter, hrest, List.filter_cons_of_neg (by simp)]
  congr 1
  refine (List.filter_eq_self.mpr fun x hx => ?_).symm
  have : x ≠ b := fun e => (List.nodup_cons.mp hnodup).1 (e ▸ hx)
  simpa using this

end PlanOf

/-! ### Writing to some blocks -/

/-- The sectors of a write to the file blocks `S`, with the references `R` after it: the
blocks themselves, the bitmap blocks of the blocks taken, and the indirect block. -/
inductive Sector (sb : Superblock) (i : ℕ) (R : ℕ × Pos → Option ℕ) (p : Plan)
    (S : Finset ℕ) : ℕ → Prop
  | data {bn x : ℕ} (hbn : bn ∈ S) (hx : blockOf R i bn = some x) : Sector sb i R p S x
  | bitmap {y : ℕ} (hy : y ∈ p.free.take (p.need S)) : Sector sb i R p S (BBLOCK y sb.ninodes)
  | indirect {x : ℕ} (he : p.entries S = true) (hx : R (i, .indirect) = some x) :
      Sector sb i R p S x

/-- The blocks that have to be there after a write to `S`. -/
structure Filled (i : ℕ) (R : ℕ × Pos → Option ℕ) (p : Plan) (S : Finset ℕ) : Prop where
  block : ∀ bn ∈ S, blockOf R i bn ≠ none
  indirect : p.entries S = true → R (i, .indirect) ≠ none

section Sector

variable {sb : Superblock} {i : ℕ} {R R' : ℕ × Pos → Option ℕ} {p : Plan} {S T : Finset ℕ}

theorem blockOf_eq_of_mono (h : ∀ {p b}, R p = some b → R' p = some b) {bn : ℕ}
    (hne : blockOf R i bn ≠ none) : blockOf R' i bn = blockOf R i bn := by
  obtain ⟨b, hb⟩ := Option.ne_none_iff_exists'.mp hne
  obtain ⟨p, hp, hpb⟩ := blockOf_eq_some.mp hb
  rw [hb]
  exact blockOf_eq_some.mpr ⟨p, hp, h hpb⟩

/-- A later write adds references only. -/
theorem Filled.sector_iff (f : Filled i R p S) (h : ∀ {p b}, R p = some b → R' p = some b)
    (x : ℕ) : Sector sb i R' p S x ↔ Sector sb i R p S x := by
  have hind : p.entries S = true → R' (i, .indirect) = R (i, .indirect) := fun he => by
    obtain ⟨b, hb⟩ := Option.ne_none_iff_exists'.mp (f.indirect he)
    rw [hb]
    exact h hb
  constructor
  · rintro (⟨hbn, hx⟩ | hy | ⟨he, hx⟩)
    · rw [blockOf_eq_of_mono h (f.block _ hbn)] at hx
      exact .data hbn hx
    · exact .bitmap hy
    · exact .indirect he (hind he ▸ hx)
  · rintro (⟨hbn, hx⟩ | hy | ⟨he, hx⟩)
    · rw [← blockOf_eq_of_mono h (f.block _ hbn)] at hx
      exact .data hbn hx
    · exact .bitmap hy
    · exact .indirect he ((hind he).trans hx)

theorem Filled.mono (f : Filled i R p S) (h : ∀ {p b}, R p = some b → R' p = some b) :
    Filled i R' p S := by
  refine ⟨fun bn hbn => ?_, fun he => ?_⟩
  · rw [blockOf_eq_of_mono h (f.block bn hbn)]
    exact f.block bn hbn
  · obtain ⟨b, hb⟩ := Option.ne_none_iff_exists'.mp (f.indirect he)
    rw [h hb]
    simp

/-- The sectors of two writes. -/
theorem sector_union (hST : Disjoint S T) (x : ℕ) : Sector sb i R p (S ∪ T) x ↔
    Sector sb i R p S x ∨ Sector sb i R (p.touch S) T x := by
  have htake := Plan.take_union (p := p) (S := S) (T := T)
  constructor
  · rintro (⟨hbn, hx⟩ | hy | ⟨he, hx⟩)
    · rcases Finset.mem_union.mp hbn with h | h
      · exact Or.inl (.data h hx)
      · exact Or.inr (.data h hx)
    · rw [htake] at hy
      rcases List.mem_append.mp hy with h | h
      · exact Or.inl (.bitmap h)
      · exact Or.inr (.bitmap h)
    · rw [Plan.entries_union, Bool.or_eq_true] at he
      rcases he with h | h
      · exact Or.inl (.indirect h hx)
      · exact Or.inr (.indirect ((Plan.entries_touch hST).trans h) hx)
  · rintro ((⟨hbn, hx⟩ | hy | ⟨he, hx⟩) | (⟨hbn, hx⟩ | hy | ⟨he, hx⟩))
    · exact .data (Finset.mem_union_left _ hbn) hx
    · exact .bitmap (htake ▸ List.mem_append_left _ hy)
    · exact .indirect (by rw [Plan.entries_union, he, Bool.true_or]) hx
    · exact .data (Finset.mem_union_right _ hbn) hx
    · exact .bitmap (htake ▸ List.mem_append_right _ hy)
    · rw [Plan.entries_touch hST] at he
      exact .indirect (by rw [Plan.entries_union, he, Bool.or_true]) hx

theorem Filled.union (f : Filled i R p S) (f' : Filled i R (p.touch S) T) (hST : Disjoint S T) :
    Filled i R p (S ∪ T) := by
  refine ⟨fun bn hbn => ?_, fun he => ?_⟩
  · rcases Finset.mem_union.mp hbn with h | h
    · exact f.block bn h
    · exact f'.block bn h
  · rw [Plan.entries_union, Bool.or_eq_true] at he
    rcases he with h | h
    · exact f.indirect h
    · exact f'.indirect ((Plan.entries_touch hST).trans h)

end Sector

/-- From `s`, `V` to `s'`, `V'` the file blocks `S` of inode `i` have been written to. -/
structure Touched (sb : Superblock) (i : ℕ) (S : Finset ℕ) (s : FsSt) (V : ℕ → Dinode)
    (s' : FsSt) (V' : ℕ → Dinode) : Prop where
  plan : planOf s'.disk (V' i) = (planOf s.disk (V i)).touch S
  logged : ∀ x, x ∈ s'.logged ↔ x ∈ s.logged ∨
    Sector sb i (refs s'.disk sb V') (planOf s.disk (V i)) S x
  mono : ∀ {p b}, refs s.disk sb V p = some b → refs s'.disk sb V' p = some b
  filled : Filled i (refs s'.disk sb V') (planOf s.disk (V i)) S

section Touched

variable {sb : Superblock} {H : List (Disk × ℕ)} {s s' s₁ : FsSt} {V V' V₁ : ℕ → Dinode}
  {k i b bn : ℕ} {pos : Pos} {S T : Finset ℕ}

theorem Touched.refl : Touched sb i ∅ s V s V := by
  refine ⟨Plan.touch_empty.symm, fun x => ⟨Or.inl, ?_⟩, id, ?_, ?_⟩
  · rintro (h | ⟨hbn, -⟩ | hy | ⟨he, -⟩)
    · exact h
    · exact absurd hbn (Finset.notMem_empty _)
    · rw [Plan.need_empty] at hy
      exact absurd hy List.not_mem_nil
    · rw [Plan.entries_empty] at he
      cases he
  · exact fun _ h => absurd h (Finset.notMem_empty _)
  · intro he
    rw [Plan.entries_empty] at he
    cases he

theorem Touched.trans (t : Touched sb i S s V s₁ V₁) (t' : Touched sb i T s₁ V₁ s' V')
    (hST : Disjoint S T) : Touched sb i (S ∪ T) s V s' V' := by
  have hlog := t'.logged
  have hfill := t'.filled
  rw [t.plan] at hlog hfill
  refine ⟨?_, fun x => ?_, fun h => t'.mono (t.mono h), (t.filled.mono t'.mono).union hfill hST⟩
  · rw [t'.plan, t.plan, Plan.touch_touch hST]
  · rw [hlog, t.logged, sector_union hST, t.filled.sector_iff t'.mono, or_assoc]

/-- Storing in a data block changes neither the references nor the plan. -/
theorem Core.planOf_write (h : Core sb H s V) (hk : Loaded s k i)
    (hb : blockOf (refs s.disk sb V) i bn = some b) (a : Bytes) :
    refs (s.write b a).disk sb V = refs s.disk sb V ∧
      planOf (s.write b a).disk (V i) = planOf s.disk (V i) := by
  have hrefs : refs (s.write b a).disk sb V = refs s.disk sb V := refs_store h.owns.inj hb a
  have u := h.store hk hb a
  obtain ⟨p, -, hp⟩ := blockOf_eq_some.mp hb
  have hfree : freeList (s.write b a).disk = freeList s.disk := by
    rw [freeList, freeList, u.core.super, h.super]
    refine List.filter_congr fun x hx => ?_
    have hlt : BBLOCK x sb.ninodes < nmeta sb := bblock_lt_nmeta (List.mem_range.mp hx)
    rw [write_disk, bit_update_block (hlt.trans_le (h.ref_data hp)).ne]
  refine ⟨hrefs, ?_⟩
  rw [u.core.planOf_eq u.loaded, h.planOf_eq hk, hrefs, hfree]

theorem ndirect_le_iff {bn : ℕ} {pos : Pos} (h : posOf bn = some pos) :
    NDIRECT ≤ bn ↔ ∃ j, pos = .entry j := by
  unfold posOf at h
  split_ifs at h with h₁ h₂ <;> obtain rfl := Option.some.inj h
  · simp [h₁]
  · simpa using h₁

/-- A block of the file that is there. -/
theorem Core.touched_present (h : Core sb H s V) (hk : Loaded s k i)
    (hb : blockOf (refs s.disk sb V) i bn = some b) (a : Bytes) :
    Touched sb i {bn} s V (s.write b a) V := by
  obtain ⟨hrefs, hplan⟩ := h.planOf_write hk hb a
  have hpres : (planOf s.disk (V i)).present bn = true := by
    rw [h.planOf_eq hk]
    simp [hb]
  have hent : (planOf s.disk (V i)).entries {bn} = false := by
    rw [Plan.entries_singleton, hpres]
    rfl
  have hneed : (planOf s.disk (V i)).need {bn} = 0 := by
    rw [Plan.need_singleton, hpres]
    rfl
  refine ⟨?_, fun x => ?_, fun hp => by rwa [hrefs], ⟨fun x hx => ?_, fun he => ?_⟩⟩
  · rw [hplan, Plan.touch, hent, hneed]
    have hpresent : ∀ x, (planOf s.disk (V i)).present x
        = ((planOf s.disk (V i)).present x || decide (x ∈ ({bn} : Finset ℕ))) := by
      intro x
      by_cases hx : x = bn
      · simp [hx, hpres]
      · simp [hx]
    rw [← funext hpresent, Bool.or_false]
    rfl
  · rw [hrefs]
    constructor
    · intro hx
      rcases List.mem_cons.mp hx with rfl | hx
      · exact Or.inr (.data (Finset.mem_singleton_self bn) hb)
      · exact Or.inl hx
    · rintro (hx | ⟨hbn, hx⟩ | hy | ⟨he, -⟩)
      · exact List.mem_cons_of_mem _ hx
      · rw [Finset.mem_singleton.mp hbn, hb] at hx
        obtain rfl := Option.some.inj hx
        exact List.mem_cons_self
      · rw [hneed] at hy
        exact absurd hy List.not_mem_nil
      · rw [hent] at he
        cases he
  · rw [hrefs, Finset.mem_singleton.mp hx, hb]
    simp
  · rw [hent] at he
    cases he

/-- A new block of the file, behind an indirect block that is there if it needs one. -/
theorem Grow.touched (g : Grow sb k i pos b s V s' V') (h : Core sb H s V) (hk : Loaded s k i)
    (hpos : posOf bn = some pos)
    (hind : ∀ j, pos = .entry j → refs s.disk sb V (i, .indirect) ≠ none) (a : Bytes) :
    Touched sb i {bn} s V (s'.write b a) V' := by
  have h' := g.core h hk
  have hk' := g.loaded hk
  have hblock : blockOf (refs s'.disk sb V') i bn = some b :=
    blockOf_eq_some.mpr ⟨_, hpos, g.refs_pos⟩
  obtain ⟨hrefs, hplan⟩ := h'.planOf_write hk' hblock a
  have hxi : refs s'.disk sb V' (i, .indirect) = refs s.disk sb V (i, .indirect) := by
    rw [g.refs_eq]
    exact Function.update_of_ne (fun e => posOf_ne_indirect hpos (Prod.mk.inj e).2.symm) _ _
  have hp := h.planOf_eq hk
  have hpres : (planOf s.disk (V i)).present bn = false := by
    rw [hp]
    simp [blockOf, hpos, g.empty]
  have hent : (planOf s.disk (V i)).entries {bn} = decide (NDIRECT ≤ bn) := by
    rw [Plan.entries_singleton, hpres]
    simp
  have hindirect : NDIRECT ≤ bn → (planOf s.disk (V i)).indirect = true := by
    intro hle
    obtain ⟨j, hj⟩ := (ndirect_le_iff hpos).mp hle
    rw [hp]
    exact Option.isSome_iff_ne_none.mpr (hind j hj)
  have hneed : (planOf s.disk (V i)).need {bn} = 1 := by
    rw [Plan.need_singleton, hpres]
    by_cases hle : NDIRECT ≤ bn
    · simp [hindirect hle]
    · simp [hle]
  have hfree : (planOf s.disk (V i)).free = b :: Fs.freeList s'.disk := g.freeList h
  refine ⟨?_, fun x => ?_, fun hp => ?_, ⟨fun x hx => ?_, fun he => ?_⟩⟩
  · rw [hplan, h'.planOf_eq hk', Plan.touch, hent, hneed, hfree, Plan.mk.injEq]
    refine ⟨funext fun x => ?_, ?_, rfl, ?_⟩
    · rw [g.refs_eq, blockOf_update_data hpos, hp]
      by_cases hx : x = bn <;> simp [hx]
    · rw [hxi, hp]
      by_cases hle : NDIRECT ≤ bn
      · have := hindirect hle
        rw [hp] at this
        simpa [hle] using this
      · simp [hle]
    · rw [g.inode, hp]
  · rw [hrefs]
    constructor
    · intro hx
      rcases List.mem_cons.mp hx with rfl | hx
      · exact Or.inr (.data (Finset.mem_singleton_self bn) hblock)
      · rcases (g.logged x).mp hx with hx | rfl | rfl | ⟨hj, hx⟩
        · exact Or.inl hx
        · exact Or.inr (.data (Finset.mem_singleton_self bn) hblock)
        · refine Or.inr (.bitmap ?_)
          rw [hneed, hfree]
          exact List.mem_singleton.mpr rfl
        · refine Or.inr (.indirect ?_ (hxi.trans hx))
          rw [hent]
          exact decide_eq_true ((ndirect_le_iff hpos).mpr hj)
    · rintro (hx | ⟨hbn, hx⟩ | hy | ⟨he, hx⟩)
      · exact List.mem_cons_of_mem _ ((g.logged x).mpr (Or.inl hx))
      · rw [Finset.mem_singleton.mp hbn, hblock] at hx
        obtain rfl := Option.some.inj hx
        exact List.mem_cons_self
      · rw [hneed, hfree] at hy
        obtain rfl := List.mem_singleton.mp hy
        exact List.mem_cons_of_mem _ ((g.logged _).mpr (Or.inr (Or.inr (Or.inl rfl))))
      · rw [hent] at he
        have hj := (ndirect_le_iff hpos).mp (of_decide_eq_true he)
        exact List.mem_cons_of_mem _ ((g.logged _).mpr
          (Or.inr (Or.inr (Or.inr ⟨hj, hxi.symm.trans hx⟩))))
  · rw [hrefs]
    exact g.refs_mono hp
  · rw [hrefs, Finset.mem_singleton.mp hx, hblock]
    simp
  · rw [hrefs, hxi]
    rw [hent] at he
    obtain ⟨j, hj⟩ := (ndirect_le_iff hpos).mp (of_decide_eq_true he)
    exact hind j hj

/-- A new indirect block `x`, and a write to a missing block behind it. -/
theorem Grow.touched_indirect {x : ℕ} (g : Grow sb k i .indirect x s V s₁ V₁) (h : Core sb H s V)
    (hk : Loaded s k i) {j : Fin NINDIRECT} (hpos : posOf bn = some (.entry j))
    (hmiss : refs s₁.disk sb V₁ (i, .entry j) = none) (t : Touched sb i {bn} s₁ V₁ s' V') :
    Touched sb i {bn} s V s' V' := by
  have hle : NDIRECT ≤ bn := (ndirect_le_iff hpos).mpr ⟨j, rfl⟩
  have hx : refs s'.disk sb V' (i, .indirect) = some x := t.mono g.refs_pos
  have hp := h.planOf_eq hk
  have hp₁ : planOf s₁.disk (V₁ i) = { planOf s.disk (V i) with
      indirect := true, free := Fs.freeList s₁.disk } := by
    rw [(g.core h hk).planOf_eq (g.loaded hk), hp, Plan.mk.injEq]
    refine ⟨funext fun y => ?_, ?_, rfl, ?_⟩
    · rw [g.refs_eq, blockOf_update_indirect]
    · rw [g.refs_pos]
      rfl
    · rw [g.inode]
  have hpres : (planOf s.disk (V i)).present bn = false := by
    have hmiss' : refs s.disk sb V (i, .entry j) = none := by
      rw [g.refs_eq, Function.update_of_ne (by simp)] at hmiss
      exact hmiss
    rw [hp]
    simp [blockOf, hpos, hmiss']
  have hind : (planOf s.disk (V i)).indirect = false := by
    rw [hp]
    simp [g.empty]
  have hent : (planOf s.disk (V i)).entries {bn} = true := by
    rw [Plan.entries_singleton, hpres]
    simp [hle]
  have hneed : (planOf s.disk (V i)).need {bn} = 2 := by
    rw [Plan.need_singleton, hpres, hind]
    simp [hle]
  have hent₁ : (planOf s₁.disk (V₁ i)).entries {bn} = true := by
    rw [hp₁, Plan.entries_singleton]
    simp [hle, hpres]
  have hneed₁ : (planOf s₁.disk (V₁ i)).need {bn} = 1 := by
    rw [hp₁, Plan.need_singleton]
    simp [hpres]
  have hfree : (planOf s.disk (V i)).free = x :: (planOf s₁.disk (V₁ i)).free := g.freeList h
  refine ⟨?_, fun y => ?_, fun hp => t.mono (g.refs_mono hp), ⟨t.filled.block, ?_⟩⟩
  · rw [t.plan, Plan.touch, Plan.touch, hent, hent₁, hneed, hneed₁, hfree, hp₁]
    simp
  · rw [t.logged]
    constructor
    · rintro (hy | ⟨hbn, hy⟩ | hy | ⟨-, hy⟩)
      · rcases (g.logged y).mp hy with hy | rfl | rfl | ⟨⟨j, hj⟩, -⟩
        · exact Or.inl hy
        · exact Or.inr (.indirect hent hx)
        · refine Or.inr (.bitmap ?_)
          rw [hneed, hfree]
          exact List.mem_cons_self
        · cases hj
      · exact Or.inr (.data hbn hy)
      · refine Or.inr (.bitmap ?_)
        rw [hneed₁] at hy
        rw [hneed, hfree]
        exact List.mem_cons_of_mem _ hy
      · exact Or.inr (.indirect hent hy)
    · rintro (hy | ⟨hbn, hy⟩ | hy | ⟨-, hy⟩)
      · exact Or.inl ((g.logged y).mpr (Or.inl hy))
      · exact Or.inr (.data hbn hy)
      · rw [hneed, hfree] at hy
        rcases List.mem_cons.mp hy with rfl | hy
        · exact Or.inl ((g.logged _).mpr (Or.inr (Or.inr (Or.inl rfl))))
        · refine Or.inr (.bitmap ?_)
          rw [hneed₁]
          exact hy
      · exact Or.inr (.indirect hent₁ hy)
  · intro _
    rw [hx]
    simp

/-- What `bmap` and the write to the block it returned do. -/
theorem Mapped.touched (m : Mapped sb k i bn b s V s₁ V₁) (h : Core sb H s V) (hk : Loaded s k i)
    (a : Bytes) : Touched sb i {bn} s V (s₁.write b a) V₁ := by
  cases m with
  | present hb => exact h.touched_present hk hb a
  | grow hpos hind g => exact g.touched h hk hpos hind a
  | grow₂ hpos g₁ g₂ =>
      refine g₁.touched_indirect h hk hpos g₂.empty ?_
      refine g₂.touched (g₁.core h hk) (g₁.loaded hk) hpos (fun _ _ => ?_) a
      rw [g₁.refs_pos]
      simp

/-! ### Enough free blocks -/

theorem firstFree_eq_none {d : Disk} : firstFree d = none ↔ freeList d = [] := by
  rw [firstFree, freeList, List.find?_eq_none, List.filter_eq_nil_iff]

/-- `bmap` of a block that a file may have stops only if there are fewer free blocks than
it needs. -/
theorem Unmapped.short {e : Halt} (u : Unmapped sb k i bn s V e) (h : Core sb H s V)
    (hk : Loaded s k i) (hbn : bn < MAXFILE) : e = .panic .outOfBlocks ∧
      (freeList s.disk).length < (planOf s.disk (V i)).need {bn} := by
  have hmiss : (planOf s.disk (V i)).present bn = false := by
    rw [h.planOf_eq hk]
    simp [u.missing]
  obtain ⟨rfl, hn | ⟨hge, x, s₁, V₁, g, hn⟩⟩ := u.full hbn
  · rw [firstFree_eq_none.mp hn, Plan.need_singleton, hmiss]
    exact ⟨rfl, Nat.lt_add_right _ Nat.one_pos⟩
  · -- the indirect block and the block itself
    have hind : (planOf s.disk (V i)).indirect = false := by
      rw [h.planOf_eq hk]
      simp [g.empty]
    rw [g.freeList h, firstFree_eq_none.mp hn, Plan.need_singleton, hmiss, hind, decide_eq_true hge]
    exact ⟨rfl, Nat.one_lt_two⟩

/-- The loop of `writei` writes to the blocks of its bytes.  It stops only if there are fewer
free blocks than it needs. -/
theorem writeiLoop_touched (src : Bytes) (n : ℕ) : ∀ (tot off : ℕ) (s : FsSt) (V : ℕ → Dinode),
    Core sb H s V → Loaded s k i →
    Wp (writeiLoop k src n tot off) (fun _ s' => ∃ V', Core sb H s' V' ∧ Loaded s' k i ∧
      V' i = { V i with addrs := (V' i).addrs } ∧
      Touched sb i (blocksOf off (n - tot)) s V s' V')
      (fun _ _ => off + (n - tot) ≤ MAXFILE * BSIZE →
        (freeList s.disk).length < (planOf s.disk (V i)).need (blocksOf off (n - tot))) s := by
  intro tot off
  -- by the number of bytes left
  induction hN : n - tot using Nat.strong_induction_on generalizing tot off with
  | _ N ih =>
    intro s V h hk
    rw [writeiLoop]
    split_ifs with hlt
    · have hoff : off % BSIZE < BSIZE := Nat.mod_lt _ (by decide)
      set m := min (n - tot) (BSIZE - off % BSIZE) with hm
      obtain ⟨hsplit, hdisj⟩ := @blocksOf_split off N m (by omega) (by omega)
      rw [hsplit, Plan.need_union]
      refine ((bmap_spec h hk (off / BSIZE)).mono (fun _ _ hq => hq) fun e s' he hmax =>
        Nat.lt_add_right _ (he.2.short h hk (div_lt_maxfile (by omega) hmax)).2).seq ?_
      rintro b s₁ ⟨V₁, mp⟩
      have u₁ := mp.updated h hk
      have t₁ := mp.touched h hk ((s₁.disk b).blit (off % BSIZE) m (src.drop tot))
      have u₂ := u₁.core.store u₁.loaded mp.blockOf
        ((s₁.disk b).blit (off % BSIZE) m (src.drop tot))
      have hloop := ih (n - (tot + m)) (by omega) _ (off + m) rfl _ V₁ u₂.core u₂.loaded
      rw [show n - (tot + m) = N - m by omega] at hloop
      rw [wp_bind, wp_bread, wp_bind, wp_logWrite]
      refine hloop.mono ?_ fun e s' he hmax => ?_
      · rintro - s' ⟨V', h', hk', hinode, t'⟩
        exact ⟨V', h', hk', by rw [hinode, u₁.inode], t₁.trans t' hdisj⟩
      · have hshort := he (by omega)
        have hfree : freeList (s₁.write b ((s₁.disk b).blit (off % BSIZE) m (src.drop tot))).disk
            = (freeList s.disk).drop ((planOf s.disk (V i)).need {off / BSIZE}) :=
          congrArg Plan.free t₁.plan
        rw [t₁.plan, hfree, List.length_drop] at hshort
        omega
    · obtain rfl : N = 0 := by omega
      refine ⟨V, h, hk, rfl, ?_⟩
      rw [blocksOf, if_pos rfl]
      exact .refl

end Touched

/-! ### Counting -/

/-- The number of distinct sectors in a list. -/
def distinct (sectors : List ℕ) : ℕ := sectors.toFinset.card

section Counting

variable {sb : Superblock} {H : List (Disk × ℕ)} {s s' : FsSt} {V V' : ℕ → Dinode}
  {k i : ℕ} {S : Finset ℕ}

theorem mem_freeList {d : Disk} {b : ℕ} (h : b ∈ freeList d) : b < (superblock d).size :=
  List.mem_range.mp (List.mem_filter.mp h).1

/-- The sectors of a write by kind. -/
def dataSectors (i : ℕ) (R : ℕ × Pos → Option ℕ) (S : Finset ℕ) : Finset ℕ :=
  S.image fun bn => (blockOf R i bn).getD 0

@[inherit_doc dataSectors]
def bitmapSectors (sb : Superblock) (p : Plan) (S : Finset ℕ) : Finset ℕ :=
  ((p.free.take (p.need S)).map (BBLOCK · sb.ninodes)).toFinset

@[inherit_doc dataSectors]
def indirectSectors (i : ℕ) (R : ℕ × Pos → Option ℕ) (p : Plan) (S : Finset ℕ) : Finset ℕ :=
  if p.entries S then {(R (i, .indirect)).getD 0} else ∅

section Kinds

variable {R : ℕ × Pos → Option ℕ} {p : Plan} {x : ℕ}

theorem Filled.mem_dataSectors (f : Filled i R p S) :
    x ∈ dataSectors i R S ↔ ∃ bn ∈ S, blockOf R i bn = some x := by
  rw [dataSectors, Finset.mem_image]
  refine exists_congr fun bn => and_congr_right fun hbn => ?_
  obtain ⟨b, hb⟩ := Option.ne_none_iff_exists'.mp (f.block bn hbn)
  simp [hb]

theorem mem_bitmapSectors :
    x ∈ bitmapSectors sb p S ↔ ∃ y ∈ p.free.take (p.need S), BBLOCK y sb.ninodes = x := by
  rw [bitmapSectors, List.mem_toFinset, List.mem_map]

theorem Filled.mem_indirectSectors (f : Filled i R p S) :
    x ∈ indirectSectors i R p S ↔ p.entries S = true ∧ R (i, .indirect) = some x := by
  unfold indirectSectors
  split_ifs with he
  · obtain ⟨b, hb⟩ := Option.ne_none_iff_exists'.mp (f.indirect he)
    simp [hb, he, eq_comm]
  · simp [he]

theorem Filled.sector_mem (f : Filled i R p S) : Sector sb i R p S x ↔
    x ∈ dataSectors i R S ∪ bitmapSectors sb p S ∪ indirectSectors i R p S := by
  rw [Finset.mem_union, Finset.mem_union, f.mem_dataSectors, mem_bitmapSectors,
    f.mem_indirectSectors]
  constructor
  · rintro (⟨hbn, hx⟩ | hy | ⟨he, hx⟩)
    · exact Or.inl (Or.inl ⟨_, hbn, hx⟩)
    · exact Or.inl (Or.inr ⟨_, hy, rfl⟩)
    · exact Or.inr ⟨he, hx⟩
  · rintro ((⟨bn, hbn, hx⟩ | ⟨y, hy, rfl⟩) | ⟨he, hx⟩)
    · exact .data hbn hx
    · exact .bitmap hy
    · exact .indirect he hx

theorem card_bitmapSectors : (bitmapSectors sb p S).card = (p.bitmaps S).card := by
  have himage : bitmapSectors sb p S = (p.bitmaps S).image (· + (sb.ninodes / IPB + 3)) := by
    ext x
    simp only [mem_bitmapSectors, Plan.bitmaps, List.mem_toFinset, List.mem_map, Finset.mem_image,
      exists_exists_and_eq_and, BBLOCK, Nat.add_assoc]
  rw [himage, Finset.card_image_of_injective _ (add_left_injective _)]

theorem card_indirectSectors : (indirectSectors i R p S).card = (p.entries S).toNat := by
  unfold indirectSectors
  cases p.entries S <;> simp

variable {used : Set ℕ} (o : Owns R used (reserved sb))

include o

theorem Filled.card_dataSectors (f : Filled i R p S) : (dataSectors i R S).card = S.card := by
  refine Finset.card_image_of_injOn fun bn hbn bm hbm he => ?_
  obtain ⟨b, hb⟩ := Option.ne_none_iff_exists'.mp (f.block bn hbn)
  obtain ⟨c, hc⟩ := Option.ne_none_iff_exists'.mp (f.block bm hbm)
  simp only [hb, hc, Option.getD_some] at he
  subst he
  obtain ⟨q, hq, hqb⟩ := blockOf_eq_some.mp hb
  obtain ⟨r, hr, hrb⟩ := blockOf_eq_some.mp hc
  have hqr := (Prod.mk.inj (o.inj hqb hrb)).2
  exact posOf_inj hq (hqr ▸ hr)

/-- Data blocks lie behind the bitmap, and the indirect block is none of them. -/
theorem Filled.disjoint_kinds (f : Filled i R p S) (hfree : ∀ y ∈ p.free, y < sb.size) :
    Disjoint (dataSectors i R S) (bitmapSectors sb p S) ∧
      Disjoint (dataSectors i R S ∪ bitmapSectors sb p S) (indirectSectors i R p S) := by
  have hge : ∀ {q b}, R q = some b → nmeta sb ≤ b := fun hq => not_lt.mp (o.notMem_reserved hq)
  have hlt : ∀ x ∈ bitmapSectors sb p S, x < nmeta sb := by
    intro x hx
    obtain ⟨y, hy, rfl⟩ := mem_bitmapSectors.mp hx
    exact bblock_lt_nmeta (hfree y (List.mem_of_mem_take hy))
  refine ⟨Finset.disjoint_left.mpr fun x hx hx' => ?_,
    Finset.disjoint_left.mpr fun x hx hx' => ?_⟩
  · obtain ⟨bn, hbn, hb⟩ := f.mem_dataSectors.mp hx
    obtain ⟨q, -, hq⟩ := blockOf_eq_some.mp hb
    exact absurd (hlt x hx') (not_lt.mpr (hge hq))
  · have hxi := (f.mem_indirectSectors.mp hx').2
    rcases Finset.mem_union.mp hx with hx | hx
    · obtain ⟨bn, hbn, hb⟩ := f.mem_dataSectors.mp hx
      obtain ⟨q, hq, hqb⟩ := blockOf_eq_some.mp hb
      exact posOf_ne_indirect hq (Prod.mk.inj (o.inj hqb hxi)).2
    · exact absurd (hlt x hx) (not_lt.mpr (hge hxi))

end Kinds

/-- The sectors of a write are counted by kind. -/
theorem Touched.distinct_logged (t : Touched sb i S s V s' V') (h : Core sb H s V)
    (h' : Core sb H s' V') (hlog : s.logged = []) :
    distinct s'.logged = S.card + ((planOf s.disk (V i)).bitmaps S).card
      + ((planOf s.disk (V i)).entries S).toNat := by
  have hset : s'.logged.toFinset = dataSectors i (refs s'.disk sb V') S
      ∪ bitmapSectors sb (planOf s.disk (V i)) S
      ∪ indirectSectors i (refs s'.disk sb V') (planOf s.disk (V i)) S := by
    ext x
    rw [List.mem_toFinset, t.logged, hlog, t.filled.sector_mem]
    simp
  have hfree : ∀ y ∈ (planOf s.disk (V i)).free, y < sb.size := by
    intro y hy
    rw [← h.super]
    exact mem_freeList hy
  obtain ⟨hd₁, hd₂⟩ := t.filled.disjoint_kinds h'.owns hfree
  rw [distinct, hset, Finset.card_union_of_disjoint hd₂, Finset.card_union_of_disjoint hd₁,
    t.filled.card_dataSectors h'.owns, card_bitmapSectors, card_indirectSectors]

/-- No sector of a write is the inode block. -/
theorem Touched.iblock_notMem (t : Touched sb i S s V s' V') (h' : Core sb H s' V')
    (hi : i < sb.ninodes) (hlog : s.logged = []) : IBLOCK i ∉ s'.logged := by
  have hlt : IBLOCK i < nmeta sb := iblock_lt_nmeta hi
  intro hx
  have hsec := ((t.logged _).mp hx).resolve_left (by simp [hlog])
  generalize hX : IBLOCK i = x at hsec
  rcases hsec with ⟨-, hb⟩ | hy | ⟨-, hb⟩
  · obtain ⟨q, -, hq⟩ := blockOf_eq_some.mp hb
    exact absurd (h'.ref_data hq) (not_le.mpr (hX ▸ hlt))
  · exact absurd hX (iblock_lt_bblock hi).ne
  · exact absurd (h'.ref_data hb) (not_le.mpr (hX ▸ hlt))

end Counting

/-! ### One transaction -/

/-- The inode of cache entry `k`, as `ilock` finds it. -/
def fileInode (s : FsSt) (k : ℕ) : Dinode :=
  if (s.icache k).valid then (s.icache k).toDinode else dinode s.disk (s.icache k).inum

/-- The plan of the file in cache entry `k`. -/
def filePlan (s : FsSt) (k : ℕ) : Plan := planOf s.disk (fileInode s k)

/-- The operations that have ended do not depend on contents. -/
theorem inert_ops : Inert FsSt.ops where
  note _ _ := rfl
  logWrite _ _ _ _ := rfl
  ballocs _ _ := rfl
  slot _ _ _ _ _ := rfl

section Transaction

variable {sb : Superblock} {H : List (Disk × ℕ)} {σ : Prop} {held : List ℕ} {s s' : FsSt}
  {V V' : ℕ → Dinode} {k i n off : ℕ}

/-- Locking a file. -/
theorem ilock_file : Wp (ilock k) (fun _ s' => s'.disk = s.disk ∧ s'.logged = s.logged ∧
    s'.ops = s.ops ∧ (s'.icache k).toDinode = fileInode s k) (fun _ s' => s'.ops = s.ops) s := by
  unfold ilock
  simp only [wp_bind, wp_slot, wp_ite, wp_panic, wp_throw, wp_modifySlot, wp_get, wp_pure,
    setSlot_self, setSlot_disk]
  refine ⟨fun _ => trivial, fun _ => ⟨fun _ => trivial, fun _ => ⟨fun hv => ?_, fun hv => ?_⟩⟩⟩
  · refine wp_ite.mpr ⟨fun _ => rfl, fun _ => ⟨rfl, rfl, rfl, ?_⟩⟩
    rw [fileInode, if_neg (by simp [hv])]
    simp
  · refine ⟨trivial, rfl, rfl, ?_⟩
    rw [fileInode, if_pos (by simpa using hv)]

/-- Unlocking it. -/
theorem iunlock_file : Wp (iunlock k) (fun _ s' => s'.disk = s.disk ∧ s'.logged = s.logged ∧
    s'.ops = s.ops ∧ fileInode s' k = fileInode s k) (fun _ s' => s'.ops = s.ops) s := by
  unfold iunlock
  simp only [wp_bind, wp_slot, wp_ite, wp_panic, wp_modifySlot]
  refine ⟨fun _ => trivial, fun _ => ⟨rfl, rfl, rfl, ?_⟩⟩
  simp only [fileInode, setSlot_self, setSlot_disk]

theorem freeList_congr {d d' : Disk} (hs : superblock d = sb) (hs' : superblock d' = sb)
    (hu : used d' sb = used d sb) : freeList d' = freeList d := by
  rw [freeList, freeList, hs, hs']
  refine List.filter_congr fun x hx => ?_
  have hlt := List.mem_range.mp hx
  have hbit : ∀ d : Disk, bit d sb.ninodes x = true ↔ x ∈ used d sb := fun d =>
    ⟨fun hb => ⟨hlt, hb⟩, fun hb => hb.2⟩
  have := hbit d
  rw [← hu, ← hbit d'] at this
  rw [Bool.eq_iff_iff.mpr this]

/-- A new size, written to disk. -/
theorem Core.planOf_setInode (h : Core sb H s V) (hk : Loaded s k i) {n : Dinode}
    (haddrs : n.addrs = (V i).addrs) (htype : n.type = (V i).type) :
    planOf (s.setInode k n).disk n = { planOf s.disk (V i) with size := n.size.toNat } := by
  have h' := h.setInode hk haddrs htype
  have hk' : Loaded (s.setInode k n) k i := (sameSlots_setInode n).loaded hk
  have hfree : freeList (s.setInode k n).disk = freeList s.disk :=
    freeList_congr h.super h'.super (setInode_used (hk.inum ▸ h.inum_lt hk))
  have hplan := h'.planOf_eq hk'
  rw [Function.update_self] at hplan
  rw [hplan, h.planOf_eq hk, h.setInode_refs hk haddrs htype, hfree]

/-- **The sectors of one transaction.**  `writei` of a file within the size limit passes as
many sectors to the log as the plan of the file says. -/
theorem writei_cost (h : Core sb H s V) (hk : Loaded s k i) (src : Bytes)
    (hlog : s.logged = []) (ht : (V i).type = T_FILE) (hoff : off ≤ (V i).size.toNat)
    (hn : 0 < n) (hmax : off + n ≤ MAXFILE * BSIZE) :
    Wp (writei k src off n) (fun r s' => r = n ∧
      distinct s'.logged = (planOf s.disk (V i)).cost off n ∧
      planOf s'.disk (s'.icache k).toDinode = (planOf s.disk (V i)).write off n ∧
      (s'.icache k).type = T_FILE) (fun _ _ => True) s := by
  have heq := h.inode_eq hk
  have htype : (s.icache k).type = (V i).type := by rw [← heq]
  have hsize : (s.icache k).size = (V i).size := by rw [← heq]
  have hMAX : MAXFILE * BSIZE = 71680 := rfl
  have hsz := (V i).size.toNat_lt
  have hr : toInt32 n = n := by rw [toInt32, if_pos (by omega)]
  unfold writei
  simp only [wp_bind, wp_slot, wp_ite, wp_pure]
  rw [htype, hsize, ht, hr]
  refine ⟨fun h0 => absurd h0 (by decide), fun _ => ⟨fun h0 => absurd h0 (by omega),
    fun _ => ⟨fun h0 => absurd h0 (by omega), fun _ => ?_⟩⟩⟩
  refine (writeiLoop_touched src n 0 off s V h hk).lax.imp ?_
  rintro - s₁ ⟨V₁, h₁, hk₁, hin₁, t⟩
  rw [Nat.sub_zero] at t
  have heq₁ := h₁.inode_eq hk₁
  have hcount := t.distinct_logged h h₁ hlog
  have htype₁ : (s₁.icache k).type = T_FILE := by
    rw [heq₁, hin₁]
    exact ht
  rw [wp_ite]
  refine ⟨fun hgrow => ?_, fun hgrow => ?_⟩
  · -- the file grows, and its inode block is one more sector
    have hlt : (planOf s.disk (V i)).size < off + n := hgrow.2
    have hsize' : (UInt32.ofNat (off + n)).toNat = off + n :=
      UInt32.toNat_ofNat_of_lt' (by rw [UInt32.size]; omega)
    have hplan := h₁.planOf_setInode hk₁ (n := { V₁ i with size := UInt32.ofNat (off + n) }) rfl rfl
    rw [hsize', t.plan] at hplan
    have hnot := t.iblock_notMem h₁ (h₁.inum_lt hk₁) hlog
    simp only [wp_bind, wp_modifySlot, wp_iupdate, wp_pure, setSlot_self, setSlot_disk]
    refine ⟨trivial, ?_, ?_, ?_⟩
    · show distinct (IBLOCK (s₁.icache k).inum :: s₁.logged) = _
      rw [hk₁.inum, distinct, List.toFinset_cons,
        Finset.card_insert_of_notMem (by simpa using hnot)]
      show distinct s₁.logged + 1 = _
      rw [hcount, Plan.cost, decide_eq_true hlt]
      rfl
    · have hslot : ((s₁.setSlot k { s₁.icache k with size := UInt32.ofNat (off + n) }).icache
          k).toDinode = { (s₁.icache k).toDinode with size := UInt32.ofNat (off + n) } := by
        rw [setSlot_self]
      show planOf (s₁.setInode k { (s₁.icache k).toDinode with size := UInt32.ofNat (off + n) }).disk
        ((s₁.setSlot k { s₁.icache k with size := UInt32.ofNat (off + n) }).icache k).toDinode = _
      rw [hslot, heq₁, hplan, Plan.write, max_eq_right hlt.le]
    · show ((s₁.setSlot k { s₁.icache k with size := UInt32.ofNat (off + n) }).icache k).type = _
      rw [setSlot_self]
      exact htype₁
  · have hle : off + n ≤ (planOf s.disk (V i)).size := not_lt.mp fun hlt => hgrow ⟨hn, hlt⟩
    refine ⟨rfl, ?_, ?_, htype₁⟩
    · rw [hcount, Plan.cost, decide_eq_false (not_lt.mpr hle)]
      rfl
    · rw [heq₁, t.plan, Plan.write, max_eq_left hle]
      rfl

/-- `writei` behind the end of a file, or beyond the largest size, does nothing. -/
theorem writei_refused (ht : (s.icache k).type ≠ T_DEV) (hn : n < 2 ^ 32)
    (hbad : (s.icache k).size.toNat < off ∨ MAXFILE * BSIZE < off + n) {src : Bytes}
    {Q : ℤ → FsSt → Prop} {E : Halt → FsSt → Prop} (hQ : Q (-1) s) :
    Wp (writei k src off n) Q E s := by
  have hMAX : MAXFILE * BSIZE = 71680 := rfl
  have hsz := (s.icache k).size.toNat_lt
  unfold writei
  simp only [wp_bind, wp_slot, wp_ite, wp_pure]
  refine ⟨fun hd => absurd hd ht, fun _ => ⟨fun _ => hQ, fun hoff => ⟨fun _ => hQ, fun hmax => ?_⟩⟩⟩
  omega

/-- A file in entry `k` that a write at `off` can be made to. -/
structure Writable (sb : Superblock) (H : List (Disk × ℕ)) (σ : Prop) (held : List ℕ) (k off : ℕ)
    (s : FsSt) : Prop where
  good : Good sb H σ held s
  mem : k ∈ held
  type : (fileInode s k).type = T_FILE
  off_le : off ≤ (fileInode s k).size.toNat

/-- One pass of the loop of `filewrite`: a write of `n` bytes as a transaction. -/
def filewriteOp (k : ℕ) (src : Bytes) (off n : ℕ) : FsM ℤ := do
  beginOp
  ilock k
  let r ← writei k src off n
  iunlock k
  endOp
  return r

/-- How a transaction of `filewrite` ends, with the sectors `L` passed to the log. -/
inductive Wrote (sb : Superblock) (H : List (Disk × ℕ)) (σ : Prop) (held : List ℕ) (k off n : ℕ)
    (s : FsSt) (L : List ℕ) : ℤ → FsSt → Prop
  | rejected {s' : FsSt} (hmax : MAXFILE * BSIZE < off + n) (hL : distinct L = 0) :
      Wrote sb H σ held k off n s L (-1) s'
  | done {s' : FsSt} (hmax : off + n ≤ MAXFILE * BSIZE)
      (hL : distinct L = (filePlan s k).cost off n)
      (hplan : filePlan s' k = (filePlan s k).write off n)
      (hw : Writable sb H σ held k (off + n) s') : Wrote sb H σ held k off n s L n s'

theorem filewriteOp_spec (w : Writable sb H σ held k off s) (src : Bytes) (hn : 0 < n)
    (hmax : n ≤ writeMax) :
    Wp (filewriteOp k src off n) (fun r s' => ∃ L, s'.ops = L :: s.ops ∧
      Wrote sb H σ held k off n s L r s') (fun _ s' => s'.ops = s.ops) s := by
  have hwm : writeMax = 6656 := rfl
  unfold filewriteOp
  rw [wp_bind, wp_beginOp]
  set s₀ : FsSt := s.beginOp with hs₀
  have hg₀ : Good sb H σ held s₀ := w.good.congr rfl rfl rfl rfl
  have hf₀ : fileInode s₀ k = fileInode s k := rfl
  refine Wp.seq (((ilock_spec hg₀ w.mem).and ilock_file).mono (fun _ _ hq => hq)
    fun _ _ he => he.2) ?_
  rintro - s₁ ⟨⟨hg₁, -, hl₁⟩, hd₁, hlog₁, hops₁, hin₁⟩
  have hops : s₁.ops = s.ops := hops₁
  obtain ⟨V, hI⟩ := hg₁.inv
  have hV : V (s₀.icache k).inum = fileInode s k := by
    rw [← hI.inode_eq hl₁, hin₁, hf₀]
  have hplan₁ : planOf s₁.disk (V (s₀.icache k).inum) = filePlan s k := by
    rw [hV, hd₁, filePlan]
    rfl
  -- what `writei` does to the cache, to the log and to the history
  have hkeep := writei_spec hI hl₁ src off (n := n) (by omega) fun ht => by
    rw [hV, w.type] at ht
    exact absurd ht (by decide)
  have hops₂ := inert_ops.takes.moves_writei k src off n s₁
  by_cases hlarge : MAXFILE * BSIZE < off + n
  · have htype : (s₁.icache k).type = T_FILE := by
      rw [hin₁, hf₀]
      exact w.type
    refine wp_bind.mpr (writei_refused (by rw [htype]; decide) (by omega) (Or.inr hlarge) ?_)
    refine Wp.seq (iunlock_file.mono (fun _ _ hq => hq) fun _ _ he => he.trans hops) ?_
    rintro - s₃ ⟨-, hlog₃, hops₃, -⟩
    refine ⟨s₃.logged, congrArg (s₃.logged :: ·) (hops₃.trans hops), .rejected hlarge ?_⟩
    rw [hlog₃, hlog₁]
    rfl
  · have hlt := not_lt.mp hlarge
    have hcost := writei_cost hI.toCore hl₁ src hlog₁ (by rw [hV]; exact w.type)
      (by rw [hV]; exact w.off_le) hn hlt
    rw [hplan₁] at hcost
    refine Wp.seq (((hkeep.and hcost).and hops₂).mono (fun _ _ hq => hq)
      fun _ _ he => he.2.trans hops) ?_
    rintro r s₂ ⟨⟨⟨V₂, hI₂, hss⟩, rfl, hdist, hplan₂, htype₂⟩, hops₂⟩
    have hg₂ : Good sb H σ held s₂ := hg₁.of_sameSlots ⟨V₂, hI₂⟩ hss
    have hin₂ : fileInode s₂ k = (s₂.icache k).toDinode := by
      rw [fileInode, if_pos ((hss.valid k).trans hl₁.valid)]
    refine Wp.seq (((iunlock_spec hg₂ w.mem).and iunlock_file).mono (fun _ _ hq => hq)
      fun _ _ he => he.2.trans (hops₂.trans hops)) ?_
    rintro - s₃ ⟨⟨hg₃, -⟩, hd₃, hlog₃, hops₃, hin₃⟩
    refine ⟨s₃.logged, congrArg (s₃.logged :: ·) (hops₃.trans (hops₂.trans hops)), ?_⟩
    have hfile : filePlan s₃.endOp k
        = (filePlan s k).write off n := by
      rw [← hplan₂, ← hin₂, ← hin₃, ← hd₃]
      rfl
    refine .done hlt ?_ hfile ⟨hg₃.congr rfl rfl rfl rfl, w.mem, ?_, ?_⟩
    · rw [hlog₃, hdist]
    · show (fileInode s₃ k).type = T_FILE
      rw [hin₃, hin₂]
      exact htype₂
    · have hsize : (filePlan s₃.endOp k).size
          = max (filePlan s k).size (off + n) := by
        rw [hfile]
        rfl
      exact (le_max_right _ _).trans hsize.ge

/-- The loop of `filewrite`, one transaction at a time. -/
theorem filewriteLoop_eq {src : Bytes} {m j : ℕ} (hlt : j < m) :
    filewriteLoop k src m j off = (do
      let r ← filewriteOp k (src.drop j) off (min (m - j) writeMax)
      if r < 0 then return (-1, if r > 0 then (off + r.toNat) % 2 ^ 32 else off)
      if r ≠ (min (m - j) writeMax : ℕ) then panic .shortFilewrite
      filewriteLoop k src m (j + min (m - j) writeMax)
        (if r > 0 then (off + r.toNat) % 2 ^ 32 else off)) := by
  have hmin : (if m - j > writeMax then writeMax else m - j) = min (m - j) writeMax := by
    split_ifs <;> omega
  rw [filewriteLoop, dif_pos hlt]
  simp only [hmin, filewriteOp, bind_assoc, pure_bind]

/-- The sections completed from `s` to `s'` are the first of those with the costs `cs`. -/
def Spent (cs : List ℕ) (s s' : FsSt) : Prop :=
  ∃ L, s'.ops = L ++ s.ops ∧ L.reverse.map distinct <+: cs

theorem Spent.cons {cs : List ℕ} {s₁ : FsSt} {L : List ℕ} (h : Spent cs s₁ s')
    (hL : s₁.ops = L :: s.ops) : Spent (distinct L :: cs) s s' := by
  obtain ⟨M, hM, hpre⟩ := h
  refine ⟨M ++ [L], by rw [hM, hL, List.append_assoc]; rfl, ?_⟩
  rw [List.reverse_append, List.reverse_singleton, List.singleton_append, List.map_cons]
  exact List.cons_prefix_cons.mpr ⟨rfl, hpre⟩

/-- The loop of `filewrite` spends what the plan says, and all of it if it returns. -/
theorem filewriteLoop_spec (src : Bytes) (m : ℕ) : ∀ (j off : ℕ) (s : FsSt),
    Writable sb H σ held k off s →
    Wp (filewriteLoop k src m j off)
      (fun _ s' => ∃ L, s'.ops = L ++ s.ops ∧
        L.reverse.map distinct = (filePlan s k).costs off (m - j))
      (fun _ s' => Spent ((filePlan s k).costs off (m - j)) s s') s := by
  intro j off
  have hwm : writeMax = 6656 := rfl
  have hMAX : MAXFILE * BSIZE = 71680 := rfl
  -- by the number of bytes left
  induction hN : m - j using Nat.strong_induction_on generalizing j off with
  | _ N ih =>
    intro s w
    rw [Plan.costs]
    by_cases hlt : j < m
    · rw [filewriteLoop_eq hlt, hN, dif_neg (by omega)]
      set n := min N writeMax with hn
      refine Wp.seq ((filewriteOp_spec w (src.drop j) (n := n) (by omega) (by omega)).mono
        (fun _ _ hq => hq) fun _ _ he => ⟨[], he, List.nil_prefix⟩) ?_
      rintro r s₁ ⟨L, hops, hw⟩
      cases hw with
      | rejected hmax hL =>
          rw [if_pos hmax]
          refine wp_ite.mpr ⟨fun _ => ⟨[L], hops, by simp [hL]⟩, fun h0 => absurd ?_ h0⟩
          decide
      | done hmax hL hplan hw =>
          rw [if_neg (not_lt.mpr hmax)]
          have hoff : (if (n : ℤ) > 0 then (off + (n : ℤ).toNat) % 2 ^ 32 else off) = off + n := by
            rw [if_pos (by omega), Int.toNat_natCast, Nat.mod_eq_of_lt (by omega)]
          refine wp_ite.mpr ⟨fun h0 => absurd h0 (by omega), fun _ => ?_⟩
          refine wp_ite.mpr ⟨fun h0 => absurd rfl h0, fun _ => ?_⟩
          rw [hoff]
          have hloop := ih (m - (j + n)) (by omega) (j + n) (off + n) rfl s₁ hw
          rw [hplan, show m - (j + n) = N - n by omega] at hloop
          refine hloop.mono ?_ ?_
          · rintro - s' ⟨M, hM, hcosts⟩
            refine ⟨M ++ [L], by rw [hM, hops, List.append_assoc]; rfl, ?_⟩
            rw [List.reverse_append, List.reverse_singleton, List.singleton_append, List.map_cons,
              hcosts, hL]
          · intro _ s' hs'
            rw [← hL]
            exact hs'.cons hops
    · rw [filewriteLoop, dif_neg hlt, dif_pos (by omega)]
      exact ⟨[], rfl, rfl⟩

end Transaction

/-! ### The reservation -/

/-- Every call of `filewrite` spends what the plan says. -/
theorem filewrite_spec {sb : Superblock} {H : List (Disk × ℕ)} {σ : Prop} {held : List ℕ}
    {s : FsSt} {k off : ℕ} (w : Writable sb H σ held k off s) (src : Bytes) (n : ℤ) :
    Wp (filewrite k src off n)
      (fun _ s' => ∃ L, s'.ops = L ++ s.ops ∧
        L.reverse.map distinct = (filePlan s k).costs off n.toNat)
      (fun _ s' => Spent ((filePlan s k).costs off n.toNat) s s') s := by
  unfold filewrite
  split_ifs with hneg
  · rw [Int.toNat_of_nonpos hneg.le, Plan.costs, dif_pos rfl]
    exact ⟨[], rfl, rfl⟩
  · exact filewriteLoop_spec src n.toNat 0 off s w

/-- **The write budget.**  Let `filewrite` be called for a regular file at an offset within
its size, and let `L` be the transactions it completes (the last one first).  They are the
first of the transactions the plan of the file predicts, all of them if the call returns.
So each of them keeps within the `MAXOPBLOCKS` sectors that `begin_op` reserves exactly if
its predicted cost does. -/
theorem filewrite_budget {sb : Superblock} {H : List (Disk × ℕ)} {σ : Prop} {held : List ℕ}
    {s : FsSt} {k off : ℕ} (hgood : Good sb H σ held s) (hk : k ∈ held)
    (htype : (fileInode s k).type = T_FILE) (hoff : off ≤ (fileInode s k).size.toNat)
    (src : Bytes) (n : ℤ) :
    ∃ L, (after (filewrite k src off n) s).ops = L ++ s.ops ∧
      ((∀ sectors ∈ L, distinct sectors ≤ MAXOPBLOCKS) ↔
        ∀ c ∈ ((filePlan s k).costs off n.toNat).take L.length, c ≤ MAXOPBLOCKS) ∧
      ∀ r s', filewrite k src off n s = .ok r s' →
        L.length = ((filePlan s k).costs off n.toNat).length := by
  have hspec := filewrite_spec ⟨hgood, hk, htype, hoff⟩ src n
  set cs := (filePlan s k).costs off n.toNat with hcs
  -- the sections are counted one by one
  have hiff : ∀ L : List (List ℕ), L.reverse.map distinct <+: cs →
      ((∀ sectors ∈ L, distinct sectors ≤ MAXOPBLOCKS) ↔
        ∀ c ∈ cs.take L.length, c ≤ MAXOPBLOCKS) := by
    intro L hpre
    have htake : cs.take L.length = L.reverse.map distinct := by
      rw [List.prefix_iff_eq_take.mp hpre, List.length_map, List.length_reverse]
    rw [htake]
    simp only [List.mem_map, List.mem_reverse, forall_exists_index, and_imp,
      forall_apply_eq_imp_iff₂]
  rcases e : filewrite k src off n s with ⟨r, s'⟩ | ⟨halt, s'⟩
  · obtain ⟨L, hL, hcosts⟩ := hspec.of_ok e
    refine ⟨L, by rw [after, e, hL], hiff L (hcosts ▸ List.prefix_rfl), fun _ _ _ => ?_⟩
    rw [← hcosts, List.length_map, List.length_reverse]
  · obtain ⟨L, hL, hpre⟩ := hspec.of_error e
    exact ⟨L, by rw [after, e, hL], hiff L hpre, fun _ _ h => by cases h⟩

/-- A new file on the small disk, open and not locked. -/
theorem newFile_run : ∃ t : FsSt × List ℕ,
    run fsStep (tiny 1, []) [.create [98] T_FILE 0 0, .iunlock 1] = some t ∧ t.2 = [1] ∧
      (fileInode t.1 1).type = T_FILE ∧
      (after (filewrite 1 (fun _ => 7) 0 6656) t.1).ops.map distinct = [16] := by
  have hev : (run fsStep (tiny 1, []) [.create [98] T_FILE 0 0, .iunlock 1]).map (fun t =>
      (t.2, (fileInode t.1 1).type,
        (after (filewrite 1 (fun _ => 7) 0 6656) t.1).ops.map distinct))
      = some ([1], T_FILE, [16]) := by
    decide +kernel
  obtain ⟨t, ht, hdata⟩ := Option.map_eq_some_iff.mp hev
  obtain ⟨hheld, hdata⟩ := Prod.mk.inj hdata
  obtain ⟨htype, hops⟩ := Prod.mk.inj hdata
  exact ⟨t, ht, hheld, htype, hops⟩

/-- Writing 6656 bytes to a new file is one transaction of 16 sectors: 13 data blocks, the
indirect block, the bitmap block and the inode block. -/
theorem filewrite_exceeds_budget : ∃ t : FsSt × List ℕ,
    run fsStep (tiny 1, []) [.create [98] T_FILE 0 0, .iunlock 1] = some t ∧ WellFormed t.1 ∧
      (fileInode t.1 1).type = T_FILE ∧
      ∃ sectors ∈ (after (filewrite 1 (fun _ => 7) 0 6656) t.1).ops,
        MAXOPBLOCKS < distinct sectors := by
  obtain ⟨t, hrun, -, htype, hops⟩ := newFile_run
  obtain ⟨V, hI⟩ := (good_run ⟨⟨_, tiny_wellFormed.inv⟩, mounted_refs⟩ hrun).inv
  obtain ⟨sectors, hmem, hcount⟩ := List.mem_map.mp (hops ▸ List.mem_singleton.mpr rfl)
  exact ⟨t, hrun, hI.wellFormed, htype, sectors, hmem, by rw [hcount]; decide⟩

/-- The plan of the new file predicts it. -/
theorem filewrite_budget_newFile : ∃ t : FsSt × List ℕ,
    run fsStep (tiny 1, []) [.create [98] T_FILE 0 0, .iunlock 1] = some t ∧
      ∃ L, (after (filewrite 1 (fun _ => 7) 0 6656) t.1).ops = L ++ t.1.ops ∧
        ((∀ sectors ∈ L, distinct sectors ≤ MAXOPBLOCKS) ↔
          ∀ c ∈ ((filePlan t.1 1).costs 0 6656).take L.length, c ≤ MAXOPBLOCKS) := by
  obtain ⟨t, hrun, hheld, htype, -⟩ := newFile_run
  have hgood := good_run ⟨⟨_, tiny_wellFormed.inv⟩, mounted_refs⟩ hrun
  obtain ⟨L, hops, hiff, -⟩ := filewrite_budget hgood (by rw [hheld]; exact List.mem_singleton.mpr rfl)
    htype (Nat.zero_le _) (fun _ => 7) 6656
  exact ⟨t, hrun, L, hops, hiff⟩

end Nunix.Fs
