/-
Nunix/Fs/Trunc.lean

`itrunc` gives up every block of an inode.

While it runs, the bitmap is ahead of the inode: the bits of the blocks go first,
the addresses in the cache later, the inode on disk last.  The ownership that holds
on the way is that of a reference map `R` which forgets a reference as soon as
`bfree` has cleared the bit (`Releasing`).  At the end `R` is what the truncated
inode refers to.  `bfree` finds the bit set every time, since `R` still owns the
block.
-/
import Nunix.Fs.Content

namespace Nunix.Fs

open Bytes Hoare
open Function (update update_apply update_eq_self update_idem update_of_ne update_self)

/-- The reference map `R` owns the blocks in use. -/
structure Releasing (sb : Superblock) (R : ℕ × Pos → Option ℕ) (s : FsSt) : Prop where
  super : superblock s.disk = sb
  owns : Owns R (used s.disk sb) (reserved sb)

/-- From `s` to `s'` references of inode `i` were given up: `R` shrank to `R'`, and
besides bitmap blocks and the addresses in cache entry `k` nothing changed. -/
structure Released (sb : Superblock) (k i : ℕ) (R : ℕ × Pos → Option ℕ) (s : FsSt)
    (R' : ℕ × Pos → Option ℕ) (s' : FsSt) : Prop where
  releasing : Releasing sb R' s'
  exact : Owns.Exact R (used s.disk sb) (reserved sb) →
    Owns.Exact R' (used s'.disk sb) (reserved sb)
  other : ∀ j ≠ i, ∀ p, R' (j, p) = R (j, p)
  data : ∀ x, nmeta sb ≤ x → s'.disk x = s.disk x
  inodes : ∀ j < sb.ninodes, dinode s'.disk j = dinode s.disk j
  cache : s'.icache = update s.icache k
    { s.icache k with addrs := (s'.icache k).addrs }
  rest : s'.cwd = s.cwd ∧ s'.ballocs = s.ballocs

section Release

variable {sb : Superblock} {H : List (Disk × ℕ)} {R R' R₁ : ℕ × Pos → Option ℕ}
  {s s' s₁ : FsSt} {k i b : ℕ} {p : Pos}

theorem Released.refl (h : Releasing sb R s) : Released sb k i R s R s where
  releasing := h
  exact := id
  other _ _ _ := rfl
  data _ _ := rfl
  inodes _ _ := rfl
  cache := (update_eq_self k s.icache).symm
  rest := ⟨rfl, rfl⟩

theorem Released.trans (r : Released sb k i R s R₁ s₁) (r' : Released sb k i R₁ s₁ R' s') :
    Released sb k i R s R' s' where
  releasing := r'.releasing
  exact h := r'.exact (r.exact h)
  other j hj q := (r'.other j hj q).trans (r.other j hj q)
  data x hx := (r'.data x hx).trans (r.data x hx)
  inodes j hj := (r'.inodes j hj).trans (r.inodes j hj)
  cache := by
    have hk : (s₁.icache k) = { s.icache k with addrs := (s₁.icache k).addrs } := by
      conv_lhs => rw [r.cache, update_self]
    rw [r'.cache, r.cache, update_idem]
    congr 1
    rw [update_self, update_self]
  rest := ⟨r'.rest.1.trans r.rest.1, r'.rest.2.trans r.rest.2⟩

/-- Clearing the bit of an owned block. -/
theorem Releasing.free (h : Releasing sb R s) (hp : R (i, p) = some b) :
    Released sb k i R s (update R (i, p) none) (s.free b) := by
  have hb := h.owns.mem_used hp
  have hdisk : (s.free b).disk = update s.disk (BBLOCK b sb.ninodes)
      ((s.disk (BBLOCK b sb.ninodes)).clearBit (b % BPB)) := by
    rw [← h.super]
    rfl
  have hbb1 : BBLOCK b sb.ninodes ≠ 1 := by
    simp only [BBLOCK, BPB, IPB, BSIZE]
    omega
  have hused : ∀ x, x ∈ used (s.free b).disk sb ↔ x ≠ b ∧ x ∈ used s.disk sb := by
    intro x
    show x < sb.size ∧ _ ↔ x ≠ b ∧ x < sb.size ∧ _
    rw [hdisk, bit_clear]
    by_cases hx : x = b
    · simp [hx]
    · simp [hx]
  refine ⟨⟨?_, h.owns.release hp hused⟩, fun he => he.release hp hused, ?_, ?_, ?_,
    (update_eq_self k s.icache).symm, rfl, rfl⟩
  · rw [hdisk, superblock_update hbb1, h.super]
  · intro j hj q
    exact update_of_ne (fun e => hj (Prod.mk.inj e).1) _ _
  · intro x hx
    rw [hdisk, update_of_ne ((bblock_lt_nmeta hb.1).trans_le hx).ne']
  · intro j hj
    rw [hdisk, dinode_update_block (iblock_lt_bblock hj).ne]

/-- `bfree` of an owned block does not panic. -/
theorem Releasing.wp_bfree (h : Releasing sb R s) (hp : R (i, p) = some b)
    {Q : Unit → FsSt → Prop} {E : Halt → FsSt → Prop} (hQ : Q () (s.free b)) :
    Wp (bfree b) Q E s := by
  have hbit := (h.owns.mem_used hp).2
  rw [Fs.wp_bfree, h.super, hbit]
  simp [hQ]

/-- Storing an address changes the cache only. -/
theorem Released.setAddr (r : Released sb k i R s R' s') (l : Fin (NDIRECT + 1)) (a : UInt32) :
    Released sb k i R s R' (s'.setSlot k { s'.icache k with
      addrs := update (s'.icache k).addrs l a }) where
  releasing := ⟨r.releasing.super, r.releasing.owns⟩
  exact := r.exact
  other := r.other
  data := r.data
  inodes := r.inodes
  cache := by
    show update s'.icache k _ = _
    rw [setSlot_self]
    nth_rewrite 1 [r.cache]
    rw [update_idem]
    congr 1
    conv_lhs => rw [r.cache, update_self]
  rest := r.rest

/-- The direct addresses in entry `k` are the references of inode `i`. -/
def DirectRefs (R : ℕ × Pos → Option ℕ) (s : FsSt) (k i : ℕ) : Prop :=
  ∀ m : Fin NDIRECT, R (i, .direct m) = toRef ((s.icache k).addrs m.castSucc)

theorem itruncDirect_spec (E : Halt → FsSt → Prop) (ms : List (Fin NDIRECT)) :
    ∀ (R : ℕ × Pos → Option ℕ) (s : FsSt), Releasing sb R s → DirectRefs R s k i →
    Wp (itruncDirect k (ms.map Fin.castSucc)) (fun _ s' => ∃ R',
      Released sb k i R s R' s' ∧ DirectRefs R' s' k i ∧
      (∀ m, (s.icache k).addrs m = 0 → (s'.icache k).addrs m = 0) ∧
      (∀ m ∈ ms, (s'.icache k).addrs m.castSucc = 0) ∧
      (s'.icache k).addrs indirectSlot = (s.icache k).addrs indirectSlot ∧
      R' (i, .indirect) = R (i, .indirect) ∧ ∀ j, R' (i, .entry j) = R (i, .entry j)) E s := by
  induction ms with
  | nil =>
      intro R s h hd
      exact ⟨R, .refl h, hd, fun _ h0 => h0, by simp, rfl, rfl, fun _ => rfl⟩
  | cons m ms ih =>
      intro R s h hd
      rw [List.map_cons, itruncDirect]
      simp only [wp_bind, wp_slot, wp_ite]
      refine ⟨fun hne => ?_, fun h0 => ?_⟩
      · -- the block is freed and its address cleared
        have hp : R (i, .direct m) = some ((s.icache k).addrs m.castSucc).toNat := by
          rw [hd m, toRef, if_neg hne]
        refine h.wp_bfree hp ?_
        have r := (h.free (k := k) hp).setAddr m.castSucc 0
        rw [wp_bind, wp_setAddr]
        have hslot : ∀ l, ((((s.free ((s.icache k).addrs m.castSucc).toNat).setSlot k
            { s.icache k with addrs := update (s.icache k).addrs m.castSucc 0 }
            ).icache k).addrs l) = if l = m.castSucc then 0 else (s.icache k).addrs l := by
          intro l
          rw [setSlot_self]
          exact update_apply ..
        refine (ih _ _ r.releasing ?_).imp ?_
        · intro l
          show _ = toRef ((((s.free ((s.icache k).addrs m.castSucc).toNat).setSlot k
            { s.icache k with addrs := update (s.icache k).addrs m.castSucc 0 }
            ).icache k).addrs l.castSucc)
          rw [hslot]
          by_cases hl : l = m
          · subst hl
            simp [toRef]
          · have hl' : l.castSucc ≠ m.castSucc := fun e => hl (Fin.castSucc_inj.mp e)
            have hpos : ((i, Pos.direct l) : ℕ × Pos) ≠ (i, .direct m) := by simp [hl]
            rw [update_of_ne hpos, if_neg hl', hd l]
        · rintro - s' ⟨R', r', hd', hkeep, hzero, hind, hri, hre⟩
          refine ⟨R', r.trans r', hd', ?_, ?_, ?_, ?_, ?_⟩
          · intro l hl
            refine hkeep l ((hslot l).trans ?_)
            split_ifs
            · rfl
            · exact hl
          · intro l hl
            rcases List.mem_cons.mp hl with rfl | hl
            · exact hkeep _ ((hslot _).trans (if_pos rfl))
            · exact hzero l hl
          · exact hind.trans ((hslot _).trans (if_neg (Fin.castSucc_lt_last m).ne'))
          · rw [hri, update_of_ne (by simp)]
          · intro j
            rw [hre j, update_of_ne (by simp)]
      · refine (ih R s h hd).imp ?_
        rintro - s' ⟨R', r', hd', hkeep, hzero, hrest⟩
        refine ⟨R', r', hd', hkeep, fun l hl => ?_, hrest⟩
        rcases List.mem_cons.mp hl with rfl | hl
        · exact hkeep _ (not_not.mp h0)
        · exact hzero l hl

theorem itruncEntries_spec (E : Halt → FsSt → Prop) (bp : Bytes) (js : List ℕ)
    (hnodup : js.Nodup) (hlt : ∀ j ∈ js, j < NINDIRECT) :
    ∀ (R : ℕ × Pos → Option ℕ) (s : FsSt), Releasing sb R s →
    (∀ j : Fin NINDIRECT, (j : ℕ) ∈ js →
      R (i, .entry j) = toRef (UInt32.ofNat (bp.get32 (4 * j)))) →
    Wp (itruncEntries bp js) (fun _ s' => ∃ R', Released sb k i R s R' s' ∧
      s'.icache = s.icache ∧ (∀ j : Fin NINDIRECT, (j : ℕ) ∈ js → R' (i, .entry j) = none) ∧
      (∀ p, (∀ j : Fin NINDIRECT, (j : ℕ) ∈ js → p ≠ .entry j) → R' (i, p) = R (i, p))) E s := by
  induction js with
  | nil =>
      intro R s h _
      exact ⟨R, .refl h, rfl, by simp, fun _ _ => rfl⟩
  | cons j js ih =>
      intro R s h hent
      obtain ⟨hj, hnodup⟩ := List.nodup_cons.mp hnodup
      have ih := ih hnodup fun l hl => hlt l (List.mem_cons_of_mem j hl)
      have hjlt : j < NINDIRECT := hlt j List.mem_cons_self
      set q : Fin NINDIRECT := ⟨j, hjlt⟩ with hq
      have hqj := hent q List.mem_cons_self
      have hne : ∀ {l : Fin NINDIRECT}, (l : ℕ) ∈ js →
          ((i, Pos.entry l) : ℕ × Pos) ≠ (i, .entry q) := by
        intro l hl e
        obtain rfl := Pos.entry.inj (Prod.mk.inj e).2
        exact hj hl
      rw [itruncEntries]
      simp only [wp_bind, wp_ite]
      refine ⟨fun hnz => ?_, fun h0 => ?_⟩
      · have hp : R (i, .entry q) = some (UInt32.ofNat (bp.get32 (4 * j))).toNat := by
          rw [hqj, toRef, if_neg hnz]
        refine h.wp_bfree hp ?_
        have r : Released sb k i R s _ _ := h.free hp
        refine (ih _ _ r.releasing fun l hl => ?_).imp ?_
        · rw [update_of_ne (hne hl)]
          exact hent l (List.mem_cons_of_mem j hl)
        · rintro - s' ⟨R', r', hc, hnone, hkeep⟩
          refine ⟨R', r.trans r', hc, fun l hl => ?_, fun p hp' => ?_⟩
          · rcases List.mem_cons.mp hl with hl | hl
            · have hlq : l = q := Fin.ext hl
              rw [hlq, hkeep (.entry q), update_self]
              intro m hm e
              exact hne hm (by rw [e])
            · exact hnone l hl
          · rw [hkeep p fun m hm => hp' m (List.mem_cons_of_mem j hm),
              update_of_ne fun e => hp' q List.mem_cons_self (Prod.mk.inj e).2]
      · refine (ih R s h fun l hl => hent l (List.mem_cons_of_mem j hl)).imp ?_
        rintro - s' ⟨R', r', hc, hnone, hkeep⟩
        refine ⟨R', r', hc, fun l hl => ?_, fun p hp' => ?_⟩
        · rcases List.mem_cons.mp hl with hl | hl
          · have hlq : l = q := Fin.ext hl
            rw [hlq, hkeep (.entry q) fun m hm e => hne hm (by rw [e]), hqj, toRef,
              if_pos (not_not.mp h0)]
          · exact hnone l hl
        · exact hkeep p fun m hm => hp' m (List.mem_cons_of_mem j hm)

end Release

/-! ### itrunc -/

/-- The inode with no content. -/
def Dinode.truncated (n : Dinode) : Dinode := { n with size := 0, addrs := fun _ => 0 }

section Itrunc

variable {sb : Superblock} {H : List (Disk × ℕ)} {σ : Prop} {s s' : FsSt} {V : ℕ → Dinode}
  {k i : ℕ} {R' : ℕ × Pos → Option ℕ}

/-- Once all its references are given up and its addresses cleared, storing the
inode with size 0 restores the invariant; the other inodes keep their contents. -/
theorem Inv.of_released (h : Inv sb H σ s V) (hk : Loaded s k i)
    (r : Released sb k i (refs s.disk sb V) s R' s') (hnone : ∀ p, R' (i, p) = none) :
    Inv sb H σ (s'.setInode k (V i).truncated) (update V i (V i).truncated) ∧
      SameSlots s (s'.setInode k (V i).truncated) ∧
      ∀ j ≠ i, content (s'.setInode k (V i).truncated).disk (refs
          (s'.setInode k (V i).truncated).disk sb (update V i (V i).truncated)) j
        = content s.disk (refs s.disk sb V) j := by
  have hi := h.inum_lt hk
  have hinum : (s'.icache k).inum = i := by
    rw [r.cache, update_self]
    exact hk.inum
  set n := (V i).truncated with hn
  set s'' := s'.setInode k n with hs''
  have hdata : ∀ x, nmeta sb ≤ x → s''.disk x = s.disk x := fun x hx =>
    (setInode_data (hinum ▸ hi) hx).trans (r.data x hx)
  have hused : used s''.disk sb = used s'.disk sb := setInode_used (hinum ▸ hi)
  have hself : dinode s''.disk i = n := by
    have := setInode_self (s := s') (k := k) (n := n)
    rwa [hinum] at this
  have hothers : ∀ j < sb.ninodes, j ≠ i → dinode s''.disk j = dinode s.disk j := fun j hj hji =>
    (setInode_of_ne (hinum.symm ▸ hji)).trans (r.inodes j hj)
  -- the references left are those of the other inodes
  have hsame : refs s''.disk sb V = refs s.disk sb V :=
    refs_congr fun j x hx => hdata x (h.ref_data hx)
  have hrefs_ne : ∀ j ≠ i, ∀ p, refs s''.disk sb (update V i n) (j, p)
      = refs s.disk sb V (j, p) := by
    intro j hj p
    rw [← hsame]
    refine refs_congr_at ?_ ?_ <;> rw [update_of_ne hj]
  have hrefs : refs s''.disk sb (update V i n) = R' := by
    funext ⟨j, p⟩
    by_cases hj : j = i
    · subst hj
      have ht : (update V j n j).type ≠ 0 := by
        rw [update_self]
        exact h.type_ne hk
      rw [hnone, refs_of_alloc hi ht, update_self]
      cases p <;> simp [Dinode.addrAt, hn, Dinode.truncated, toRef]
    · rw [hrefs_ne j hj, r.other j hj]
  have hblock : ∀ j ≠ i, ∀ bn, blockOf (refs s''.disk sb (update V i n)) j bn
      = blockOf (refs s.disk sb V) j bn := fun j hj bn => by
    simp only [blockOf, hrefs_ne j hj]
  have hcontent : ∀ j ≠ i, content s''.disk (refs s''.disk sb (update V i n)) j
      = content s.disk (refs s.disk sb V) j := by
    intro j hji
    funext x
    rcases e : blockOf (refs s.disk sb V) j (x / BSIZE) with - | b
    · rw [content_of_none e, content_of_none ((hblock j hji _).trans e)]
    · obtain ⟨q, -, hq⟩ := blockOf_eq_some.mp e
      rw [content_of_block e, content_of_block ((hblock j hji _).trans e),
        hdata b (h.ref_data hq)]
  have hcache : s''.icache = update s.icache k { s.icache k with toDinode := n } := by
    show update s'.icache k { s'.icache k with toDinode := n } = _
    rw [r.cache, update_idem, update_self]
  refine ⟨⟨⟨h.room, setInode_super r.releasing.super, ?_, ?_, ?_⟩, h.root, ?_, ?_,
    fun hσ => ⟨?_, ?_, ?_⟩⟩, sameSlots_update hcache r.rest.1, hcontent⟩
  · rw [hrefs, hused]
    exact r.releasing.owns
  · rw [hcache, ← hk.inum]
    apply h.cache.set hk.ref
    · rfl
    · exact fun _ => hk.valid
    · exact fun _ => ⟨rfl, h.type_ne hk⟩
  · show ∀ c ∈ s'.ballocs, _
    rw [r.rest.2]
    exact h.handed
  · intro j hj
    by_cases hji : j = i
    · subst hji
      rw [update_self, hself]
      exact ⟨rfl, fun _ _ => rfl⟩
    · rw [update_of_ne hji, hothers j hj hji]
      exact h.behind j hj
  · intro j hj ht e he
    by_cases hji : j = i
    · subst hji
      rw [update_self, hn] at he
      exact absurd he (by simp [Dinode.truncated, DESIZE])
    · rw [update_of_ne hji] at ht he
      rw [hcontent j hji]
      exact h.dirs j hj ht e he
  · intro j hj
    by_cases hji : j = i
    · subst hji
      rw [update_self, hself]
    · rw [update_of_ne hji, hothers j hj hji]
      exact (h.strict hσ).clean j hj
  · rw [hrefs, hused]
    exact r.exact (h.strict hσ).exact
  · intro j hj ht bn hbn
    by_cases hji : j = i
    · subst hji
      rw [update_self, hn] at hbn
      exact absurd hbn (by simp [Dinode.truncated])
    · rw [update_of_ne hji] at ht hbn
      rw [hblock j hji]
      exact (h.strict hσ).filled j hj ht bn hbn

/-- `itrunc` empties the inode and keeps the invariant.  It returns whatever happens. -/
theorem itrunc_spec (E : Halt → FsSt → Prop) (h : Inv sb H σ s V) (hk : Loaded s k i) :
    Wp (itrunc k) (fun _ s' => Inv sb H σ s' (update V i (V i).truncated) ∧
      SameSlots s s' ∧ ∀ j ≠ i,
        content s'.disk (refs s'.disk sb (update V i (V i).truncated)) j
          = content s.disk (refs s.disk sb V) j) E s := by
  have hi := h.inum_lt hk
  have ht := h.type_ne hk
  have heq := h.inode_eq hk
  have haddrs : (s.icache k).addrs = (V i).addrs := by rw [← heq]
  -- what remains once every reference is given up
  have hfin : ∀ {R' : ℕ × Pos → Option ℕ} {s' : FsSt},
      Released sb k i (refs s.disk sb V) s R' s' → (∀ p, R' (i, p) = none) →
      (∀ l, (s'.icache k).addrs l = 0) →
      Wp (do
        modifySlot k fun ip => { ip with size := 0 }
        iupdate k) (fun _ s' => Inv sb H σ s' (update V i (V i).truncated) ∧
        SameSlots s s' ∧ ∀ j ≠ i,
          content s'.disk (refs s'.disk sb (update V i (V i).truncated)) j
            = content s.disk (refs s.disk sb V) j) E s' := by
    intro R' s' r hnone hzero
    simp only [wp_bind, wp_modifySlot, wp_iupdate, setSlot_self, setSlot_disk]
    have hn : ({ s'.icache k with size := 0 } : Inode).toDinode = (V i).truncated := by
      have hz : (s'.icache k).addrs = fun _ => 0 := funext hzero
      rw [r.cache, update_self, hz, ← heq]
      rfl
    have hst : ((s'.setSlot k { s'.icache k with size := 0 }).note (.iupdate k)).write
        (IBLOCK (s'.icache k).inum) (withDinode s'.disk (s'.icache k).inum
          ({ s'.icache k with size := 0 } : Inode).toDinode)
        = s'.setInode k (V i).truncated := by
      rw [← hn]
      rfl
    exact hst ▸ h.of_released hk r hnone
  unfold itrunc
  refine (itruncDirect_spec (i := i) E (List.finRange NDIRECT) _ s ⟨h.super, h.owns⟩ ?_).seq ?_
  · intro m
    rw [refs_of_alloc hi ht, haddrs]
    rfl
  rintro - s₁ ⟨R₁, r₁, hd₁, -, hzero₁, hind₁, hri₁, hre₁⟩
  have hdirect₁ : ∀ m : Fin NDIRECT, R₁ (i, .direct m) = none := fun m => by
    rw [hd₁ m, hzero₁ m (List.mem_finRange m), toRef, if_pos rfl]
  simp only [wp_bind, wp_slot, wp_ite]
  rw [hind₁, haddrs]
  refine ⟨fun hne => ?_, fun h0 => ?_⟩
  · -- the indirect block and its entries
    set x := ((V i).addrs indirectSlot).toNat with hx
    have hrx : refs s.disk sb V (i, .indirect) = some x := refs_eq_some.mpr ⟨hi, ht, hne, rfl⟩
    rw [wp_bread, r₁.data x (h.ref_data hrx), wp_bind]
    refine (itruncEntries_spec (k := k) (i := i) E (s.disk x) (List.range NINDIRECT)
      List.nodup_range (fun j hj => List.mem_range.mp hj) R₁ s₁ r₁.releasing ?_).imp ?_
    · intro j _
      rw [hre₁ j, refs_of_alloc hi ht]
      simp only [Dinode.addrAt, if_neg hne]
      rfl
    rintro - s₂ ⟨R₂, r₂, hc₂, hnone₂, hkeep₂⟩
    have hx₂ : R₂ (i, .indirect) = some x := by
      rw [hkeep₂ .indirect (by simp), hri₁, hrx]
    rw [wp_bind]
    refine r₂.releasing.wp_bfree hx₂ ?_
    rw [wp_bind, wp_setAddr]
    refine hfin ((r₁.trans r₂).trans ((r₂.releasing.free hx₂).setAddr indirectSlot 0)) ?_ ?_
    · intro p
      cases p with
      | direct m => rw [update_of_ne (by simp), hkeep₂ _ (by simp), hdirect₁ m]
      | indirect => rw [update_self]
      | entry j =>
          rw [update_of_ne (by simp)]
          exact hnone₂ j (List.mem_range.mpr j.isLt)
    · intro l
      rw [setSlot_self]
      show update (s₂.icache k).addrs indirectSlot 0 l = 0
      refine Fin.lastCases ?_ (fun m => ?_) l
      · exact update_self indirectSlot 0 _
      · have hm : m.castSucc ≠ indirectSlot := (Fin.castSucc_lt_last m).ne
        rw [update_of_ne hm, hc₂, hzero₁ m (List.mem_finRange m)]
  · -- no indirect block, so no entries
    have h0' : (V i).addrs indirectSlot = 0 := not_not.mp h0
    refine hfin r₁ ?_ ?_
    · intro p
      cases p with
      | direct m => exact hdirect₁ m
      | indirect =>
          rw [hri₁, refs_of_alloc hi ht]
          simp [Dinode.addrAt, h0', toRef]
      | entry j =>
          rw [hre₁ j, refs_of_alloc hi ht]
          simp [Dinode.addrAt, h0', toRef]
    · intro l
      refine Fin.lastCases ?_ (fun m => ?_) l
      · exact hind₁.trans (haddrs ▸ h0')
      · exact hzero₁ m (List.mem_finRange m)

end Itrunc

end Nunix.Fs
