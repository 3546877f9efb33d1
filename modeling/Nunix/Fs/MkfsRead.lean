/-
Nunix/Fs/MkfsRead.lean

The kernel reads what `mkfs` wrote.

`mkfs` leaves an image that `Holds` its input files: inode `2 + e` has the bytes of file
`e`, and entry `2 + e` of the root directory names it.  From the other side, `namei` and
`readi` are followed from the mounted image on.  The root directory may have a hole:
`mkfs` rounds its size up to the next block even if the last block is full, and reading
the block that is not there makes `bmap` allocate it.  So the search through the root
directory is specified for a directory that lacks one block (`Listing`); on an image that
fits, a free block is there for it.
-/
import Nunix.Fs.DataArea
import Nunix.Fs.Paths

namespace Nunix.Fs

open Bytes Hoare Mkfs

variable {E : Halt → FsSt → Prop}

/-! ### Cache entries, exactly -/

section Exactly

variable {sb : Superblock} {H : List (Disk × ℕ)} {σ : Prop} {s s' : FsSt} {V V' : ℕ → Dinode}
  {k i j size e : ℕ} {c : Bytes}

/-- `iget` of an inode that is in the cache. -/
theorem iget_cached (h : Inv sb H σ s V) (href : 0 < (s.icache k).ref)
    (hinum : (s.icache k).inum = i) {Q : ℕ → FsSt → Prop}
    (hQ : Q k (s.setSlot k { s.icache k with ref := (s.icache k).ref + 1 })) :
    Wp (iget i) Q E s := by
  have hlt := h.cache.slot_lt href
  refine wp_iget (fun l hl hil => ?_) (fun l _ _ hnew => absurd hinum (hnew k hlt href))
    fun _ hnew => absurd hinum (hnew k hlt href)
  obtain rfl : l = k := h.cache.inj hl href (hil.trans hinum.symm)
  exact hQ

/-- `iget` of an inode that is not in the cache, which is not full. -/
theorem iget_fresh (h : Inv sb H σ s V) (hi : i < sb.ninodes)
    (hnew : ∀ l, 0 < (s.icache l).ref → (s.icache l).inum ≠ i)
    (hfree : ∃ l < NINODE, (s.icache l).ref = 0) :
    Wp (iget i) (fun k s' => (s.icache k).ref = 0 ∧ Inv sb H σ s' V ∧ s' = s.setSlot k
      { s.icache k with inum := i, ref := 1, busy := false, valid := false }) E s := by
  obtain ⟨l, hl, hl0⟩ := hfree
  exact wp_iget (fun k hpos hinum => absurd hinum (hnew k hpos))
    (fun k hk hk0 _ => ⟨hk0, h.setSlot (h.cache.insert hk hi hnew rfl rfl rfl), rfl⟩)
    fun hfull _ => absurd hl0 (hfull l hl)

/-- `ilock` of an entry that has not been read. -/
theorem ilock_first (h : Inv sb H σ s V) (href : 0 < (s.icache k).ref)
    (hbusy : (s.icache k).busy = false) (hvalid : (s.icache k).valid = false)
    (ht : (dinode s.disk (s.icache k).inum).type ≠ 0) :
    Wp (ilock k) (fun _ s' => Inv sb H σ s' (Function.update V (s.icache k).inum
        (dinode s.disk (s.icache k).inum)) ∧ Loaded s' k (s.icache k).inum ∧
      s'.disk = s.disk ∧ (s'.icache k).ref = (s.icache k).ref ∧ (s'.icache k).busy = true ∧
      ∀ l ≠ k, s'.icache l = s.icache l) E s := by
  unfold ilock
  simp only [wp_bind, wp_slot, wp_ite, wp_panic, wp_throw, wp_modifySlot, wp_get, wp_pure,
    setSlot_self, setSlot_disk]
  refine ⟨fun hbad => absurd href (by omega), fun _ => ⟨fun hb => ?_, fun _ => ⟨fun _ => ?_,
    fun hv => absurd hvalid hv⟩⟩⟩
  · rw [hbusy] at hb
    cases hb
  · have hupd : ∀ ip jp : Inode, (s.setSlot k ip).setSlot k jp = s.setSlot k jp := fun ip jp => by
      simp [FsSt.setSlot]
    refine wp_ite.mpr ⟨fun h0 => absurd h0 ht, fun _ => ?_⟩
    rw [wp_pure, hupd]
    exact ⟨h.load href rfl rfl rfl ht, ⟨by simpa using href, by simp, by simp⟩, rfl, by simp, by simp,
      fun l hl => setSlot_of_ne hl _⟩

/-- `iunlockput` of an entry that someone else refers to as well. -/
theorem iunlockput_shared (h : Inv sb H σ s V) (hbusy : (s.icache k).busy = true)
    (href : 2 ≤ (s.icache k).ref) :
    Wp (iunlockput k) (fun _ s' => Inv sb H σ s' V ∧ s'.disk = s.disk ∧
      ((s'.icache k).inum = (s.icache k).inum ∧ 0 < (s'.icache k).ref ∧
        (s'.icache k).busy = false) ∧ ∀ l ≠ k, s'.icache l = s.icache l) E s := by
  have hpos : 0 < (s.icache k).ref := by omega
  have hvalid := h.cache.valid hpos hbusy
  have hsame : ∀ {r : ℤ}, Inv sb H σ (s.setSlot k { s.icache k with ref := r, busy := false }) V :=
    h.setSlot (h.cache.set_same hpos rfl nofun fun hv => ⟨h.cache.copy hpos hv, h.cache.type_ne hpos hv⟩)
  unfold iunlockput iunlock iput
  simp only [wp_bind, wp_slot, wp_ite, wp_panic, wp_modifySlot, wp_note]
  refine ⟨fun hbad => ?_, fun _ => ⟨fun hlast => ?_, fun _ => ?_⟩⟩
  · rcases hbad with hb | hr
    · rw [hbusy] at hb
      cases hb
    · omega
  · -- someone else refers to the entry
    have h1 : (s.icache k).ref = 1 := by simpa using hlast.1
    omega
  · refine ⟨?_, rfl, ⟨by simp, ?_, by simp⟩, fun l hl => ?_⟩
    · refine (hsame (r := (s.icache k).ref - 1)).congr rfl ?_ rfl
      simp [FsSt.setSlot, FsSt.note]
    · simp
      omega
    · rw [setSlot_of_ne hl]
      exact setSlot_of_ne hl _

/-! ### Directories that lack a block -/

/-- Inode `i`, in entry `k`, is a directory of `size` bytes with the content `c`.  At most
one of its blocks is not there, and then it is a direct one and a block is free for it. -/
structure Listing (sb : Superblock) (H : List (Disk × ℕ)) (k i size : ℕ) (c : Bytes) (s : FsSt)
    (V : ℕ → Dinode) : Prop where
  inv : Inv sb H False s V
  loaded : Loaded s k i
  type : (V i).type = T_DIR
  size_eq : (V i).size.toNat = size
  content_eq : content s.disk (refs s.disk sb V) i = c
  blocks : ∀ bn, bn * BSIZE < size → blockOf (refs s.disk sb V) i bn = none →
    bn < NDIRECT ∧ firstFree s.disk ≠ none ∧
      ∀ bn' ≠ bn, bn' * BSIZE < size → blockOf (refs s.disk sb V) i bn' ≠ none

/-- Reading an entry finds it, and allocates its block if it was not there. -/
theorem Listing.read (h : Listing sb H k i size c s V) (he : DESIZE * e + DESIZE ≤ size)
    :
    Wp (readi k Bytes.zero (DESIZE * e) DESIZE) (fun r s' =>
      r = ((DESIZE : ℤ), Bytes.zero.blit 0 DESIZE (c.drop (DESIZE * e))) ∧
        ∃ V', Listing sb H k i size c s' V' ∧ Updated sb H k i s V c s' V') E s := by
  have heq := h.inv.inode_eq h.loaded
  have htype : (s.icache k).type = (V i).type := by rw [← heq]
  have hsize : (s.icache k).size = (V i).size := by rw [← heq]
  have hsz := (V i).size.toNat_lt
  rw [h.size_eq] at hsz
  have hoff : DESIZE * e % BSIZE + DESIZE ≤ BSIZE := by
    simp only [DESIZE, BSIZE]
    omega
  have hbn : DESIZE * e / BSIZE * BSIZE < size := by
    simp only [DESIZE, BSIZE] at *
    omega
  have hD : 0 < DESIZE := by decide
  unfold readi
  simp only [wp_bind, wp_slot, wp_ite]
  rw [htype, hsize, h.size_eq]
  refine ⟨fun hd => ?_, fun _ => ⟨fun hbad => ?_, fun _ => ?_⟩⟩
  · rw [h.type] at hd
    exact absurd hd (by decide)
  · omega
  · rw [if_neg (by omega), readiLoop, dif_pos hD, wp_bind]
    refine (bmap_spec h.inv.toCore h.loaded _).mono ?_ fun _ _ hE => ?_
    swap
    · -- a missing block is a direct one, and a block is free for it
      obtain ⟨hdir, hfree, -⟩ := h.blocks _ hbn hE.2.missing
      have hlt : DESIZE * e / BSIZE < MAXFILE := hdir.trans (by decide)
      exact ((hE.2.full hlt).2.elim hfree fun hind => absurd hind.1 (not_le.mpr hdir)).elim
    rintro b s' ⟨V', mp⟩
    have u := mp.updated h.inv.toCore h.loaded
    rw [h.content_eq] at u
    have hmin : min (DESIZE - 0) (BSIZE - DESIZE * e % BSIZE) = DESIZE := by omega
    rw [wp_bind, wp_bread]
    simp only [hmin, Nat.zero_add]
    rw [readiLoop, dif_neg (lt_irrefl _), wp_pure, wp_pure]
    refine ⟨?_, V', ⟨h.inv.of_updated u ?_ False.elim, u.loaded, ?_, ?_, u.content_self,
      fun bn hlt hnone => ?_⟩, u⟩
    · have hint : toInt32 DESIZE = DESIZE := rfl
      rw [hint]
      refine Prod.ext rfl (funext fun x => ?_)
      dsimp only
      by_cases hx : x < DESIZE
      · rw [blit_apply_of_mem (Nat.zero_le _) (by omega), blit_apply_of_mem (Nat.zero_le _) (by omega)]
        have hb := content_of_mapped (d := s'.disk) (y := x) mp.blockOf (by omega)
        rw [u.content_self] at hb
        exact hb.symm
      · rw [blit_apply_of_notMem (by omega), blit_apply_of_notMem (by omega)]
    · rw [← h.content_eq]
      exact h.inv.dirs i (h.inv.inum_lt h.loaded)
    · rw [u.inode]
      exact h.type
    · rw [u.inode]
      exact h.size_eq
    · -- a block that is missing now was missing before, and was not this one
      have hbefore : blockOf (refs s.disk sb V) i bn = none := by
        by_contra hsome
        exact blockOf_mono u.refs_mono hsome hnone
      obtain ⟨hdir, hfree, hothers⟩ := h.blocks bn hlt hbefore
      have hne : DESIZE * e / BSIZE ≠ bn := by
        rintro rfl
        rw [mp.blockOf] at hnone
        cases hnone
      obtain ⟨rfl, rfl⟩ := mp.eq_of_present (hothers _ hne hbn)
      exact ⟨hdir, hfree, hothers⟩

/-- The search of `dirlookup` ends at the entry `findFrom` finds, or at the end. -/
theorem Listing.lookup {name : List UInt8} {n : ℕ} (hn : size = DESIZE * n)
    {Q : Option (ℕ × ℕ) → FsSt → Prop} :
    ∀ (xs : List Slot) (e : ℕ) (s : FsSt) (V : ℕ → Dinode), e ≤ n →
      (slotsOf c size).drop e = xs → Listing sb H k i size c s V →
      (∀ s' V', Listing sb H k i size c s' V' → Updated sb H k i s V c s' V' →
        match findFrom (name.take DIRSIZ) e xs with
        | none => Q none s'
        | some (j, e') => Wp (iget j) (fun ip s'' => Q (some (ip, DESIZE * e')) s'') E s') →
      Wp (dirlookupLoop k name size (DESIZE * e)) Q E s := by
  have hlen : (slotsOf c size).length = n := by
    rw [length_slotsOf, hn, Nat.mul_div_cancel_left _ (by decide)]
  intro xs
  induction xs with
  | nil =>
      intro e s V he hdrop h hQ
      obtain rfl : e = n := hlen ▸ drop_eq_nil hdrop (hlen.symm ▸ he)
      rw [dirlookupLoop, dif_neg (by omega)]
      have u := Updated.refl h.inv.toCore h.loaded
      rw [h.content_eq] at u
      exact hQ s V h u
  | cons x xs ih =>
      intro e s V he hdrop h hQ
      obtain ⟨hlt, hx, hdrop'⟩ := drop_eq_cons hdrop
      have hslot : (slotsOf c size)[e]? = some (slotAt c e) :=
        getElem?_slotsOf (by simpa using hlt)
      obtain rfl := Option.some.inj (hx.symm.trans hslot)
      rw [hlen] at hlt
      have hend : DESIZE * e + DESIZE ≤ size := by
        rw [hn, ← Nat.mul_succ]
        exact Nat.mul_le_mul_left _ hlt
      rw [dirlookupLoop, dif_pos (by simp only [DESIZE] at *; omega), wp_bind]
      refine (h.read hend).imp ?_
      rintro r s₁ ⟨rfl, V₁, h₁, u₁⟩
      have hin := congrArg Prod.fst (slotAt_read (c := c) (e := e))
      have hnm := congrArg Prod.snd (slotAt_read (c := c) (e := e))
      simp only at hin hnm
      simp only [wp_ite, wp_bind]
      refine ⟨fun hbad => absurd rfl hbad, fun _ => ⟨fun hmatch => ?_, fun hno => ?_⟩⟩
      · rw [namecmp_eq_false, deName_take, hin, hnm] at hmatch
        have hQ' := hQ s₁ V₁ h₁ u₁
        rw [findFrom, if_pos ⟨hmatch.1, hmatch.2.symm⟩] at hQ'
        rw [hin]
        exact hQ'
      · rw [namecmp_eq_false, deName_take, hin, hnm] at hno
        rw [findFrom, if_neg fun hx' => hno ⟨hx'.1, hx'.2.symm⟩] at hQ
        exact ih (e + 1) s₁ V₁ hlt hdrop' h₁ fun s' V' h' u' => hQ s' V' h' (u₁.trans u')

end Exactly

/-! ### The root directory of an image -/

section Root

variable {files : List HostFile} {m : Img} {name : List UInt8} {f : HostFile}

/-- The size of the root directory. -/
def rootSize (files : List HostFile) : ℕ := (DESIZE * (2 + files.length) / BSIZE + 1) * BSIZE

/-- The entries of the root directory. -/
def rootSlots (files : List HostFile) : List Slot := slotsOf (dirBytes (rootEntry files)) (rootSize files)

theorem slotAt_dirBytes (E : ℕ → Bytes) (e : ℕ) :
    slotAt (dirBytes E) e = (deInum (E e), deName (E e)) := by
  have hbyte : ∀ a < DESIZE, dirBytes E (DESIZE * e + a) = E e a := by
    intro a ha
    unfold dirBytes
    rw [Nat.mul_add_div (by decide), Nat.div_eq_of_lt ha, Nat.mul_add_mod, Nat.mod_eq_of_lt ha,
      Nat.add_zero]
  refine Prod.ext (get16_congr fun a ha => ?_) (deName_congr fun a ha => ?_)
  · rw [hbyte a (ha.trans (by decide)), Nat.zero_add]
  · refine hbyte (2 + a) ?_
    simp only [DIRSIZ, DESIZE] at *
    omega

/-- Some block of the disk is free. -/
theorem Mkfs.Image.free (h : Image files m) (hroom : m.freeblock < Mkfs.size) :
    firstFree m.disk ≠ none := by
  intro hnone
  have hall := List.find?_eq_none.mp hnone m.freeblock
  rw [h.counted.super] at hall
  have := hall (List.mem_range.mpr hroom)
  rw [show sb.ninodes = ninodes from rfl, h.bits _ hroom] at this
  simp at this

/-- The root directory of the mounted image, once it has been read. -/
theorem Mkfs.Image.listing (h : Image files m) (hH : Holds files m) (hlen : files.length + 2 ≤ ninodes)
    (hroom : m.freeblock < Mkfs.size) {s : FsSt} (hI : Inv sb [] False s (dinode m.disk))
    (hd : s.disk = m.disk) (hl : Loaded s 0 ROOTINO) :
    Listing sb [] 0 ROOTINO (rootSize files) (dirBytes (rootEntry files)) s (dinode m.disk) where
  inv := hI
  loaded := hl
  type := h.root
  size_eq := h.root_size
  content_eq := by
    rw [hd]
    exact hH.root
  blocks bn hlt hnone := by
    rw [hd] at hnone ⊢
    have hmiss : ∀ bn, blockOf (refs m.disk sb (dinode m.disk)) ROOTINO bn = none →
        DESIZE * (2 + files.length) ≤ bn * BSIZE := by
      intro bn hbn
      by_contra hlt
      exact (h.root_blocks.blocks bn).mpr (not_le.mp hlt) hbn
    have hge := hmiss bn hnone
    refine ⟨?_, h.free hroom, fun bn' hne hlt' hnone' => ?_⟩
    · simp only [rootSize, DESIZE, BSIZE, NDIRECT, ninodes] at *
      omega
    · have hge' := hmiss bn' hnone'
      simp only [rootSize, DESIZE, BSIZE] at *
      omega

/-- Entry `ip` of the cache is for inode `j`.  If it is not the root, it has not been read
yet, and the file is the one on the image. -/
structure Resolved (m : Img) (j ip : ℕ) (s : FsSt) (V : ℕ → Dinode) : Prop where
  inv : Inv sb [] False s V
  inum : (s.icache ip).inum = j
  ref : 0 < (s.icache ip).ref
  busy : (s.icache ip).busy = false
  fresh : j ≠ ROOTINO → (s.icache ip).valid = false
  disk : j ≠ ROOTINO → dinode s.disk j = dinode m.disk j
  table : j ≠ ROOTINO → V j = dinode m.disk j
  content : j ≠ ROOTINO → content s.disk (refs s.disk sb V) j
    = content m.disk (refs m.disk sb (dinode m.disk)) j
  refs_mono : ∀ {p b}, refs m.disk sb (dinode m.disk) p = some b → refs s.disk sb V p = some b

/-- The root directory is in entry 0, locked and referenced twice, and nothing else is in
the cache. -/
structure Only (s : FsSt) : Prop where
  inum : (s.icache 0).inum = ROOTINO
  busy : (s.icache 0).busy = true
  ref : 2 ≤ (s.icache 0).ref
  rest : ∀ l ≠ 0, (s.icache l).ref = 0

theorem Only.updated {s s' : FsSt} {V V' : ℕ → Dinode} {c : Bytes} (h : Only s)
    (u : Updated sb [] 0 ROOTINO s V c s' V') : Only s' := by
  have hslot : s'.icache 0 = { s.icache 0 with toDinode := V' ROOTINO } := by
    rw [u.cache, Function.update_self]
  refine ⟨?_, ?_, ?_, fun l hl => ?_⟩
  · rw [hslot]
    exact h.inum
  · rw [hslot]
    exact h.busy
  · rw [hslot]
    exact h.ref
  · rw [u.cache, Function.update_of_ne hl]
    exact h.rest l hl

theorem Only.iget {s : FsSt} {V : ℕ → Dinode} {j : ℕ} (h : Only s) (hI : Inv sb [] False s V)
    (hj : j < ninodes) :
    Wp (Fs.iget j) (fun ip s' => Inv sb [] False s' V ∧ s'.disk = s.disk ∧
      (s'.icache 0).busy = true ∧ 2 ≤ (s'.icache 0).ref ∧ (s'.icache ip).inum = j ∧
      (ip ≠ 0 → 0 < (s'.icache ip).ref ∧ (s'.icache ip).busy = false ∧
        (s'.icache ip).valid = false) ∧ (j ≠ ROOTINO → ip ≠ 0)) E s := by
  have hpos : 0 < (s.icache 0).ref := lt_of_lt_of_le two_pos h.ref
  by_cases hroot : j = ROOTINO
  · subst hroot
    refine iget_cached hI hpos h.inum ⟨hI.addRef hpos, rfl, ?_, ?_, ?_, fun hne => absurd rfl hne,
      fun hne => absurd rfl hne⟩ <;> rw [setSlot_self]
    · exact h.busy
    · show 2 ≤ (s.icache 0).ref + 1
      have := h.ref
      omega
    · exact h.inum
  · have hnew : ∀ l, 0 < (s.icache l).ref → (s.icache l).inum ≠ j := by
      intro l hl
      by_cases hl0 : l = 0
      · rw [hl0, h.inum]
        exact Ne.symm hroot
      · rw [h.rest l hl0] at hl
        cases hl
    refine (iget_fresh hI hj hnew ⟨1, by decide, h.rest 1 one_ne_zero⟩).imp ?_
    rintro ip s' ⟨hfree, hI', rfl⟩
    have hne : ip ≠ 0 := by
      rintro rfl
      rw [hfree] at hpos
      cases hpos
    refine ⟨hI', rfl, ?_, ?_, ?_, fun _ => ⟨?_, ?_, ?_⟩, fun _ => hne⟩
    · rw [setSlot_of_ne hne.symm]
      exact h.busy
    · rw [setSlot_of_ne hne.symm]
      exact h.ref
    all_goals rw [setSlot_self]
    exact Int.one_pos

/-- A path of one component. -/
theorem skipelem_root (hne : name ≠ []) (hslash : slash ∉ name) :
    skipelem (slash :: name) = some ([], name.take DIRSIZ) := by
  obtain ⟨c, cs, rfl⟩ := List.exists_cons_of_ne_nil hne
  obtain ⟨hc, hcs⟩ := not_or.mp fun h => hslash (List.mem_cons.mpr h)
  have hdrop : (slash :: c :: cs).dropWhile (· = slash) = c :: cs := by
    simp [Ne.symm hc]
  have hno : ∀ a ∈ c :: cs, decide (a ≠ slash) = true := by
    intro a ha
    simp only [decide_eq_true_eq]
    rintro rfl
    exact hslash ha
  have hrest : (c :: cs ++ []).dropWhile (fun a => decide (a ≠ slash)) = [].dropWhile _ :=
    List.dropWhile_append_of_pos hno
  have helem : (c :: cs ++ []).takeWhile (fun a => decide (a ≠ slash)) = c :: cs ++ [].takeWhile _ :=
    List.takeWhile_append_of_pos hno
  rw [List.append_nil] at hrest helem
  unfold skipelem
  rw [hdrop]
  simp only
  rw [helem, hrest, List.takeWhile_nil, List.append_nil]
  rfl

theorem namexLoop_nil (ip : ℕ) (name : List UInt8) :
    namexLoop false [] ip name = pure (some (ip, name)) := by
  rw [namexLoop]
  rfl

/-- A name in the root is looked up, and the root let go. -/
theorem lookup_image {s : FsSt} (name : List UInt8) (ho : Only s) (hL : Listing sb [] 0 ROOTINO (rootSize files)
    (dirBytes (rootEntry files)) s (dinode m.disk)) (hd : s.disk = m.disk) :
    Wp (do
      match ← dirlookup 0 name with
      | none =>
          iunlockput 0
          return none
      | some (next, _) =>
          iunlockput 0
          namexLoop false [] next name) (fun r s =>
        match findFrom (name.take DIRSIZ) 0 (rootSlots files) with
        | none => r = none
        | some (j, _) => ∃ ip V, r = some (ip, name) ∧ Resolved m j ip s V) (fun _ _ => False) s := by
  have heq := hL.inv.inode_eq hL.loaded
  have htype : (s.icache 0).type = T_DIR := by
    rw [show (s.icache 0).type = (dinode m.disk ROOTINO).type by rw [← heq]]
    exact hL.type
  have hsize : (s.icache 0).size.toNat = rootSize files := by
    rw [show (s.icache 0).size = (dinode m.disk ROOTINO).size by rw [← heq]]
    exact hL.size_eq
  have hmul : rootSize files = DESIZE * (rootSize files / DESIZE) := by
    simp only [rootSize, DESIZE, BSIZE]
    omega
  unfold dirlookup
  simp only [wp_bind, wp_slot, wp_ite, htype, hsize]
  refine ⟨fun hbad => absurd rfl hbad, fun _ => ?_⟩
  refine Listing.lookup hmul (rootSlots files) 0 s _ (Nat.zero_le _) rfl hL fun s₁ V₁ hL₁ u₁ => ?_
  have ho₁ := ho.updated u₁
  rcases hfind : findFrom (name.take DIRSIZ) 0 (rootSlots files) with - | ⟨j, e⟩
  · dsimp only
    rw [wp_bind]
    exact (iunlockput_shared hL₁.inv ho₁.busy ho₁.ref).imp fun _ _ _ => rfl
  · dsimp only
    obtain ⟨-, hslot, -⟩ := findFrom_eq_some hfind
    have hj : j < ninodes := by
      have hlt : e < rootSize files / DESIZE := by
        by_contra hge
        rw [rootSlots, List.getElem?_eq_none (by rw [length_slotsOf]; omega)] at hslot
        cases hslot
      rw [Nat.sub_zero, rootSlots, getElem?_slotsOf hlt] at hslot
      rw [← (Prod.mk.inj (Option.some.inj hslot)).1, ← hL.content_eq]
      refine hL.inv.dirs _ (hL.inv.inum_lt hL.loaded) hL.type e ?_
      rw [hL.size_eq]
      simp only [DESIZE] at *
      omega
    refine (ho₁.iget hL₁.inv hj).imp ?_
    rintro ip s₂ ⟨hI₂, hd₂, hbusy₂, href₂, hinum₂, hfresh₂, hne₂⟩
    refine (iunlockput_shared hI₂ hbusy₂ href₂).seq ?_
    rintro - s₃ ⟨hI₃, hd₃, hroot₃, hrest₃⟩
    rw [namexLoop_nil, wp_pure]
    -- the entry is the root, or a new one
    have hip : (s₃.icache ip).inum = j ∧ 0 < (s₃.icache ip).ref ∧ (s₃.icache ip).busy = false ∧
        (j ≠ ROOTINO → (s₃.icache ip).valid = false) := by
      by_cases hip : ip = 0
      · subst hip
        exact ⟨hroot₃.1.trans hinum₂, hroot₃.2.1, hroot₃.2.2, fun hne => absurd rfl (hne₂ hne)⟩
      · rw [hrest₃ ip hip]
        exact ⟨hinum₂, (hfresh₂ hip).1, (hfresh₂ hip).2.1, fun _ => (hfresh₂ hip).2.2⟩
    have hd₁ : s₃.disk = s₁.disk := hd₃.trans hd₂
    refine ⟨ip, V₁, rfl, ⟨hI₃, hip.1, hip.2.1, hip.2.2.1, hip.2.2.2, fun _ => ?_, fun hne => u₁.table j hne,
      fun hne => ?_, fun hp => ?_⟩⟩
    · rw [hd₁, u₁.inodes j hj, hd]
    · rw [hd₁, u₁.content_of_ne j hne, hd]
    · rw [hd₁]
      exact u₁.refs_mono (by rw [hd]; exact hp)

/-- `namei` of a name in the root of the mounted image. -/
theorem namei_image (h : Image files m) (hH : Holds files m) (hlen : files.length + 2 ≤ ninodes)
    (hroom : m.freeblock < Mkfs.size) (con : ℕ → ℤ × Bytes) (hne : name ≠ [])
    (hslash : slash ∉ name) :
    Wp (namei (slash :: name)) (fun r s =>
      match findFrom (name.take DIRSIZ) 0 (rootSlots files) with
      | none => r = none
      | some (j, _) => ∃ ip V, r = some ip ∧ Resolved m j ip s V) (fun _ _ => False)
      (mounted m.disk con) := by
  have hI := h.inv hroom.le con
  have htype : (dinode m.disk ROOTINO).type ≠ 0 := by
    rw [h.root]
    decide
  unfold namei namex
  have hhead : (slash :: name).head? = some slash := rfl
  rw [wp_bind, if_pos hhead, wp_bind]
  -- the root is in the cache, but has not been read
  have href : 0 < ((mounted m.disk con).icache 0).ref := Int.one_pos
  refine iget_cached hI href rfl ?_
  have hI₁ := hI.addRef href
  set s₁ := (mounted m.disk con).setSlot 0 _ with hs₁
  have hslot : s₁.icache 0 = { (mounted m.disk con).icache 0 with ref := 2 } := by
    rw [hs₁, setSlot_self]
    rfl
  have hinum : (s₁.icache 0).inum = ROOTINO := by rw [hslot]; rfl
  show Wp (namexLoop false (slash :: name) 0 []) _ _ s₁
  rw [namexLoop]
  split
  · rename_i rest name' hskip
    obtain ⟨rfl, rfl⟩ := Prod.mk.inj (Option.some.inj ((skipelem_root hne hslash).symm.trans hskip))
    refine (ilock_first hI₁ (by rw [hslot]; exact (two_pos : (0 : ℤ) < 2)) (by rw [hslot]; rfl)
      (by rw [hslot]; rfl) (by rw [hinum]; exact htype)).seq ?_
    rintro - s₂ ⟨hI₂, hl₂, hd₂, href₂, hbusy₂, hrest₂⟩
    have hd₁ : s₁.disk = m.disk := rfl
    rw [hinum, hd₁, Function.update_eq_self] at hI₂
    rw [hinum] at hl₂
    have hL := h.listing hH hlen hroom hI₂ hd₂ hl₂
    have ho : Only s₂ := by
      refine ⟨hl₂.inum, hbusy₂, ?_, fun l hl => ?_⟩
      · rw [href₂, hslot]
      · rw [hrest₂ l hl, hs₁, setSlot_of_ne hl]
        exact if_neg hl
    have htype₂ : (s₂.icache 0).type = T_DIR := by
      have heq := hI₂.inode_eq hl₂
      rw [show (s₂.icache 0).type = (dinode m.disk ROOTINO).type by rw [← heq]]
      exact h.root
    rw [wp_bind, wp_slot, htype₂, if_neg (fun hbad => hbad rfl), if_neg (fun hp => nomatch hp.1)]
    have htake : (name.take DIRSIZ).take DIRSIZ = name.take DIRSIZ := by
      rw [List.take_take, Nat.min_self]
    have hlook := lookup_image (name.take DIRSIZ) ho hL hd₂
    rw [htake] at hlook
    refine hlook.imp fun r s hr => ?_
    split at hr
    · subst hr
      rfl
    · obtain ⟨ip, V, rfl, hres⟩ := hr
      exact ⟨ip, V, rfl, hres⟩
  · rename_i hskip
    rw [skipelem_root hne hslash] at hskip
    cases hskip

/-! ### Names -/

/-- The input files fit on an image.  Their names are C strings that, without one leading
underscore, are not empty, not "." or "..", and differ in the bytes that an entry has room
for; no file is too large, and inodes and blocks suffice. -/
structure Inputs (files : List HostFile) : Prop where
  noNul : ∀ f ∈ files, (0 : UInt8) ∉ f.name
  nonempty : ∀ f ∈ files, f.target ≠ []
  dots : ∀ f ∈ files, f.target ≠ dot ∧ f.target ≠ dotdot
  distinct : (files.map fun f => f.target.take DIRSIZ).Nodup
  size : ∀ f ∈ files, f.size ≤ MAXFILE * BSIZE
  inodes : files.length + 2 ≤ ninodes
  blocks : nmeta sb + dataBlocks 2 files ≤ Mkfs.size - LOGSIZE

theorem mem_of_mem_target {b : UInt8} (h : b ∈ f.target) : b ∈ f.name := by
  unfold HostFile.target at h
  split_ifs at h
  · exact List.mem_of_mem_tail h
  · exact h

theorem slot_dirent {inum : ℕ} (hi : inum < 2 ^ 16) (hname : (0 : UInt8) ∉ name) :
    (deInum (dirent inum name), deName (dirent inum name)) = (inum, name.take DIRSIZ) := by
  rw [deInum_dirent hi, deName_dirent, takeWhile_ne_zero fun h0 => hname (List.mem_of_mem_take h0)]

/-- What entry `e` of the root directory says. -/
theorem rootSlots_getElem? (hin : Inputs files) {e : ℕ} {x : Slot} (hx : (rootSlots files)[e]? = some x) :
    x = (ROOTINO, dot) ∧ e = 0 ∨ x = (ROOTINO, dotdot) ∧ e = 1 ∨ x.1 = 0 ∨
      ∃ e' f, e = 2 + e' ∧ files[e']? = some f ∧ x = (2 + e', f.target.take DIRSIZ) := by
  have hlt : e < rootSize files / DESIZE := by
    by_contra hge
    rw [rootSlots, List.getElem?_eq_none (by rw [length_slotsOf]; omega)] at hx
    cases hx
  rw [rootSlots, getElem?_slotsOf hlt, slotAt_dirBytes] at hx
  obtain rfl := Option.some.inj hx
  match e with
  | 0 => exact Or.inl ⟨slot_dirent (by decide) (by decide), rfl⟩
  | 1 => exact Or.inr (Or.inl ⟨slot_dirent (by decide) (by decide), rfl⟩)
  | e + 2 =>
      refine Or.inr (Or.inr ?_)
      rcases hf : files[e]? with - | f
      · left
        simp only [rootEntry, hf]
        exact get16_zero 0
      · right
        have hlen : e < files.length := (List.getElem?_eq_some_iff.mp hf).1
        have hinodes := hin.inodes
        refine ⟨e, f, Nat.add_comm _ _, hf, ?_⟩
        simp only [rootEntry, hf, Option.map_some, Option.getD_some]
        refine slot_dirent ?_ fun h0 => ?_
        · simp only [ninodes] at hinodes
          omega
        · exact hin.noNul f (List.mem_of_getElem? hf) (mem_of_mem_target h0)

/-- The entry of a file. -/
theorem rootSlots_file (hin : Inputs files) {e : ℕ} (hf : files[e]? = some f) :
    (rootSlots files)[2 + e]? = some (2 + e, f.target.take DIRSIZ) := by
  have hlen : e < files.length := (List.getElem?_eq_some_iff.mp hf).1
  have hinodes := hin.inodes
  have hlt : 2 + e < rootSize files / DESIZE := by
    simp only [rootSize, DESIZE, BSIZE]
    omega
  rw [rootSlots, getElem?_slotsOf hlt, slotAt_dirBytes, Nat.add_comm 2 e]
  simp only [rootEntry, hf, Option.map_some, Option.getD_some, Nat.add_comm 2 e]
  refine congrArg some (slot_dirent ?_ fun h0 => ?_)
  · simp only [ninodes] at hinodes
    omega
  · exact hin.noNul f (List.mem_of_getElem? hf) (mem_of_mem_target h0)

/-- A cut name is no dot if the name is none. -/
theorem take_ne_of_short {l : List UInt8} (h : name ≠ l) (hl : l.length < DIRSIZ) :
    name.take DIRSIZ ≠ l := by
  rintro rfl
  rw [List.length_take] at hl
  exact h (List.take_of_length_le (by omega)).symm

/-- The search in the root finds the inode of a file. -/
theorem findFrom_file (hin : Inputs files) {e : ℕ} (hf : files[e]? = some f) :
    ∃ e', findFrom (f.target.take DIRSIZ) 0 (rootSlots files) = some (2 + e, e') := by
  have hmem : f ∈ files := List.mem_of_getElem? hf
  obtain ⟨hdot, hdotdot⟩ := hin.dots f hmem
  rcases hfind : findFrom (f.target.take DIRSIZ) 0 (rootSlots files) with - | ⟨j, e'⟩
  · -- the entry is there
    refine absurd rfl (findFrom_eq_none hfind _ (List.mem_of_getElem? (rootSlots_file hin hf)) ?_)
    simp
  · obtain ⟨-, hget, hj⟩ := findFrom_eq_some hfind
    refine ⟨e', ?_⟩
    rcases rootSlots_getElem? hin hget with ⟨hx, -⟩ | ⟨hx, -⟩ | hx | ⟨e₁, f₁, -, hf₁, hx⟩
    · exact absurd (Prod.mk.inj hx).2 (take_ne_of_short hdot (by decide))
    · exact absurd (Prod.mk.inj hx).2 (take_ne_of_short hdotdot (by decide))
    · exact absurd hx hj
    · obtain ⟨rfl, hname⟩ := Prod.mk.inj hx
      -- two files with one name are one file
      have hsame : e₁ = e := by
        refine (List.getElem?_inj ?_ hin.distinct).mp ?_
        · rw [List.length_map]
          exact (List.getElem?_eq_some_iff.mp hf₁).1
        · rw [List.getElem?_map, List.getElem?_map, hf₁, hf]
          exact congrArg some hname.symm
      rw [hsame]

/-- What the search in the root finds: ".", ".." and the files. -/
theorem findFrom_isSome (hin : Inputs files) :
    (findFrom (name.take DIRSIZ) 0 (rootSlots files)).isSome ↔
      name.take DIRSIZ ∈ dot :: dotdot :: files.map fun f => f.target.take DIRSIZ := by
  rw [List.mem_cons, List.mem_cons, List.mem_map]
  constructor
  · intro hsome
    obtain ⟨⟨j, e⟩, hfind⟩ := Option.isSome_iff_exists.mp hsome
    obtain ⟨-, hget, hj⟩ := findFrom_eq_some hfind
    rcases rootSlots_getElem? hin hget with ⟨hx, -⟩ | ⟨hx, -⟩ | hx | ⟨e', f, -, hf, hx⟩
    · exact Or.inl (Prod.mk.inj hx).2
    · exact Or.inr (Or.inl (Prod.mk.inj hx).2)
    · exact absurd hx hj
    · exact Or.inr (Or.inr ⟨f, List.mem_of_getElem? hf, (Prod.mk.inj hx).2.symm⟩)
  · intro hname
    rw [Option.isSome_iff_ne_none]
    intro hnone
    -- there is an entry with the name
    have hentry : ∀ {i e : ℕ}, (rootSlots files)[e]? = some (i, name.take DIRSIZ) → i ≠ 0 → False :=
      fun hget hi => findFrom_eq_none hnone _ (List.mem_of_getElem? hget) hi rfl
    have hlt : ∀ e < 2, (rootSlots files)[e]? =
        some (deInum (rootEntry files e), deName (rootEntry files e)) := by
      intro e he
      rw [rootSlots, getElem?_slotsOf, slotAt_dirBytes]
      simp only [rootSize, DESIZE, BSIZE]
      omega
    rcases hname with h | h | ⟨f, hf, h⟩
    · refine hentry (i := ROOTINO) (e := 0) ?_ (by decide)
      rw [hlt 0 (by decide), h]
      exact congrArg some (slot_dirent (by decide) (by decide))
    · refine hentry (i := ROOTINO) (e := 1) ?_ (by decide)
      rw [hlt 1 (by decide), h]
      exact congrArg some (slot_dirent (by decide) (by decide))
    · obtain ⟨e, he⟩ := List.mem_iff_getElem?.mp hf
      rw [← h] at hentry
      exact hentry (rootSlots_file hin he) (by omega)

/-! ### The kernel and mkfs agree -/

/-- Look a path up and read the whole file. -/
def readWhole (path : List UInt8) : FsM (Option (ℤ × Bytes)) := do
  let some ip ← namei path | return none
  ilock ip
  let n := (← slot ip).size.toNat
  return some (← readi ip Bytes.zero 0 n)

/-- An inode that `namei` found is read as the file it is. -/
theorem Resolved.read {s : FsSt} {V : ℕ → Dinode} {j ip : ℕ} {bs : List UInt8}
    (h : Resolved m j ip s V) (hj : j ≠ ROOTINO) (hjn : j < ninodes) (hf : FileIs m j bs)
    (hs : Mkfs.Filled m) (hmax : bs.length ≤ MAXFILE * BSIZE) :
    Wp (do
      ilock ip
      let n := (← slot ip).size.toNat
      return some (← readi ip Bytes.zero 0 n))
      (fun r _ => r = some ((bs.length : ℤ), fun x => bs.getD x 0)) E s := by
  have ht : (dinode m.disk j).type ≠ 0 := by
    rw [hf.type]
    decide
  refine (ilock_first h.inv h.ref h.busy (h.fresh hj) (by rw [h.inum, h.disk hj]; exact ht)).seq ?_
  rintro - s₁ ⟨hI, hl, hd, -, -, -⟩
  rw [h.inum, h.disk hj, ← h.table hj, Function.update_eq_self] at hI
  rw [h.inum] at hl
  have hsize : (V j).size.toNat = bs.length := by
    rw [h.table hj]
    exact hf.size
  have hsize' : (s₁.icache ip).size.toNat = bs.length := by
    rw [← hsize, ← hI.inode_eq hl]
  have hpres : Present (refs s₁.disk sb V) j 0 bs.length := by
    intro x _ hx
    rw [hd]
    refine blockOf_mono h.refs_mono (((hs j hjn hj ht).blocks _).mpr ?_)
    rw [hf.size]
    exact (Nat.div_mul_le_self x BSIZE).trans_lt (by omega)
  rw [wp_bind, wp_slot, hsize', wp_bind]
  refine readi_present hI.toCore hl ?_ Bytes.zero ?_ ?_ hpres ?_
  · rw [h.table hj, hf.type]
    decide
  · rw [hsize, Nat.zero_add]
  · exact hmax.trans_lt (by decide)
  · rw [wp_pure, hd, h.content hj, hf.content]
    refine congrArg some (Prod.ext rfl (funext fun x => ?_))
    dsimp only
    by_cases hx : x < bs.length
    · rw [blit_apply_of_mem (Nat.zero_le _) (by omega), drop_zero, Nat.sub_zero]
    · rw [blit_apply_of_notMem (by omega), List.getD_eq_getElem?_getD,
        List.getElem?_eq_none (by omega)]
      rfl

/-- `mkfs` stops at a name with a slash. -/
theorem Inputs.fits (h : Inputs files) (hname : ∀ f ∈ files, slash ∉ f.name) : Mkfs.Fits files := by
  refine ⟨hname, h.size, h.inodes, ?_⟩
  have hmeta : nmeta sb + nblocks + LOGSIZE = Mkfs.size := by decide
  have := h.blocks
  omega

/-- **`mkfs` and the kernel agree.**  For every list of input files in the bounds, `mkfs`
writes an image unless a name has a slash in it.  On the image, `namei` of the name of an
input file finds an inode, and `readi` from its start to its size returns the bytes of the
file, in whatever pieces the host read it; and the names that resolve in the root are those
of the files, "." and "..", up to `DIRSIZ` bytes.  No call panics. -/
theorem mkfs_kernel_agree (files : List HostFile) (hin : Inputs files) (con : ℕ → ℤ × Bytes) :
    ((mkfs files).isSome ↔ ∀ f ∈ files, slash ∉ f.name) ∧
    ∀ m, mkfs files = some m →
      (∀ f ∈ files, ∃ s', readWhole (slash :: f.target) (mounted m.disk con) =
        .ok (some ((f.bytes.length : ℤ), fun x => f.bytes.getD x 0)) s') ∧
      ∀ name, name ≠ [] → slash ∉ name → ∃ r s',
        namei (slash :: name) (mounted m.disk con) = .ok r s' ∧
        (r.isSome ↔ name.take DIRSIZ ∈ dot :: dotdot :: files.map fun f => f.target.take DIRSIZ) := by
  have hslash : ∀ {m}, mkfs files = some m → ∀ f ∈ files, slash ∉ f.name := by
    intro m hm
    rw [mkfs] at hm
    obtain ⟨m₀, -, hm⟩ := Option.bind_eq_some_iff.mp hm
    obtain ⟨m₁, hm₁, -⟩ := Option.bind_eq_some_iff.mp hm
    exact slash_notMem_of_addFiles hm₁
  refine ⟨⟨fun hsome => ?_, fun hname => ?_⟩, fun m hm => ?_⟩
  · obtain ⟨m, hm⟩ := Option.isSome_iff_exists.mp hsome
    exact hslash hm
  · obtain ⟨m, hm, -⟩ := mkfs_spec (hin.fits hname)
    rw [hm]
    rfl
  · obtain ⟨m', hm', him, hH, hs⟩ := mkfs_spec (hin.fits (hslash hm))
    obtain rfl := Option.some.inj (hm'.symm.trans hm)
    have hroom : m'.freeblock < Mkfs.size := by
      have hlog : 0 < LOGSIZE := by decide
      have hsize : LOGSIZE ≤ Mkfs.size := by decide
      have := hin.blocks
      rw [him.freeblock]
      omega
    refine ⟨fun f hf => ?_, fun name hne hno => ?_⟩
    · obtain ⟨e, he⟩ := List.mem_iff_getElem?.mp hf
      obtain ⟨e', hfind⟩ := findFrom_file hin he
      have hlen : e < files.length := (List.getElem?_eq_some_iff.mp he).1
      have hinodes := hin.inodes
      have hno : slash ∉ f.target := fun hs => hslash hm f hf (mem_of_mem_target hs)
      have hnamei := namei_image him hH hinodes hroom con (hin.nonempty f hf) hno
      rw [hfind] at hnamei
      have hread : Wp (readWhole (slash :: f.target))
          (fun r _ => r = some ((f.bytes.length : ℤ), fun x => f.bytes.getD x 0))
          (fun _ _ => False) (mounted m'.disk con) := by
        refine wp_bind.mpr (hnamei.imp ?_)
        rintro r s ⟨ip, V, rfl, hres⟩
        refine hres.read ?_ (by omega) (hH.file e f he) hs ?_
        · have : ROOTINO = 1 := rfl
          omega
        · rw [HostFile.bytes_length]
          exact hin.size f hf
      obtain ⟨r, s', hok, rfl⟩ := hread.exists_ok
      exact ⟨s', hok⟩
    · obtain ⟨r, s', hok, hr⟩ := (namei_image him hH hin.inodes hroom con hne hno).exists_ok
      refine ⟨r, s', hok, ?_⟩
      rw [← findFrom_isSome hin]
      split at hr
      · rename_i hfind
        rw [hfind, hr]
        simp
      · rename_i j e hfind
        obtain ⟨ip, V, rfl, -⟩ := hr
        rw [hfind]
        simp

end Root

/-- A program of three bytes, read in two pieces, and a file of one. -/
def catAndReadme : List HostFile :=
  [⟨[95, 99, 97, 116], [[1, 2], [3]], by decide⟩, ⟨[82, 69, 65, 68, 77, 69], [[4]], by decide⟩]

theorem cat_read_back : ∃ m, mkfs catAndReadme = some m ∧
    ∃ s', readWhole [47, 99, 97, 116] (mounted m.disk fun _ => (0, Bytes.zero)) =
      .ok (some ((3 : ℤ), fun x => [1, 2, 3].getD x 0)) s' := by
  have hin : Inputs catAndReadme :=
    ⟨by decide, by decide, by decide, by decide, by decide, by decide, by decide⟩
  obtain ⟨hsome, hread⟩ := mkfs_kernel_agree catAndReadme hin fun _ => (0, Bytes.zero)
  obtain ⟨m, hm⟩ := Option.isSome_iff_exists.mp (hsome.mpr (by decide))
  exact ⟨m, hm, (hread m hm).1 _ List.mem_cons_self⟩

end Nunix.Fs
