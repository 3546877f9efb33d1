/-
Nunix/Fs/Cache.lean

The inode cache: references, locks, and the life of an inode.

The callers of the inode layer hold references to cache entries: `held` lists them,
one for each reference, and the current directory of the process has one more.
`Good held s` is the invariant together with these references, and `Frame held s s'`
says that the entries they refer to still hold the same inodes.  Every function of
the cache is specified by how it changes `held`.
-/
import Nunix.Fs.Trunc

namespace Nunix.Fs

open Bytes Hoare
open Function (update update_eq_self update_idem update_of_ne update_self)

/-! ### References -/

/-- The entries in `held`, and the current directory, are referenced as often as they
are listed. -/
def Refs (s : FsSt) (held : List ℕ) : Prop :=
  ∀ k, (held.count k : ℤ) + (if k = s.cwd then 1 else 0) ≤ (s.icache k).ref

/-- The invariant, for some table, with the references `held`. -/
structure Good (sb : Superblock) (H : List (Disk × ℕ)) (σ : Prop) (held : List ℕ) (s : FsSt) :
    Prop where
  inv : ∃ V, Inv sb H σ s V
  refs : Refs s held

/-- The entries in `held` still hold the same inodes. -/
structure Frame (held : List ℕ) (s s' : FsSt) : Prop where
  inum : ∀ k ∈ held, (s'.icache k).inum = (s.icache k).inum
  valid : ∀ k ∈ held, (s.icache k).valid = true → (s'.icache k).valid = true
  cwd : s'.cwd = s.cwd

section Refs

variable {sb : Superblock} {H : List (Disk × ℕ)} {σ : Prop} {held held' : List ℕ}
  {s s' s₁ : FsSt} {V : ℕ → Dinode} {k i : ℕ}

theorem Refs.pos (h : Refs s held) (hk : k ∈ held) : 0 < (s.icache k).ref := by
  have hcount := List.count_pos_iff.mpr hk
  have := h k
  split_ifs at this <;> omega

theorem Refs.cwd_pos (h : Refs s held) : 0 < (s.icache s.cwd).ref := by
  have := h s.cwd
  rw [if_pos rfl] at this
  omega

theorem Refs.tail (h : Refs s (k :: held)) : Refs s held := by
  intro l
  have := h l
  have hle : held.count l ≤ (k :: held).count l := (List.sublist_cons_self k held).count_le l
  omega

theorem SameSlots.refs (h : SameSlots s s') (hr : Refs s held) : Refs s' held := by
  intro l
  rw [h.ref l, h.cwd]
  exact hr l

theorem SameSlots.frame (h : SameSlots s s') (held : List ℕ) : Frame held s s' :=
  ⟨fun l _ => h.inum l, fun l _ hv => (h.valid l).trans hv, h.cwd⟩

theorem Frame.refl (held : List ℕ) (s : FsSt) : Frame held s s :=
  ⟨fun _ _ => rfl, fun _ _ h => h, rfl⟩

theorem frame_note (held : List ℕ) (s : FsSt) (e : TxEv) : Frame held s (s.note e) :=
  ⟨fun _ _ => rfl, fun _ _ h => h, rfl⟩

theorem Frame.trans (h : Frame held s s₁) (h' : Frame held s₁ s') : Frame held s s' :=
  ⟨fun k hk => (h'.inum k hk).trans (h.inum k hk),
    fun k hk hv => h'.valid k hk (h.valid k hk hv), h'.cwd.trans h.cwd⟩

theorem Frame.mono (h : Frame held' s s') (hsub : ∀ k ∈ held, k ∈ held') : Frame held s s' :=
  ⟨fun k hk => h.inum k (hsub k hk), fun k hk => h.valid k (hsub k hk), h.cwd⟩

theorem Frame.tail (h : Frame (k :: held) s s') : Frame held s s' :=
  h.mono fun _ => List.mem_cons_of_mem k

theorem Good.stops (h : Good sb H σ held s) {e : Halt} (he : e ≠ .panic .freeingFreeBlock) :
    Stops sb H e s := by
  obtain ⟨V, hI⟩ := h.inv
  exact hI.stops he

/-- Writing an inode is no change of the cache. -/
theorem Good.of_sameSlots (h : Good sb H σ held s) (hI : ∃ V, Inv sb H σ s' V)
    (hs : SameSlots s s') : Good sb H σ held s' := ⟨hI, hs.refs h.refs⟩

variable {ip : Inode}

/-- A change of one entry that keeps the invariant of the cache. -/
theorem Inv.setSlot (h : Inv sb H σ s V) (hc : Cached sb (update s.icache k ip) V) :
    Inv sb H σ (s.setSlot k ip) V :=
  ⟨⟨h.room, h.super, h.owns, hc, h.handed⟩, h.root, h.behind, h.dirs, h.strict⟩

/-- Counting one more reference. -/
theorem Inv.addRef (h : Inv sb H σ s V) (hr : 0 < (s.icache k).ref) :
    Inv sb H σ (s.setSlot k { s.icache k with ref := (s.icache k).ref + 1 }) V :=
  h.setSlot (h.cache.set_same hr rfl (h.cache.valid hr) fun hv =>
    ⟨h.cache.copy hr hv, h.cache.type_ne hr hv⟩)

theorem Refs.addRef (h : Refs s held) (hip : ip.ref = (s.icache k).ref + 1) :
    Refs (s.setSlot k ip) (k :: held) := by
  intro l
  have hl := h l
  show ((k :: held).count l : ℤ) + (if l = s.cwd then 1 else 0) ≤ _
  by_cases hlk : l = k
  · rw [hlk, setSlot_self, List.count_cons_self, hip]
    rw [hlk] at hl
    push_cast
    omega
  · rw [setSlot_of_ne hlk, List.count_cons_of_ne (Ne.symm hlk)]
    exact hl

/-- A change of entry `k` only. -/
theorem frame_setSlot (hk : k ∈ held → ip.inum = (s.icache k).inum ∧
    ((s.icache k).valid = true → ip.valid = true)) : Frame held s (s.setSlot k ip) := by
  refine ⟨fun l hl => ?_, fun l hl hv => ?_, rfl⟩
  · by_cases hlk : l = k
    · subst hlk
      rw [setSlot_self]
      exact (hk hl).1
    · rw [setSlot_of_ne hlk]
  · by_cases hlk : l = k
    · subst hlk
      rw [setSlot_self]
      exact (hk hl).2 hv
    · rwa [setSlot_of_ne hlk]

end Refs

/-! ### iget and idup -/

section Get

variable {sb : Superblock} {H : List (Disk × ℕ)} {σ : Prop} {held : List ℕ}
  {s : FsSt} {V : ℕ → Dinode} {k i : ℕ}

variable {c : ℕ → Inode}

/-- A recycled entry. -/
theorem Cached.insert (h : Cached sb c V) (hk : k < NINODE) (hi : i < sb.ninodes)
    (hnew : ∀ l, 0 < (c l).ref → (c l).inum ≠ i) (hinum : ip.inum = i) (hvalid : ip.valid = false)
    (hbusy : ip.busy = false) : Cached sb (update c k ip) V := by
  refine h.change (fun _ => ?_) fun _ _ _ => rfl
  rw [hinum, hvalid, hbusy]
  exact ⟨hk, hi, nofun, nofun, fun l _ => hnew l⟩

/-- `iget` returns a reference to inode `i`. -/
theorem iget_spec (h : Good sb H σ held s) (hi : i < sb.ninodes) :
    Wp (iget i) (fun k s' => Good sb H σ (k :: held) s' ∧ Frame held s s')
      (Stops sb H) s := by
  obtain ⟨⟨V, hI⟩, hr⟩ := h
  refine wp_iget (fun k hpos _ => ?_) (fun k hk hfree hnew => ?_) fun _ _ => hI.stops (by simp)
  · exact ⟨⟨⟨V, hI.addRef hpos⟩, hr.addRef rfl⟩, frame_setSlot fun _ => ⟨rfl, id⟩⟩
  · have hnot : k ∉ held := fun hkh => by
      have := hr.pos hkh
      omega
    exact ⟨⟨⟨V, hI.setSlot (hI.cache.insert hk hi
      (fun l hl => hnew l (hI.cache.slot_lt hl) hl) rfl rfl rfl)⟩,
      hr.addRef (by rw [hfree]; rfl)⟩, frame_setSlot fun hkh => absurd hkh hnot⟩

/-- `idup` of a referenced entry. -/
theorem idup_spec (h : Good sb H σ held s) (hk : k ∈ held ∨ k = s.cwd) :
    Wp (idup k) (fun l s' => l = k ∧ Good sb H σ (k :: held) s' ∧ Frame held s s')
      (Stops sb H) s := by
  obtain ⟨⟨V, hI⟩, hr⟩ := h
  have hpos : 0 < (s.icache k).ref := by
    rcases hk with hk | rfl
    · exact hr.pos hk
    · exact hr.cwd_pos
  unfold idup
  rw [wp_bind, wp_modifySlot, wp_pure]
  exact ⟨rfl, ⟨⟨V, hI.addRef hpos⟩, hr.addRef rfl⟩, frame_setSlot fun _ => ⟨rfl, id⟩⟩

end Get

/-! ### ilock and iunlock -/

section Lock

variable {sb : Superblock} {H : List (Disk × ℕ)} {σ : Prop} {held : List ℕ}
  {s : FsSt} {V : ℕ → Dinode} {k i : ℕ}

/-- An inode on disk refers to nothing that the table does not. -/
theorem Inv.refs_dinode (h : Inv sb H σ s V) (hi : i < sb.ninodes) {p : ℕ × Pos} {b : ℕ}
    (hp : refs s.disk sb (update V i (dinode s.disk i)) p = some b) :
    refs s.disk sb V p = some b := by
  obtain ⟨j, q⟩ := p
  by_cases hj : j = i
  · subst hj
    obtain ⟨hf, ha⟩ := h.behind j hi
    obtain ⟨-, ht, hne, hb⟩ := refs_eq_some.mp hp
    simp only [update_self] at ht hne hb
    have hind : (dinode s.disk j).addrs indirectSlot ≠ 0 →
        (dinode s.disk j).addrs indirectSlot = (V j).addrs indirectSlot := ha indirectSlot
    have haddr : (dinode s.disk j).addrAt s.disk q = (V j).addrAt s.disk q := by
      cases q with
      | direct m => exact ha _ hne
      | indirect => exact hind hne
      | entry m =>
          simp only [Dinode.addrAt] at hne ⊢
          by_cases h0 : (dinode s.disk j).addrs indirectSlot = 0
          · rw [if_pos h0] at hne
            exact absurd rfl hne
          · rw [← hind h0]
    rw [haddr] at hne hb
    rw [hf] at ht
    exact refs_eq_some.mpr ⟨hi, ht, hne, hb⟩
  · rw [← hp]
    refine refs_congr_at ?_ ?_ <;> rw [update_of_ne hj]

/-- With fewer references a block of the content is the same or reads as zeros. -/
theorem content_of_fewer {d : Disk} {R R' : ℕ × Pos → Option ℕ}
    (hR : ∀ {p b}, R' p = some b → R p = some b) (i bn : ℕ) :
    (∀ x, x / BSIZE = bn → content d R' i x = content d R i x) ∨
      ∀ x, x / BSIZE = bn → content d R' i x = 0 := by
  rcases e : blockOf R' i bn with - | b
  · exact Or.inr fun x hx => content_of_none (hx ▸ e)
  · obtain ⟨p, hp, hb⟩ := blockOf_eq_some.mp e
    have e' : blockOf R i bn = some b := blockOf_eq_some.mpr ⟨p, hp, hR hb⟩
    exact Or.inl fun x hx => by rw [content_of_block (hx ▸ e), content_of_block (hx ▸ e')]

/-- Reading the inode of entry `k` from disk.  Addresses that never reached the disk
are forgotten. -/
theorem Inv.load (h : Inv sb H σ s V) (hr : 0 < (s.icache k).ref)
    (hinum : ip.inum = (s.icache k).inum) (hip : ip.toDinode = dinode s.disk (s.icache k).inum)
    (hvalid : ip.valid = true) (ht : (dinode s.disk (s.icache k).inum).type ≠ 0) :
    Inv sb H σ (s.setSlot k ip)
      (update V (s.icache k).inum (dinode s.disk (s.icache k).inum)) := by
  set i := (s.icache k).inum with hi
  have hlt : i < sb.ninodes := h.cache.inum_lt hr
  have hsub : ∀ {p b}, refs s.disk sb (update V i (dinode s.disk i)) p = some b →
      refs s.disk sb V p = some b := fun hp => h.refs_dinode hlt hp
  have hf := (h.behind i hlt).fields
  have hsame : σ → update V i (dinode s.disk i) = V := fun hσ => by
    rw [(h.strict hσ).clean i hlt, update_eq_self]
  refine ⟨⟨h.room, h.super, h.owns.mono hsub, ?_, h.handed⟩, h.root, ?_, ?_, ?_⟩
  · exact h.cache.set hr hinum (fun _ => hvalid) fun _ => ⟨hip, ht⟩
  · intro j hj
    by_cases hji : j = i
    · rw [hji, update_self]
      exact ⟨rfl, fun _ _ => rfl⟩
    · rw [update_of_ne hji]
      exact h.behind j hj
  · intro j hj htj e he
    have hfield : (update V i (dinode s.disk i) j).type = (V j).type ∧
        (update V i (dinode s.disk i) j).size = (V j).size := by
      by_cases hji : j = i
      · rw [hji, update_self, hf]
        exact ⟨rfl, rfl⟩
      · rw [update_of_ne hji]
        exact ⟨rfl, rfl⟩
    rw [hfield.1] at htj
    rw [hfield.2] at he
    -- an entry lies in one block
    have hdiv : ∀ a < 2, (DESIZE * e + a) / BSIZE = DESIZE * e / BSIZE := by
      intro a ha
      simp only [DESIZE, BSIZE]
      omega
    rcases content_of_fewer hsub j (DESIZE * e / BSIZE) with hc | hc
    · rw [setSlot_disk, get16_congr fun a ha => hc _ (hdiv a ha)]
      exact h.dirs j hj htj e he
    · have h0 : (content s.disk (refs s.disk sb (update V i (dinode s.disk i))) j).get16
          (DESIZE * e) = 0 := by
        rw [get16_congr (c := Bytes.zero) (p := 0) fun a ha => hc _ (hdiv a ha)]
        exact get16_zero 0
      rw [setSlot_disk, h0]
      exact Nat.zero_lt_of_lt hj
  · intro hσ
    rw [hsame hσ]
    exact h.strict hσ

/-- `ilock` reads the inode of a referenced entry. -/
theorem ilock_spec (h : Good sb H σ held s) (hk : k ∈ held) :
    Wp (ilock k) (fun _ s' => Good sb H σ held s' ∧ Frame held s s' ∧
      Loaded s' k (s.icache k).inum) (Stops sb H) s := by
  obtain ⟨⟨V, hI⟩, hr⟩ := h
  have hpos := hr.pos hk
  -- the count of entry `k` stays
  have hrefs : ∀ {ip : Inode}, ip.ref = (s.icache k).ref → Refs (s.setSlot k ip) held := by
    intro ip hip l
    by_cases hlk : l = k
    · rw [hlk, setSlot_self, hip]
      exact hr k
    · rw [setSlot_of_ne hlk]
      exact hr l
  unfold ilock
  simp only [wp_bind, wp_slot, wp_ite, wp_panic, wp_throw, wp_modifySlot, wp_get, wp_pure,
    setSlot_self, setSlot_disk]
  refine ⟨fun _ => hI.stops (by simp), fun _ => ⟨fun _ => hI.stops (by simp), fun _ => ?_⟩⟩
  refine ⟨fun _ => wp_ite.mpr ⟨fun _ => ⟨by simp, hI.handed⟩, fun ht => ?_⟩, fun hv => ?_⟩
  · have hupd : ∀ ip jp : Inode, (s.setSlot k ip).setSlot k jp = s.setSlot k jp := fun ip jp => by
      simp [FsSt.setSlot]
    rw [wp_pure, hupd]
    exact ⟨⟨⟨_, hI.load hpos rfl rfl rfl ht⟩, hrefs rfl⟩, frame_setSlot fun _ => ⟨rfl, fun _ => rfl⟩,
      by simpa using hpos, by simp, by simp⟩
  · have hv' : (s.icache k).valid = true := by simpa using hv
    exact ⟨⟨⟨V, hI.setSlot (hI.cache.set_same hpos rfl (fun _ => hv') fun _ =>
      ⟨hI.cache.copy hpos hv', hI.cache.type_ne hpos hv'⟩)⟩, hrefs rfl⟩,
      frame_setSlot fun _ => ⟨rfl, id⟩, by simpa using hpos, by simpa using hv', by simp⟩

theorem iunlock_spec (h : Good sb H σ held s) (hk : k ∈ held) :
    Wp (iunlock k) (fun _ s' => Good sb H σ held s' ∧ Frame held s s') (Stops sb H) s := by
  obtain ⟨⟨V, hI⟩, hr⟩ := h
  have hpos := hr.pos hk
  unfold iunlock
  simp only [wp_bind, wp_slot, wp_ite, wp_panic, wp_modifySlot]
  refine ⟨fun _ => hI.stops (by simp), fun _ => ⟨⟨⟨V, hI.setSlot ?_⟩, ?_⟩,
    frame_setSlot fun _ => ⟨rfl, id⟩⟩⟩
  · exact hI.cache.set_same hpos rfl (by simp) fun hv =>
      ⟨hI.cache.copy hpos hv, hI.cache.type_ne hpos hv⟩
  · intro l
    by_cases hlk : l = k
    · rw [hlk, setSlot_self]
      exact hr k
    · rw [setSlot_of_ne hlk]
      exact hr l

end Lock

/-! ### ialloc and iput -/

section Life

variable {sb : Superblock} {H : List (Disk × ℕ)} {σ : Prop} {held : List ℕ}
  {s s' : FsSt} {V : ℕ → Dinode} {k i : ℕ} {n : Dinode}

/-- Inode `i`, which owns no block, is replaced on disk and in the table by one
without content; no content changes. -/
theorem Inv.clearInode (h : Inv sb H σ s V) (hi : i < sb.ninodes)
    (hnone : ∀ p, refs s.disk sb V (i, p) = none) (hsize : n.size = 0)
    (haddrs : ∀ l, n.addrs l = 0)
    (hdisk : s'.disk = update s.disk (IBLOCK i) (withDinode s.disk i n))
    (hcache : Cached sb s'.icache (update V i n)) (hcalls : s'.ballocs = s.ballocs) :
    Inv sb H σ s' (update V i n) ∧
      ∀ j, content s'.disk (refs s'.disk sb (update V i n)) j
        = content s.disk (refs s.disk sb V) j := by
  have hdata : ∀ x, nmeta sb ≤ x → s'.disk x = s.disk x := fun x hx => by
    rw [hdisk, update_of_ne ((iblock_lt_nmeta hi).trans_le hx).ne']
  have hused : used s'.disk sb = used s.disk sb := by
    ext x
    refine and_congr_right fun _ => ?_
    rw [hdisk, bit_update_block (iblock_lt_bblock hi).ne']
  have hself : dinode s'.disk i = n := by
    rw [hdisk]
    exact dinode_update_self ..
  have hother : ∀ j ≠ i, dinode s'.disk j = dinode s.disk j := fun j hj => by
    rw [hdisk]
    exact dinode_update_of_ne hj n
  have hsame : refs s'.disk sb V = refs s.disk sb V :=
    refs_congr fun j x hx => hdata x (h.ref_data hx)
  -- neither the old nor the new inode refers to a block
  have hrefs : refs s'.disk sb (update V i n) = refs s.disk sb V := by
    funext ⟨j, p⟩
    by_cases hj : j = i
    · subst hj
      rw [hnone]
      refine if_neg fun h' => h'.2.2 ?_
      rw [update_self]
      cases p <;> simp [Dinode.addrAt, haddrs]
    · rw [← hsame]
      refine refs_congr_at ?_ ?_ <;> rw [update_of_ne hj]
  have hcontent : ∀ j, content s'.disk (refs s'.disk sb (update V i n)) j
      = content s.disk (refs s.disk sb V) j := by
    intro j
    rw [hrefs]
    funext x
    rcases e : blockOf (refs s.disk sb V) j (x / BSIZE) with - | b
    · rw [content_of_none e, content_of_none e]
    · obtain ⟨q, -, hq⟩ := blockOf_eq_some.mp e
      rw [content_of_block e, content_of_block e, hdata b (h.ref_data hq)]
  refine ⟨⟨⟨h.room, ?_, ?_, hcache, hcalls ▸ h.handed⟩, h.root, ?_, ?_,
    fun hσ => ⟨?_, ?_, ?_⟩⟩, hcontent⟩
  · rw [hdisk, superblock_update one_lt_iblock.ne', h.super]
  · rw [hrefs, hused]
    exact h.owns
  · intro j hj
    by_cases hji : j = i
    · rw [hji, update_self, hself]
      exact ⟨rfl, fun _ _ => rfl⟩
    · rw [update_of_ne hji, hother j hji]
      exact h.behind j hj
  · intro j hj ht e he
    by_cases hji : j = i
    · rw [hji, update_self, hsize] at he
      exact absurd he (by simp [DESIZE])
    · rw [update_of_ne hji] at ht he
      rw [hcontent]
      exact h.dirs j hj ht e he
  · intro j hj
    by_cases hji : j = i
    · rw [hji, update_self, hself]
    · rw [update_of_ne hji, hother j hji]
      exact (h.strict hσ).clean j hj
  · rw [hrefs, hused]
    exact (h.strict hσ).exact
  · intro j hj ht bn hbn
    rw [hrefs]
    by_cases hji : j = i
    · rw [hji, update_self, hsize] at hbn
      exact absurd hbn (by simp)
    · rw [update_of_ne hji] at ht hbn
      exact (h.strict hσ).filled j hj ht bn hbn

/-- The table changes at an inode that no entry has read. -/
theorem Cached.table (h : Cached sb c V)
    (hne : ∀ {l}, 0 < (c l).ref → (c l).valid = true → (c l).inum ≠ i) :
    Cached sb c (update V i n) where
  slot_lt := h.slot_lt
  inum_lt := h.inum_lt
  copy hl hv := by
    rw [update_of_ne (hne hl hv)]
    exact h.copy hl hv
  type_ne hl hv := by
    rw [update_of_ne (hne hl hv)]
    exact h.type_ne hl hv
  valid := h.valid
  inj := h.inj

/-- The last reference to entry `k` is given up. -/
theorem Cached.drop (h : Cached sb c V) (hr : 0 < (c k).ref) (hip : ip.ref = 0) :
    Cached sb (update c k ip) (update V (c k).inum n) :=
  h.change (fun hpos => absurd hpos (by rw [hip]; decide)) fun l hl hl' =>
    update_of_ne (h.other hr l hl hl') _ _

/-- `ialloc` returns a reference to a new inode. -/
theorem ialloc_spec (h : Good sb H σ held s) (type : Int16) :
    Wp (ialloc type) (fun k s' => Good sb H σ (k :: held) s' ∧ Frame held s s')
      (Stops sb H) s := by
  obtain ⟨⟨V, hI⟩, hr⟩ := h
  unfold ialloc
  simp only [wp_bind, wp_note, wp_get, note_disk, hI.super]
  rcases e : (List.range' 1 (sb.ninodes - 1)).find? fun i =>
      (dinode s.disk i).type == 0 with - | i
  · exact hI.stops (by simp)
  · have hmem := List.mem_range'_1.mp (List.mem_of_find?_eq_some e)
    have hi : i < sb.ninodes := by omega
    have ht : (V i).type = 0 := by
      have h0 : (dinode s.disk i).type = 0 := by simpa using List.find?_some e
      rw [(hI.behind i hi).fields] at h0
      exact h0
    have hcache : Cached sb s.icache (update V i { Dinode.zero with type := type }) := by
      refine hI.cache.table fun hl hv hli => ?_
      exact hI.cache.type_ne hl hv (hli.symm ▸ ht)
    rw [wp_bind, wp_logWrite]
    obtain ⟨hI', -⟩ : Inv sb H σ ((s.note .ialloc).write (IBLOCK i)
        (withDinode s.disk i { Dinode.zero with type := type })) _ ∧ _ :=
      hI.clearInode hi (fun p => if_neg fun h' => h'.2.1 ht) rfl (fun _ => rfl) rfl hcache rfl
    refine (iget_spec ⟨⟨_, hI'⟩, hr⟩ hi).imp ?_
    rintro k s' ⟨hg, hf⟩
    exact ⟨hg, hf.inum, hf.valid, hf.cwd⟩

/-- One reference to entry `k` is given up. -/
theorem Refs.dropRef (h : Refs s (k :: held)) (hip : ip.ref = (s.icache k).ref - 1) :
    Refs (s.setSlot k ip) held := by
  intro l
  have hl := h l
  show (held.count l : ℤ) + (if l = s.cwd then 1 else 0) ≤ _
  by_cases hlk : l = k
  · rw [hlk, List.count_cons_self] at hl
    rw [hlk, setSlot_self, hip]
    push_cast at hl
    omega
  · rw [List.count_cons_of_ne (Ne.symm hlk)] at hl
    rw [setSlot_of_ne hlk]
    exact hl

/-- From `s` to `s'` the inode of entry `k` was freed with its last reference. -/
structure Freed (sb : Superblock) (H : List (Disk × ℕ)) (σ : Prop) (k : ℕ) (s : FsSt)
    (V : ℕ → Dinode) (s' : FsSt) : Prop where
  inv : Inv sb H σ s' (update V (s.icache k).inum
    { (V (s.icache k).inum).truncated with type := 0 })
  content_of_ne : ∀ j ≠ (s.icache k).inum,
    content s'.disk (refs s'.disk sb (update V (s.icache k).inum
        { (V (s.icache k).inum).truncated with type := 0 })) j
      = content s.disk (refs s.disk sb V) j
  ref : (s'.icache k).ref = 0
  inum_of_ne : ∀ l ≠ k, (s'.icache l).inum = (s.icache l).inum
  ref_of_ne : ∀ l ≠ k, (s'.icache l).ref = (s.icache l).ref
  busy_of_ne : ∀ l ≠ k, (s'.icache l).busy = (s.icache l).busy
  valid_of_ne : ∀ l ≠ k, (s'.icache l).valid = (s.icache l).valid
  cwd : s'.cwd = s.cwd

/-- `iput` gives up a reference.  An inode without links goes with its last one. -/
theorem iput_inv_spec (hI : Inv sb H σ s V) (hpos : 0 < (s.icache k).ref) :
    Wp (iput k) (fun _ s' =>
      (¬ ((s.icache k).ref = 1 ∧ (s.icache k).valid = true ∧ (s.icache k).nlink = 0) ∧
        s' = (s.note (.iput k)).setSlot k { s.icache k with ref := (s.icache k).ref - 1 } ∧
        Inv sb H σ s' V) ∨
      (s.icache k).ref = 1 ∧ (s.icache k).valid = true ∧ (s.icache k).nlink = 0 ∧
        Freed sb H σ k s V s')
      (fun e s' => e = .panic .iputBusy ∧ (s.icache k).ref = 1 ∧ (s.icache k).busy = true ∧
        s' = s.note (.iput k)) s := by
  unfold iput
  simp only [wp_bind, wp_note, wp_slot, wp_ite, wp_panic, wp_modifySlot]
  simp only [note_icache]
  have hI := hI.note (.iput k)
  refine ⟨fun hfree => ⟨fun hb => ⟨trivial, hfree.1, hb, trivial⟩, fun _ => ?_⟩,
    fun hkeep => Or.inl ⟨hkeep, trivial, ?_⟩⟩
  · -- the inode is freed
    obtain ⟨href, hv, hnlink⟩ := hfree
    set i := (s.icache k).inum with hi
    set s₁ := (s.note (.iput k)).setSlot k { s.icache k with busy := true } with hs₁
    have hI₁ : Inv sb H σ s₁ V := hI.setSlot (hI.cache.set_same hpos rfl (fun _ => hv)
      fun _ => ⟨hI.cache.copy hpos hv, hI.cache.type_ne hpos hv⟩)
    have hk₁ : Loaded s₁ k i := ⟨by simpa [hs₁] using hpos, by simpa [hs₁] using hv, by simp [hs₁, hi]⟩
    refine (itrunc_spec _ hI₁ hk₁).imp ?_
    rintro - s₂ ⟨hI₂, hss, hcontent⟩
    have hk₂ := hss.loaded hk₁
    have hinum₂ := hk₂.inum
    have heq := hI₂.inode_eq hk₂
    rw [update_self] at heq
    have hnone : ∀ p, refs s₂.disk sb (update V i (V i).truncated) (i, p) = none := by
      intro p
      rw [refs_of_alloc (hI₂.inum_lt hk₂) (hI₂.type_ne hk₂), update_self]
      cases p <;> simp [Dinode.addrAt, Dinode.truncated, toRef]
    have href₂ : (s₂.icache k).ref = 1 := by rw [hss.ref k, hs₁, setSlot_self, href]
    simp only [wp_bind, wp_modifySlot, wp_iupdate, setSlot_self, setSlot_disk, write_icache]
    set n : Dinode := { (V i).truncated with type := 0 } with hn
    set ip : Inode := { s₂.icache k with
      toDinode := n, ref := (s₂.icache k).ref - 1, busy := false, valid := false } with hip
    -- the state when `iput` returns
    set s' : FsSt := ((s₂.note (.iupdate k)).write (IBLOCK i) (withDinode s₂.disk i n)).setSlot k
      ip with hs'
    suffices hgoal : Freed sb H σ k s V s' by
      refine Or.inr ⟨href, hv, hnlink, ?_⟩
      convert hgoal using 1
      simp [hs', FsSt.setSlot, FsSt.note, FsSt.write, hip, hn, hinum₂, heq]
    have hcache : Cached sb (update s₂.icache k ip) (update
        (update V i (V i).truncated) i n) := by
      have := hI₂.cache.drop (n := n) hk₂.ref (show ip.ref = 0 by simp [hip, href₂])
      rwa [hinum₂] at this
    have hslot : ∀ l ≠ k, s'.icache l = s₂.icache l := fun l hl => setSlot_of_ne hl _
    have hslot₁ : ∀ l ≠ k, s₁.icache l = s.icache l := fun l hl => setSlot_of_ne hl _
    obtain ⟨hI', hcontent'⟩ : Inv sb H σ s' (update
        (update V i (V i).truncated) i n) ∧ _ :=
      hI₂.clearInode (hI₂.inum_lt hk₂) hnone rfl (fun _ => rfl) rfl hcache rfl
    rw [update_idem] at hI' hcontent'
    refine ⟨hI', fun j hj => (hcontent' j).trans (hcontent j hj), ?_, fun l hl => ?_,
      fun l hl => ?_, fun l hl => ?_, fun l hl => ?_, hss.cwd⟩
    · rw [hs', setSlot_self, hip, href₂]
      rfl
    · rw [hslot l hl, hss.inum, hslot₁ l hl]
    · rw [hslot l hl, hss.ref, hslot₁ l hl]
    · rw [hslot l hl, hss.busy, hslot₁ l hl]
    · rw [hslot l hl, hss.valid, hslot₁ l hl]
  · by_cases hone : (s.icache k).ref = 1
    · -- the entry is no longer in use
      have := hI.cache.drop (n := V (s.icache k).inum) hpos
        (show ({ s.icache k with ref := (s.icache k).ref - 1 } : Inode).ref = 0 by
          simp [hone])
      rw [note_icache, update_eq_self] at this
      exact hI.setSlot this
    · exact hI.setSlot (hI.cache.set_same hpos rfl (hI.cache.valid hpos) fun hv =>
        ⟨hI.cache.copy hpos hv, hI.cache.type_ne hpos hv⟩)

/-- `iput` gives up one of the references of the caller. -/
theorem iput_spec (h : Good sb H σ (k :: held) s) :
    Wp (iput k) (fun _ s' => Good sb H σ held s' ∧ Frame held s s') (Stops sb H) s := by
  obtain ⟨⟨V, hI⟩, hr⟩ := h
  have hpos : 0 < (s.icache k).ref := hr.pos List.mem_cons_self
  refine (iput_inv_spec hI hpos).mono ?_ ?_
  · rintro - s' (⟨-, rfl, hI'⟩ | ⟨href, -, -, f⟩)
    · exact ⟨⟨⟨V, hI'⟩, hr.dropRef rfl⟩, (frame_note ..).trans (frame_setSlot fun _ => ⟨rfl, id⟩)⟩
    · -- nobody else refers to the inode
      have hnot : k ∉ held ∧ k ≠ s.cwd := by
        have hk := hr k
        rw [List.count_cons_self, href] at hk
        constructor
        · intro hkh
          have := List.count_pos_iff.mpr hkh
          push_cast at hk
          split_ifs at hk <;> omega
        · intro hkc
          rw [if_pos hkc] at hk
          push_cast at hk
          omega
      have hne : ∀ l ∈ held, l ≠ k := fun l hl hlk => hnot.1 (hlk ▸ hl)
      refine ⟨⟨⟨_, f.inv⟩, fun l => ?_⟩, fun l hl => f.inum_of_ne l (hne l hl),
        fun l hl hv => (f.valid_of_ne l (hne l hl)).trans hv, f.cwd⟩
      rw [f.cwd]
      by_cases hlk : l = k
      · rw [hlk, if_neg hnot.2, List.count_eq_zero_of_not_mem hnot.1, f.ref]
        simp
      · rw [f.ref_of_ne l hlk]
        exact hr.tail l
  · rintro e s' ⟨rfl, -, -, rfl⟩
    exact hI.stops (by simp)

end Life

end Nunix.Fs
