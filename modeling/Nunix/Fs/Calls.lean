/-
Nunix/Fs/Calls.lean

Directories, paths and the directory system calls keep the file system good.

A directory is read and written in entries of 16 bytes, none of which crosses a
block.  The entries `dirlink` and `sys_unlink` write name inodes of the disk, so the
numbers `dirlookup` passes to `iget` do.  From there on every function is specified
by the references it takes and gives back.
-/
import Nunix.Fs.Cache

namespace Nunix.Fs

open Bytes Hoare

variable {sb : Superblock} {H : List (Disk × ℕ)} {σ : Prop} {held held' L L' : List ℕ}
  {s s' : FsSt} {k ip dp i : ℕ} {name : List UInt8}

/-! ### Reading and writing entries -/

theorem Good.inum_lt (h : Good sb H σ held s) (hk : k ∈ held) :
    (s.icache k).inum < sb.ninodes := by
  obtain ⟨⟨V, hI⟩, hr⟩ := h
  exact hI.cache.inum_lt (hr.pos hk)

/-- Parts of the state that the invariant does not depend on. -/
theorem Good.congr (h : Good sb H σ held s) (hd : s'.disk = s.disk)
    (hc : s'.icache = s.icache) (hcwd : s'.cwd = s.cwd) (hb : s'.ballocs = s.ballocs) :
    Good sb H σ held s' := by
  obtain ⟨⟨V, hI⟩, hr⟩ := h
  refine ⟨⟨V, hI.congr hd hc hb⟩, fun l => ?_⟩
  rw [hc, hcwd]
  exact hr l

/-- The order of the references does not matter. -/
theorem Good.perm (h : Good sb H σ held s) (hp : held.Perm held') : Good sb H σ held' s := by
  refine ⟨h.inv, fun l => ?_⟩
  rw [← hp.count_eq l]
  exact h.refs l

/-- The file system is good with the references `held`, and the entries `L` of them have
been read. -/
structure Carries (sb : Superblock) (H : List (Disk × ℕ)) (σ : Prop) (held L : List ℕ) (s : FsSt) :
    Prop where
  good : Good sb H σ held s
  sub : ∀ k ∈ L, k ∈ held
  valid : ∀ k ∈ L, (s.icache k).valid = true

theorem Good.carries (h : Good sb H σ held s) : Carries sb H σ held [] s := ⟨h, nofun, nofun⟩

theorem Carries.swap {a b : ℕ} (h : Carries sb H σ (a :: b :: held) L s) :
    Carries sb H σ (b :: a :: held) L s :=
  ⟨h.good.perm (List.Perm.swap b a held), fun k hk => (List.Perm.swap b a held).mem_iff.mp
    (h.sub k hk), h.valid⟩

theorem iput_carries (h : Carries sb H σ (k :: held) L s) (hL : ∀ l ∈ L', l ∈ L ∧ l ∈ held) :
    Wp (iput k) (fun _ => Carries sb H σ held L') (Stops sb H) s := by
  refine (iput_spec h.good).imp ?_
  rintro - s' ⟨hg, hf⟩
  exact ⟨hg, fun l hl => (hL l hl).2, fun l hl => hf.valid l (hL l hl).2 (h.valid l (hL l hl).1)⟩

section Carries

variable (h : Carries sb H σ held L s)

include h

theorem Carries.loaded (hk : k ∈ L) : Loaded s k (s.icache k).inum :=
  ⟨h.good.refs.pos (h.sub k hk), h.valid k hk, rfl⟩

/-- A step that keeps the references. -/
theorem Carries.step (hg : Good sb H σ held' s') (hf : Frame held s s')
    (hsub : ∀ k ∈ held, k ∈ held') : Carries sb H σ held' L s' :=
  ⟨hg, fun k hk => hsub k (h.sub k hk), fun k hk => hf.valid k (h.sub k hk) (h.valid k hk)⟩

theorem iget_carries (hi : i < sb.ninodes) :
    Wp (iget i) (fun k => Carries sb H σ (k :: held) L) (Stops sb H) s := by
  refine (iget_spec h.good hi).imp ?_
  rintro k s' ⟨hg, hf⟩
  exact h.step hg hf fun _ => List.mem_cons_of_mem k

theorem ialloc_carries (type : Int16) :
    Wp (ialloc type) (fun k => Carries sb H σ (k :: held) L) (Stops sb H) s := by
  refine (ialloc_spec h.good type).imp ?_
  rintro k s' ⟨hg, hf⟩
  exact h.step hg hf fun _ => List.mem_cons_of_mem k

theorem ilock_carries (hk : k ∈ held) :
    Wp (ilock k) (fun _ => Carries sb H σ held (k :: L)) (Stops sb H) s := by
  refine (ilock_spec h.good hk).imp ?_
  rintro - s' ⟨hg, hf, hl⟩
  have h' := h.step hg hf fun _ => id
  exact ⟨hg, List.forall_mem_cons.mpr ⟨hk, h'.sub⟩, List.forall_mem_cons.mpr ⟨hl.valid, h'.valid⟩⟩

theorem iunlock_carries (hk : k ∈ held) :
    Wp (iunlock k) (fun _ => Carries sb H σ held L) (Stops sb H) s := by
  refine (iunlock_spec h.good hk).imp ?_
  rintro - s' ⟨hg, hf⟩
  exact h.step hg hf fun _ => id

/-- Reading a directory entry.  Its inode number is one of the disk. -/
theorem readDirent_carries (hdp : dp ∈ L) (off : ℕ) :
    Wp (readi dp Bytes.zero off DESIZE) (fun r s' => Carries sb H σ held L s' ∧
      (s'.icache dp).type = (s.icache dp).type ∧
      ((s.icache dp).type = T_DIR → DESIZE ∣ off → r.1 = DESIZE → deInum r.2 < sb.ninodes))
      (Stops sb H) s := by
  have hl := h.loaded hdp
  obtain ⟨V, hI⟩ := h.good.inv
  have heq := hI.inode_eq hl
  refine (readi_spec hI hl Bytes.zero off (by decide)).imp ?_
  rintro ⟨r, de⟩ s' ⟨V', hI', u, hread⟩
  have hss : SameSlots s s' := sameSlots_update u.cache u.rest.1
  refine ⟨h.step ⟨⟨V', hI'⟩, hss.refs h.good.refs⟩ (hss.frame held) fun _ => id, ?_, ?_⟩
  · rw [u.cache, Function.update_self]
    show (V' _).type = _
    rw [u.inode, ← heq]
  · rintro ht ⟨e, rfl⟩ hr16
    have ht' : (V (s.icache dp).inum).type = T_DIR := by rw [← heq, ht]
    obtain ⟨hsize, hde⟩ := hread (by rw [ht']; decide) (by decide) hr16
    have hde : de = _ := hde
    have hent := hI.dirs _ (hI.inum_lt hl) ht' e hsize
    have hget : deInum de
        = (content s.disk (refs s.disk sb V) (s.icache dp).inum).get16 (DESIZE * e) := by
      refine get16_congr fun a ha => ?_
      show de (0 + a) = _
      rw [hde, blit_apply_of_mem (Nat.zero_le _) (by simp only [DESIZE]; omega), Bytes.drop]
      simp
    show deInum de < sb.ninodes
    rw [hget]
    exact hent

/-- Writing a directory entry that names an inode of the disk. -/
theorem writeDirent_carries (hdp : dp ∈ L) {de : Bytes} (hde : deInum de < sb.ninodes) {off : ℕ}
    (hoff : DESIZE ∣ off) :
    Wp (writei dp de off DESIZE) (fun _ => Carries sb H σ held L) (Stops sb H) s := by
  have hl := h.loaded hdp
  obtain ⟨V, hI⟩ := h.good.inv
  obtain ⟨m, rfl⟩ := hoff
  refine (writei_spec hI hl de (DESIZE * m) (by decide) ?_).imp ?_
  · intro ht hle e he
    by_cases hem : e = m
    · -- the new entry
      subst hem
      rw [get16_congr (c := de) (p := 0)]
      · exact hde
      · intro a ha
        rw [blit_apply_of_mem (by omega) (by simp only [DESIZE]; omega)]
        congr 1
        omega
    · -- an old one
      have hold : DESIZE * e + DESIZE ≤ (V (s.icache dp).inum).size.toNat := by
        simp only [DESIZE] at *
        omega
      rw [get16_congr (c := content s.disk (refs s.disk sb V) _) (p := DESIZE * e)]
      · exact hI.dirs _ (hI.inum_lt hl) ht e hold
      · intro a ha
        rw [blit_apply_of_notMem]
        simp only [DESIZE]
        omega
  · rintro r s' ⟨V', hI', hss⟩
    exact h.step ⟨⟨V', hI'⟩, hss.refs h.good.refs⟩ (hss.frame held) fun _ => id

/-- Storing an inode with the same addresses, type and size. -/
theorem setFields_carries (hk : k ∈ L) {f : Inode → Inode}
    (hf : f (s.icache k) = { s.icache k with toDinode := (f (s.icache k)).toDinode })
    (haddrs : (f (s.icache k)).addrs = (s.icache k).addrs)
    (htype : (f (s.icache k)).type = (s.icache k).type)
    (hsize : (f (s.icache k)).size = (s.icache k).size) :
    Wp (modifySlot k f) (fun _ => Wp (iupdate k) (fun _ => Carries sb H σ held L) (Stops sb H))
      (Stops sb H) s := by
  have hl := h.loaded hk
  obtain ⟨V, hI⟩ := h.good.inv
  have heq := hI.inode_eq hl
  rw [wp_modifySlot, wp_iupdate, setSlot_self, setSlot_disk]
  have hinum : (f (s.icache k)).inum = (s.icache k).inum := by rw [hf]
  have hst : ((s.setSlot k (f (s.icache k))).note (.iupdate k)).write
      (IBLOCK (f (s.icache k)).inum)
      (withDinode s.disk (f (s.icache k)).inum (f (s.icache k)).toDinode)
      = s.setInode k (f (s.icache k)).toDinode := by
    rw [FsSt.setInode, ← hf, hinum]
  rw [hst]
  have hss : SameSlots s (s.setInode k (f (s.icache k)).toDinode) := sameSlots_setInode _
  refine h.step ⟨⟨_, hI.setFields hl ?_ ?_ ?_⟩, hss.refs h.good.refs⟩ (hss.frame held) fun _ => id
  · rw [← heq, haddrs]
  · rw [← heq, htype]
  · rw [← heq, hsize]

end Carries

/-! ### Directories -/

/-- The references after a function that may return an inode. -/
def heldAfter (held : List ℕ) : Option ℕ → List ℕ
  | none => held
  | some k => k :: held

@[simp] theorem heldAfter_none : heldAfter held none = held := rfl

@[simp] theorem heldAfter_some : heldAfter held (some k) = k :: held := rfl

theorem dirlookupLoop_spec (name : List UInt8) (size : ℕ) : ∀ (off : ℕ) (s : FsSt),
    Carries sb H σ held L s → dp ∈ L → (s.icache dp).type = T_DIR → DESIZE ∣ off →
    Wp (dirlookupLoop dp name size off) (fun r s' =>
      Carries sb H σ (heldAfter held (r.map Prod.fst)) L s' ∧ ∀ p, r = some p → DESIZE ∣ p.2)
      (Stops sb H) s := by
  intro off
  -- by the number of bytes left
  induction hN : size - off using Nat.strong_induction_on generalizing off with
  | _ N ih =>
    intro s h hdp ht hoff
    rw [dirlookupLoop]
    split_ifs with hlt
    · refine (readDirent_carries h hdp off).seq ?_
      rintro ⟨r, de⟩ s₁ ⟨h₁, ht₁, hent⟩
      simp only [wp_ite]
      refine ⟨fun _ => h₁.good.stops (by simp), fun hr => ⟨fun hmatch => ?_, fun _ => ?_⟩⟩
      · refine (iget_carries h₁ (hent ht hoff (not_not.mp hr))).seq fun ip s₂ h₂ => ⟨h₂, ?_⟩
        rintro p ⟨⟩
        exact hoff
      · exact ih _ (by simp only [DESIZE]; omega) _ rfl s₁ h₁ hdp (ht₁.trans ht)
          (Dvd.dvd.add hoff dvd_rfl)
    · exact ⟨h, by simp⟩

theorem emptyLoop_spec (size : ℕ) : ∀ (off : ℕ) (s : FsSt),
    Carries sb H σ held L s → dp ∈ L → DESIZE ∣ off →
    Wp (emptyLoop dp size off) (fun off' s' => Carries sb H σ held L s' ∧ DESIZE ∣ off')
      (Stops sb H) s := by
  intro off
  induction hN : size - off using Nat.strong_induction_on generalizing off with
  | _ N ih =>
    intro s h hdp hoff
    rw [emptyLoop]
    split_ifs with hlt
    · refine (readDirent_carries h hdp off).seq ?_
      rintro ⟨r, de⟩ s₁ ⟨h₁, -, -⟩
      simp only [wp_ite, wp_pure]
      refine ⟨fun _ => h₁.good.stops (by simp), fun _ => ⟨fun _ => ⟨h₁, hoff⟩, fun _ => ?_⟩⟩
      exact ih _ (by simp only [DESIZE]; omega) _ rfl s₁ h₁ hdp (Dvd.dvd.add hoff dvd_rfl)
    · exact ⟨h, hoff⟩

theorem isdiremptyLoop_spec (size : ℕ) : ∀ (off : ℕ) (s : FsSt), Carries sb H σ held L s → dp ∈ L →
    Wp (isdiremptyLoop dp size off) (fun _ => Carries sb H σ held L) (Stops sb H) s := by
  intro off
  induction hN : size - off using Nat.strong_induction_on generalizing off with
  | _ N ih =>
    intro s h hdp
    rw [isdiremptyLoop]
    split_ifs with hlt
    · refine (readDirent_carries h hdp off).seq ?_
      rintro ⟨r, de⟩ s₁ ⟨h₁, -, -⟩
      simp only [wp_ite, wp_pure]
      refine ⟨fun _ => h₁.good.stops (by simp), fun _ => ⟨fun _ => h₁, fun _ => ?_⟩⟩
      exact ih _ (by simp only [DESIZE]; omega) _ rfl s₁ h₁ hdp
    · exact h

section Dir

variable (h : Carries sb H σ held L s) (hdp : dp ∈ L)

include h hdp

/-- `dirlookup` returns a reference to the inode it found. -/
theorem dirlookup_carries (name : List UInt8) :
    Wp (dirlookup dp name) (fun r s' => Carries sb H σ (heldAfter held (r.map Prod.fst)) L s' ∧
      ∀ p, r = some p → DESIZE ∣ p.2) (Stops sb H) s := by
  unfold dirlookup
  simp only [wp_bind, wp_slot, wp_ite, wp_panic]
  refine ⟨fun _ => h.good.stops (by simp), fun ht => ?_⟩
  exact dirlookupLoop_spec name _ 0 s h hdp (not_not.mp ht) (dvd_zero _)

/-- `dirlink` adds an entry for an inode of the disk. -/
theorem dirlink_carries (name : List UInt8) (hk : k ∈ held) :
    Wp (dirlink dp name (s.icache k).inum) (fun _ => Carries sb H σ held L) (Stops sb H) s := by
  have hinum := h.good.inum_lt hk
  unfold dirlink
  refine (dirlookup_carries h hdp name).seq ?_
  rintro (- | ⟨ip, off⟩) s₁ ⟨h₁, -⟩
  · -- the name is new
    simp only [wp_bind, wp_slot]
    refine (emptyLoop_spec _ 0 s₁ h₁ hdp (dvd_zero _)).imp ?_
    rintro off s₂ ⟨h₂, hoff⟩
    have hde : deInum (dirent (s.icache k).inum name) < sb.ninodes := by
      have h16 : deInum (dirent (s.icache k).inum name) = (s.icache k).inum % 2 ^ 16 := by
        show (byte _ 0).toNat + 256 * (byte _ 1).toNat = _
        rw [byte_toNat, byte_toNat]
        omega
      rw [h16]
      exact (Nat.mod_le ..).trans_lt hinum
    refine (writeDirent_carries h₂ hdp hde hoff).seq fun r s₃ h₃ => ?_
    rw [wp_ite]
    exact ⟨fun _ => h₃.good.stops (by simp), fun _ => h₃⟩
  · -- it is there already
    exact (iput_carries h₁ fun l hl => ⟨hl, h.sub l hl⟩).seq fun _ _ h₂ => h₂

theorem isdirempty_carries :
    Wp (isdirempty dp) (fun _ => Carries sb H σ held L) (Stops sb H) s := by
  unfold isdirempty
  rw [wp_bind, wp_slot]
  exact isdiremptyLoop_spec _ _ s h hdp

end Dir

/-! ### Paths -/

theorem iunlockput_carries (h : Carries sb H σ (k :: held) L s) (hL : ∀ l ∈ L', l ∈ L ∧ l ∈ held) :
    Wp (iunlockput k) (fun _ => Carries sb H σ held L') (Stops sb H) s :=
  (iunlock_carries h List.mem_cons_self).seq fun _ _ h₁ => iput_carries h₁ hL

theorem iunlockput_good (h : Carries sb H σ (k :: held) L s) :
    Wp (iunlockput k) (fun _ => Carries sb H σ held []) (Stops sb H) s :=
  iunlockput_carries h (by simp)

theorem namexLoop_spec (parent : Bool) : ∀ (path : List UInt8) (ip : ℕ) (name : List UInt8)
    (s : FsSt), Carries sb H σ (ip :: held) L s → (∀ l ∈ L, l ∈ held) →
    Wp (namexLoop parent path ip name) (fun r => Carries sb H σ (heldAfter held (r.map Prod.fst)) L)
      (Stops sb H) s := by
  intro path
  -- `skipelem` shortens the path
  induction hN : path.length using Nat.strong_induction_on generalizing path with
  | _ N ih =>
    intro ip name s h hL
    rw [namexLoop]
    split
    · rename_i rest name' hskip
      have hL' : ∀ l ∈ L, l ∈ ip :: L ∧ l ∈ held := fun l hl => ⟨List.mem_cons_of_mem ip hl, hL l hl⟩
      refine (ilock_carries h List.mem_cons_self).seq fun _ s₁ h₁ => ?_
      rw [wp_bind, wp_slot]
      simp only [wp_ite]
      refine ⟨fun _ => ?_, fun _ => ⟨fun _ => ?_, fun _ => ?_⟩⟩
      · exact (iunlockput_carries h₁ hL').seq fun _ _ h₂ => h₂
      · refine (iunlock_carries h₁ List.mem_cons_self).seq fun _ s₂ h₂ => ?_
        exact ⟨h₂.good, fun l hl => List.mem_cons_of_mem ip (hL l hl), fun l hl => h₂.valid l (hL' l hl).1⟩
      · refine (dirlookup_carries h₁ List.mem_cons_self name').seq ?_
        rintro (- | ⟨next, off⟩) s₂ ⟨h₂, -⟩
        · exact (iunlockput_carries h₂ hL').seq fun _ _ h₃ => h₃
        · refine (iunlockput_carries h₂.swap fun l hl => ⟨(hL' l hl).1, List.mem_cons_of_mem next
            (hL l hl)⟩).seq fun _ s₃ h₃ => ?_
          exact ih _ (hN ▸ skipelem_length hskip) rest rfl next name' s₃ h₃ hL
    · simp only [wp_ite, wp_bind]
      exact ⟨fun _ => iput_carries h fun l hl => ⟨hl, hL l hl⟩, fun _ => h⟩

section Calls

variable (h : Carries sb H σ held L s)

include h

/-- `namex` returns a reference to the inode of the path. -/
theorem namex_carries (path : List UInt8) (parent : Bool) :
    Wp (namex path parent) (fun r => Carries sb H σ (heldAfter held (r.map Prod.fst)) L)
      (Stops sb H) s := by
  have hroot : ROOTINO < sb.ninodes := by
    obtain ⟨V, hI⟩ := h.good.inv
    exact hI.root
  unfold namex
  simp only [wp_ite, wp_bind, wp_get]
  -- from the root or from the current directory
  refine ⟨fun _ => (iget_carries h hroot).imp fun ip s₁ h₁ =>
    namexLoop_spec parent path ip [] s₁ h₁ h.sub, fun _ => ?_⟩
  refine (idup_spec h.good (Or.inr rfl)).imp ?_
  rintro ip s₁ ⟨rfl, hg₁, hf₁⟩
  exact namexLoop_spec parent path _ [] s₁ (h.step hg₁ hf₁ fun _ => List.mem_cons_of_mem _) h.sub

theorem namei_carries (path : List UInt8) :
    Wp (namei path) (fun r => Carries sb H σ (heldAfter held r) L) (Stops sb H) s := by
  unfold namei
  refine (namex_carries h path false).seq ?_
  rintro (- | ⟨ip, name⟩) s₁ h₁
  · exact h₁
  · exact h₁

/-! ### System calls -/

/-- The end of `create`: enter the new inode in its directory. -/
theorem create_link_carries (hheld : held = ip :: dp :: held') (hdp : dp ∈ L) (name : List UInt8) :
    Wp (do
      if (← dirlink dp name (← slot ip).inum) < 0 then panic .createDirlink
      iunlockput dp
      return some ip) (fun r => Carries sb H σ (heldAfter held' r) []) (Stops sb H) s := by
  subst hheld
  rw [wp_bind, wp_slot]
  refine (dirlink_carries h hdp name List.mem_cons_self).seq fun r s₁ h₁ => ?_
  rw [wp_ite]
  refine ⟨fun _ => h₁.good.stops (by simp), fun _ => ?_⟩
  exact (iunlockput_good h₁.swap).seq fun _ _ h₂ => h₂

/-- `create` returns a reference to the new inode, or to the file that was there. -/
theorem create_carries (path : List UInt8) (type major minor : Int16) :
    Wp (create path type major minor) (fun r => Carries sb H σ (heldAfter held r) [])
      (Stops sb H) s := by
  unfold create nameiparent
  refine (namex_carries h path true).seq ?_
  rintro (- | ⟨dp, name⟩) s₁ h₁
  · exact h₁.good.carries
  refine (ilock_carries h₁ List.mem_cons_self).seq fun _ s₂ h₂ => ?_
  refine (dirlookup_carries h₂ List.mem_cons_self name).seq ?_
  rintro (- | ⟨ip, off⟩) s₃ ⟨h₃, -⟩
  · -- a new inode
    refine (ialloc_carries h₃ type).seq fun ip s₄ h₄ => ?_
    refine (ilock_carries h₄ List.mem_cons_self).seq fun _ s₅ h₅ => ?_
    refine (setFields_carries h₅ List.mem_cons_self rfl rfl rfl rfl).seq fun _ _ hupd => hupd.seq ?_
    intro _ s₆ h₆
    rw [wp_ite]
    refine ⟨fun _ => ?_, fun _ => create_link_carries h₆ rfl (by simp) name⟩
    -- a directory: the link from "..", and the entries "." and ".."
    refine (setFields_carries h₆ (by simp) rfl rfl rfl rfl).seq fun _ _ hupd => hupd.seq ?_
    intro _ s₇ h₇
    rw [wp_bind, wp_slot]
    refine (dirlink_carries h₇ List.mem_cons_self _ List.mem_cons_self).seq fun r s₈ h₈ => ?_
    rw [wp_ite]
    refine ⟨fun _ => h₈.good.stops (by simp), fun _ => ?_⟩
    rw [wp_bind, wp_slot]
    refine (dirlink_carries h₈ List.mem_cons_self _ (by simp)).seq fun r s₉ h₉ => ?_
    rw [wp_ite]
    exact ⟨fun _ => h₉.good.stops (by simp), fun _ => create_link_carries h₉ rfl (by simp) name⟩
  · -- the name is there
    refine (iunlockput_good h₃.swap).seq fun _ s₄ h₄ => ?_
    refine (ilock_carries h₄ List.mem_cons_self).seq fun _ s₅ h₅ => ?_
    rw [wp_bind, wp_slot, wp_ite]
    exact ⟨fun _ => h₅.good.carries, fun _ => (iunlockput_good h₅).seq fun _ _ h₆ => h₆⟩

/-- `end_op` and the result of the call. -/
theorem endOp_carries (r : ℤ) :
    Wp (do endOp; return r) (fun _ => Good sb H σ held) (Stops sb H) s :=
  h.good.congr rfl rfl rfl rfl

end Calls

theorem sysLinkBad_spec (h : Carries sb H σ (k :: held) L s) :
    Wp (sysLinkBad k) (fun _ => Good sb H σ held) (Stops sb H) s := by
  unfold sysLinkBad
  refine (ilock_carries h List.mem_cons_self).seq fun _ s₁ h₁ => ?_
  refine (setFields_carries h₁ List.mem_cons_self rfl rfl rfl rfl).seq fun _ _ hupd => hupd.seq ?_
  intro _ s₂ h₂
  exact (iunlockput_good h₂).seq fun _ s₃ h₃ => endOp_carries h₃ _

/-- `sys_link` keeps the references of the caller. -/
theorem sysLink_spec (h : Good sb H σ held s) (old new : List UInt8) :
    Wp (sysLink old new) (fun _ => Good sb H σ held) (Stops sb H) s := by
  unfold sysLink
  have h₁ : Good sb H σ held s.beginOp := h.congr rfl rfl rfl rfl
  rw [wp_bind, wp_beginOp]
  refine (namei_carries h₁.carries old).seq ?_
  rintro (- | ip) s₂ h₂
  · exact endOp_carries h₂ _
  refine (ilock_carries h₂ List.mem_cons_self).seq fun _ s₃ h₃ => ?_
  rw [wp_bind, wp_slot, wp_ite]
  refine ⟨fun _ => ?_, fun _ => ?_⟩
  · -- a directory cannot be linked
    exact (iunlockput_good h₃).seq fun _ s₄ h₄ => endOp_carries h₄ _
  refine (setFields_carries h₃ List.mem_cons_self rfl rfl rfl rfl).seq fun _ _ hupd => hupd.seq ?_
  intro _ s₄ h₄
  refine (iunlock_carries h₄ List.mem_cons_self).seq fun _ s₅ h₅ => ?_
  refine (namex_carries h₅ new true).seq ?_
  rintro (- | ⟨dp, name⟩) s₆ h₆
  · exact sysLinkBad_spec h₆
  refine (ilock_carries h₆ List.mem_cons_self).seq fun _ s₇ h₇ => ?_
  rw [wp_bind, wp_slot]
  refine (dirlink_carries h₇ List.mem_cons_self name (by simp)).seq fun r s₈ h₈ => ?_
  have hput := iunlockput_good h₈
  rw [wp_ite]
  refine ⟨fun _ => hput.seq fun _ s₉ h₉ => sysLinkBad_spec h₉, fun _ => hput.seq fun _ s₉ h₉ => ?_⟩
  exact (iput_spec h₉.good).seq fun _ _ h₁₀ => endOp_carries h₁₀.1.carries _

theorem sysUnlinkBad_spec (h : Carries sb H σ (dp :: held) L s) :
    Wp (sysUnlinkBad dp) (fun _ => Good sb H σ held) (Stops sb H) s := by
  unfold sysUnlinkBad
  exact (iunlockput_good h).seq fun _ s₁ h₁ => endOp_carries h₁ _

/-- The end of `sys_unlink`, after the entry was cleared: drop the link and the
references. -/
theorem sysUnlink_end_spec (h : Carries sb H σ (ip :: dp :: held) L s) (hip : ip ∈ L) :
    Wp (sysUnlinkEnd dp ip) (fun _ => Good sb H σ held) (Stops sb H) s := by
  refine (@iunlockput_carries _ _ _ _ _ [ip] _ _ h.swap (by simpa using hip)).seq fun _ s₁ h₁ => ?_
  refine (setFields_carries h₁ List.mem_cons_self rfl rfl rfl rfl).seq fun _ _ hupd => hupd.seq ?_
  intro _ s₂ h₂
  exact (iunlockput_good h₂).seq fun _ s₃ h₃ => endOp_carries h₃ _

/-- The part of `sys_unlink` that clears the entry. -/
theorem sysUnlink_clear_spec (h : Carries sb H σ (ip :: dp :: held) L s) (hip : ip ∈ L)
    (hdp : dp ∈ L) {off : ℕ} (hoff : DESIZE ∣ off) :
    Wp (sysUnlinkClear dp ip off) (fun _ => Good sb H σ held) (Stops sb H) s := by
  have hzero : deInum Bytes.zero < sb.ninodes := by
    rw [deInum, get16_zero]
    exact Nat.zero_lt_of_lt (h.good.inum_lt List.mem_cons_self)
  refine (writeDirent_carries h hdp hzero hoff).seq fun r s₁ h₁ => ?_
  rw [wp_ite]
  refine ⟨fun _ => h₁.good.stops (by simp), fun _ => ?_⟩
  rw [wp_bind, wp_slot, wp_ite]
  refine ⟨fun _ => ?_, fun _ => sysUnlink_end_spec h₁ hip⟩
  refine (setFields_carries h₁ hdp rfl rfl rfl rfl).seq fun _ _ hupd => hupd.seq ?_
  exact fun _ s₂ h₂ => sysUnlink_end_spec h₂ hip

/-- `sys_unlink` keeps the references of the caller. -/
theorem sysUnlink_spec (h : Good sb H σ held s) (path : List UInt8) :
    Wp (sysUnlink path) (fun _ => Good sb H σ held) (Stops sb H) s := by
  unfold sysUnlink
  have h₁ : Good sb H σ held s.beginOp := h.congr rfl rfl rfl rfl
  rw [wp_bind, wp_beginOp]
  refine (namex_carries h₁.carries path true).seq ?_
  rintro (- | ⟨dp, name⟩) s₂ h₂
  · exact endOp_carries h₂ _
  refine (ilock_carries h₂ List.mem_cons_self).seq fun _ s₃ h₃ => ?_
  rw [wp_ite]
  refine ⟨fun _ => sysUnlinkBad_spec h₃, fun _ => ?_⟩
  refine (dirlookup_carries h₃ List.mem_cons_self name).seq ?_
  rintro (- | ⟨ip, off⟩) s₄ ⟨h₄, hoff⟩
  · exact sysUnlinkBad_spec h₄
  refine (ilock_carries h₄ List.mem_cons_self).seq fun _ s₅ h₅ => ?_
  rw [wp_bind, wp_slot, wp_ite]
  refine ⟨fun _ => h₅.good.stops (by simp), fun _ => ?_⟩
  rw [wp_bind, wp_slot, wp_ite]
  refine ⟨fun _ => ?_, fun _ => sysUnlink_clear_spec h₅ (by simp) (by simp) (hoff _ rfl)⟩
  -- only an empty directory is removed
  refine (isdirempty_carries h₅ List.mem_cons_self).seq fun empty s₆ h₆ => ?_
  rw [wp_ite]
  refine ⟨fun _ => ?_, fun _ => sysUnlink_clear_spec h₆ (by simp) (by simp) (hoff _ rfl)⟩
  exact (iunlockput_good h₆).seq fun _ s₇ h₇ => sysUnlinkBad_spec h₇

end Nunix.Fs
