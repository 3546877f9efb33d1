/-
Nunix/Fs/Paths.lean

The inode cache, directories and paths on the namespace.

Every function of fs.c up to `namex` is specified by the node it reads or changes, the
references it takes and gives back, and the locks.  `namex` finds what `resolve` finds.  An
inode without links that it passes is freed on the way, unless it is referenced by someone
else (`Kept`).
-/
import Nunix.Fs.Entries

namespace Nunix.Fs

open Bytes Hoare
open Function (update update_of_ne update_self)

variable {E : Halt → FsSt → Prop}

/-- Every inode without links is in the cache, read and referenced. -/
def Kept (all : List ℕ) (s : FsSt) (N : Names) : Prop :=
  ∀ i, (N i).type ≠ 0 → (N i).nlink = 0 →
    ∃ k ∈ all, (s.icache k).inum = i ∧ (s.icache k).valid = true

section Paths

variable {sb : Superblock} {H : List (Disk × ℕ)} {all L : List ℕ} {s s' : FsSt} {N : Names}
  {V V' : ℕ → Dinode} {k dp i e : ℕ} {w : Promise} {cs : List (List UInt8)} {c l : List UInt8}

theorem Kept.frame (h : Kept all s N) (hf : Frame all s s') : Kept all s' N := by
  intro i ht h0
  obtain ⟨k, hk, hi, hv⟩ := h i ht h0
  exact ⟨k, hk, (hf.inum k hk).trans hi, hf.valid k hk hv⟩

theorem Kept.cons (h : Kept all s N) : Kept (k :: all) s N := by
  intro i ht h0
  obtain ⟨l, hl, hrest⟩ := h i ht h0
  exact ⟨l, List.mem_cons_of_mem k hl, hrest⟩

/-! ### References and locks -/

/-- A change of one cache entry. -/
theorem Ns.setSlot (h : Ns sb H all L s N) {ip : Inode} {all' L' : List ℕ}
    (hI : ∃ V, Inv sb H True (s.setSlot k ip) V) (href : ip.ref = all'.count k)
    (hother : ∀ l ≠ k, all'.count l = all.count l)
    (hbusy : k ∈ all' → (ip.busy = true ↔ k ∈ L')) (hlocks : ∀ l ≠ k, l ∈ L' ↔ l ∈ L)
    (hsub : k ∈ L' → k ∈ all') : Ns sb H all' L' (s.setSlot k ip) N := by
  have hmem : ∀ l ≠ k, l ∈ all' ↔ l ∈ all := fun l hl => by
    rw [← List.count_pos_iff, ← List.count_pos_iff, hother l hl]
  refine ⟨hI, fun l => ?_, fun l hl => ?_, fun l hl => ?_, h.names⟩
  · by_cases hlk : l = k
    · rw [hlk, setSlot_self, href]
    · rw [setSlot_of_ne hlk, h.counted l, hother l hlk]
  · by_cases hlk : l = k
    · subst hlk
      rw [setSlot_self]
      exact hbusy hl
    · rw [setSlot_of_ne hlk, hlocks l hlk]
      exact h.locked l ((hmem l hlk).mp hl)
  · by_cases hlk : l = k
    · subst hlk
      exact hsub hl
    · exact (hmem l hlk).mpr (h.locks_sub l ((hlocks l hlk).mp hl))

theorem count_cons_of_ne' {l : ℕ} (h : l ≠ k) : (k :: all).count l = all.count l :=
  List.count_cons_of_ne (Ne.symm h)

/-- One more reference to an entry. -/
theorem Ns.addRef (h : Ns sb H all L s N) (hk : k ∈ all) :
    Ns sb H (k :: all) L (s.setSlot k { s.icache k with ref := (s.icache k).ref + 1 }) N := by
  obtain ⟨V, hI⟩ := h.inv
  refine h.setSlot ⟨V, hI.addRef (h.ref_pos hk)⟩ ?_ (fun l hl => count_cons_of_ne' hl)
    (fun _ => h.locked k hk) (fun _ _ => Iff.rfl) fun _ => List.mem_cons_self
  rw [List.count_cons_self, h.counted k]
  push_cast
  ring

/-- A cache of fewer references than entries has a free one. -/
theorem Ns.exists_free (h : Ns sb H all L s N) (hlen : all.length < NINODE) :
    ∃ k ∈ List.range NINODE, (s.icache k).ref = 0 := by
  by_contra hno
  simp only [not_exists, not_and] at hno
  have hsub : List.range NINODE ⊆ all := by
    intro k hk
    refine h.mem_of_ref ?_
    have h0 := hno k hk
    rw [h.counted k] at h0 ⊢
    omega
  have := (List.nodup_range.subperm hsub).length_le
  rw [List.length_range] at this
  omega

theorem iget_ns (h : Ns sb H all L s N) (hi : i < sb.ninodes)
    (hroom : w.room → all.length < NINODE) :
    Wp (iget i) (fun k s' => Ns sb H (k :: all) L s' N ∧ Frame all s s' ∧
      (s'.icache k).inum = i) (Excused w) s := by
  obtain ⟨V, hI⟩ := h.inv
  refine wp_iget (fun k hpos hinum => ?_) (fun k hk hfree hnew => ?_) fun hfull _ => ?_
  · exact ⟨h.addRef (h.mem_of_ref hpos), frame_setSlot fun _ => ⟨rfl, id⟩, by simpa using hinum⟩
  · have hnot : k ∉ all := fun hkh => by
      have := h.ref_pos hkh
      omega
    refine ⟨h.setSlot ⟨V, hI.setSlot (hI.cache.insert hk hi
      (fun l hl => hnew l (hI.cache.slot_lt hl) hl) rfl rfl rfl)⟩ ?_
      (fun l hl => count_cons_of_ne' hl) (fun _ => ?_) (fun _ _ => Iff.rfl)
      (fun _ => List.mem_cons_self), frame_setSlot fun hkh => absurd hkh hnot, by simp⟩
    · rw [List.count_cons_self, List.count_eq_zero_of_not_mem hnot]
      rfl
    · exact ⟨fun hb => Bool.noConfusion hb, fun hL => absurd (h.locks_sub k hL) hnot⟩
  · show ¬ w.room
    intro hw
    obtain ⟨k, hk, h0⟩ := h.exists_free (hroom hw)
    exact hfull k (List.mem_range.mp hk) h0

theorem idup_ns (h : Ns sb H all L s N) (hk : k ∈ all) :
    Wp (idup k) (fun l s' => l = k ∧ Ns sb H (k :: all) L s' N ∧ Frame all s s') E s := by
  unfold idup
  rw [wp_bind, wp_modifySlot, wp_pure]
  exact ⟨rfl, h.addRef hk, frame_setSlot fun _ => ⟨rfl, id⟩⟩

/-- `ilock` of an entry that is not locked. -/
theorem ilock_ns (h : Ns sb H all L s N) (hk : k ∈ all) (hL : k ∉ L)
    (hlive : w.live → (N (s.icache k).inum).type ≠ 0) :
    Wp (ilock k) (fun _ s' => Ns sb H all (k :: L) s' N ∧ Frame all s s' ∧
      Loaded s' k (s.icache k).inum) (Excused w) s := by
  obtain ⟨V, hI⟩ := h.inv
  have hpos := h.ref_pos hk
  have hfree : (s.icache k).busy = false := by
    rcases e : (s.icache k).busy with - | -
    · rfl
    · exact absurd ((h.locked k hk).mp e) hL
  have hset : ∀ {ip : Inode}, ip.ref = (s.icache k).ref → ip.busy = true →
      (∃ V, Inv sb H True (s.setSlot k ip) V) → Ns sb H all (k :: L) (s.setSlot k ip) N := by
    intro ip href hb hinv
    refine h.setSlot hinv (href.trans (h.counted k)) (fun _ _ => rfl) (fun _ => ?_)
      (fun l hl => ?_) fun _ => hk
    · simp [hb]
    · simp [hl]
  unfold ilock
  simp only [wp_bind, wp_slot, wp_ite, wp_panic, wp_throw, wp_modifySlot, wp_get, wp_pure,
    setSlot_self, setSlot_disk, hfree]
  refine ⟨fun hr => absurd hpos (by omega), fun _ => ⟨fun hb => Bool.noConfusion hb, fun _ => ?_⟩⟩
  refine ⟨fun _ => wp_ite.mpr ⟨fun h0 => ?_, fun ht => ?_⟩, fun hv => ?_⟩
  · -- no such inode on disk
    show ¬ w.live
    intro hw
    refine hlive hw ?_
    rw [h.node_eq hI (h.inum_lt hk), nodeOf_type, ← (hI.strict trivial).clean _ (h.inum_lt hk)]
    exact h0
  · have hupd : ∀ ip jp : Inode, (s.setSlot k ip).setSlot k jp = s.setSlot k jp := fun ip jp => by
      simp [FsSt.setSlot]
    rw [wp_pure, hupd]
    exact ⟨hset rfl rfl ⟨_, hI.load hpos rfl rfl rfl ht⟩, frame_setSlot fun _ => ⟨rfl, fun _ => rfl⟩,
      by simpa using hpos, by simp, by simp⟩
  · have hv' : (s.icache k).valid = true := by simpa using hv
    exact ⟨hset rfl rfl ⟨V, hI.setSlot (hI.cache.set_same hpos rfl (fun _ => hv') fun _ =>
      ⟨hI.cache.copy hpos hv', hI.cache.type_ne hpos hv'⟩)⟩,
      frame_setSlot fun _ => ⟨rfl, id⟩, by simpa using hpos, by simpa using hv', by simp⟩

/-- A process cannot lock an entry twice. -/
theorem ilock_locked {Q : PUnit → FsSt → Prop} (h : Ns sb H all L s N) (hk : k ∈ L) :
    Wp (ilock k) Q (fun _ _ => True) s := by
  have hb : (s.icache k).busy = true := (h.locked k (h.locks_sub k hk)).mpr hk
  unfold ilock
  simp only [wp_bind, wp_slot, wp_ite, wp_panic, wp_throw, hb]
  exact ⟨fun _ => trivial, fun _ => ⟨fun _ => trivial, fun hbad => absurd trivial hbad⟩⟩

theorem iunlock_ns (h : Ns sb H all (k :: L) s N) (hL : k ∉ L) :
    Wp (iunlock k) (fun _ s' => Ns sb H all L s' N ∧ Frame all s s' ∧
      (s'.icache k).valid = true) E s := by
  obtain ⟨V, hI⟩ := h.inv
  have hk := h.locks_sub k List.mem_cons_self
  have hpos := h.ref_pos hk
  have hl := h.loaded List.mem_cons_self
  have hbusy := (h.locked k hk).mpr List.mem_cons_self
  unfold iunlock
  simp only [wp_bind, wp_slot, wp_ite, wp_panic, wp_modifySlot]
  refine ⟨fun hbad => ?_, fun _ => ⟨h.setSlot ⟨V, hI.setSlot ?_⟩ (h.counted k) (fun _ _ => rfl)
    (fun _ => ?_) (fun l hlk => ?_) (fun hkL => absurd hkL hL), frame_setSlot fun _ => ⟨rfl, id⟩, ?_⟩⟩
  · rcases hbad with hbad | hbad
    · rw [hbusy] at hbad
      cases hbad
    · omega
  · exact hI.cache.set_same hpos rfl (by simp) fun hv =>
      ⟨hI.cache.copy hpos hv, hI.cache.type_ne hpos hv⟩
  · simp [hL]
  · simp [hlk]
  · simpa using hl.valid

/-- What giving up a reference does: an inode without links goes with its last reference. -/
def Gave (sb : Superblock) (H : List (Disk × ℕ)) (all L : List ℕ) (s : FsSt) (N : Names)
    (s' : FsSt) : Prop :=
  ∃ N', Ns sb H all L s' N' ∧ Frame all s s' ∧ N.Frees N' ∧ (Kept all s N → N' = N)

theorem iput_ns (h : Ns sb H (k :: all) L s N) (hL : k ∈ L → k ∈ all) :
    Wp (iput k) (fun _ => Gave sb H all L s N) E s := by
  obtain ⟨V, hI⟩ := h.inv
  have hk : k ∈ k :: all := List.mem_cons_self
  have hpos := h.ref_pos hk
  have hone : (s.icache k).ref = 1 → k ∉ all := by
    rw [h.counted k, List.count_cons_self, ← List.count_eq_zero]
    intro h1
    push_cast at h1
    omega
  refine (iput_inv_spec hI hpos).mono ?_ ?_
  · rintro - s' (⟨-, rfl, hI'⟩ | ⟨href, hv, hnlink, f⟩)
    · refine ⟨N, (h.note _).setSlot ⟨V, hI'⟩ ?_ (fun l hl => (count_cons_of_ne' hl).symm)
        (fun _ => h.locked k hk) (fun _ _ => Iff.rfl) hL,
        (frame_note ..).trans (frame_setSlot fun _ => ⟨rfl, id⟩), .refl, fun _ => rfl⟩
      show (s.icache k).ref - 1 = _
      rw [h.counted k, List.count_cons_self]
      push_cast
      ring
    · have hnot := hone href
      have hne : ∀ l ∈ all, l ≠ k := fun l hl hlk => hnot (hlk ▸ hl)
      have hi := h.inum_lt hk
      have hload : Loaded s k (s.icache k).inum := ⟨hpos, hv, rfl⟩
      have h0 := (h.nlink_eq hload).symm.trans hnlink
      refine ⟨_, ⟨⟨_, f.inv⟩, fun l => ?_, fun l hl => ?_, fun l hl => ?_, ?_⟩,
        ⟨fun l hl => f.inum_of_ne l (hne l hl), fun l hl hv => (f.valid_of_ne l (hne l hl)).trans hv,
          f.cwd⟩, Names.frees_free h0, fun hkept => ?_⟩
      · by_cases hlk : l = k
        · rw [hlk, f.ref, List.count_eq_zero_of_not_mem hnot]
          rfl
        · rw [f.ref_of_ne l hlk, h.counted l, count_cons_of_ne' hlk]
      · rw [f.busy_of_ne l (hne l hl)]
        exact h.locked l (List.mem_cons_of_mem k hl)
      · rcases List.mem_cons.mp (h.locks_sub l hl) with rfl | hl'
        · exact absurd (hL hl) hnot
        · exact hl'
      · rw [hI.names_update f.inv hi (fun j hj => update_of_ne hj _ _) f.content_of_ne,
          h.names, update_self]
        congr 1
        rw [h.node_eq hI hi, nodeOf_nlink] at h0
        simp [nodeOf, Dinode.truncated, T_DIR, Node.free, h0]
      · -- no one else has the inode
        obtain ⟨l, hl', hi', -⟩ := hkept _ (h.type_ne hload) h0
        exact absurd (h.slot_inj (List.mem_cons_of_mem k hl') hk hi' ▸ hl') hnot
  · rintro e s' ⟨-, href, hb, -⟩
    exact absurd (hL ((h.locked k hk).mp hb)) (hone href)

theorem iunlockput_ns (h : Ns sb H (k :: all) (k :: L) s N)
    (hL : k ∉ L) : Wp (iunlockput k) (fun _ => Gave sb H all L s N) E s := by
  unfold iunlockput
  refine (iunlock_ns h hL).seq ?_
  rintro - s₁ ⟨hn₁, hf₁, -⟩
  refine (iput_ns hn₁ fun hk => absurd hk hL).imp ?_
  rintro - s₂ ⟨N', hn₂, hf₂, hfrees, hkept⟩
  exact ⟨N', hn₂, hf₁.tail.trans hf₂, hfrees, fun hk => hkept (hk.frame hf₁.tail)⟩

/-! ### Directories -/

/-- A string without NUL bytes is its own C string. -/
theorem takeWhile_ne_zero (h : (0 : UInt8) ∉ l) : l.takeWhile (· ≠ 0) = l := by
  induction l with
  | nil => rfl
  | cons a l ih =>
      obtain ⟨ha, hl⟩ := not_or.mp fun h' => h (List.mem_cons.mpr h')
      rw [List.takeWhile_cons_of_pos (by simpa using Ne.symm ha), ih hl]

/-- Entries name inodes of the disk. -/
theorem Ns.entry_lt (h : Ns sb H all L s N) (ht : (N i).type = T_DIR) {x : Slot}
    (hx : (N i).slots[e]? = some x) : x.1 < sb.ninodes := by
  obtain ⟨V, hI⟩ := h.inv
  have hi := h.lt_of_type (i := i) (by rw [ht]; decide)
  have hn := h.node_eq hI hi
  rw [hn, nodeOf_type] at ht
  rw [hn, nodeOf, if_pos ht] at hx
  have he : e < (V i).size.toNat / DESIZE := by
    by_contra hlt
    rw [List.getElem?_eq_none (by rw [length_slotsOf]; omega)] at hx
    cases hx
  rw [getElem?_slotsOf he] at hx
  obtain rfl := Option.some.inj hx
  refine hI.dirs i hi ht e ?_
  simp only [DESIZE] at *
  omega

section Dir

variable (h : Ns sb H all L s N) (hl : Loaded s dp i) (ht : (N i).type = T_DIR)

include h hl ht

/-- `dirlookup` finds what `Node.find` finds. -/
theorem dirlookup_ns (hsize : (N i).size = DESIZE * (N i).slots.length)
    (hroom : w.room → all.length < NINODE) (name : List UInt8) :
    Wp (dirlookup dp name) (fun r s' =>
      match (N i).find name with
      | none => r = none ∧ s' = s
      | some (j, e) => ∃ k, r = some (k, DESIZE * e) ∧ Ns sb H (k :: all) L s' N ∧
          Frame all s s' ∧ (s'.icache k).inum = j) (Excused w) s := by
  unfold dirlookup
  simp only [wp_bind, wp_slot, wp_ite, h.type_eq hl, h.size_eq hl ht, hsize]
  refine ⟨fun hbad => absurd ht hbad, fun _ =>
    (h.reads hl ht).dirlookupLoop name _ 0 (Nat.zero_le _) rfl ?_⟩
  rw [List.drop_zero, ← Node.find]
  rcases e : (N i).find name with - | ⟨j, e'⟩
  · exact ⟨rfl, rfl⟩
  · refine (iget_ns h (h.entry_lt ht (Node.find_eq_some e).1) hroom).imp ?_
    rintro k s' ⟨hn, hf, hk⟩
    exact ⟨k, rfl, hn, hf, hk⟩

theorem isdirempty_ns
    (hsize : (N i).size = DESIZE * (N i).slots.length) :
    Wp (isdirempty dp) (fun r s' => r = (N i).isEmpty ∧ s' = s) E s := by
  unfold isdirempty
  rw [wp_bind, wp_slot, h.size_eq hl ht, hsize, Nat.mul_comm 2]
  rcases Nat.lt_or_ge (N i).slots.length 2 with hlt | hge
  · -- there is nothing to read
    have hrest : (N i).rest = [] := List.drop_eq_nil_of_le hlt.le
    rw [isdiremptyLoop, dif_neg (by simp only [DESIZE]; omega), wp_pure, Node.isEmpty, hrest]
    exact ⟨rfl, rfl⟩
  · exact (h.reads hl ht).isdiremptyLoop _ 2 hge rfl

/-- `dirlink` fills the vacant entry, unless the name is there. -/
theorem dirlink_ns (hsize : (N i).size = DESIZE * (N i).slots.length)
    (hroom : w.room → all.length < NINODE)
    (hvacant : w.vacancy → (N i).vacant < (N i).slots.length) {name : List UInt8}
    (hname : (0 : UInt8) ∉ name) {inum : ℕ} (hinum : inum < sb.ninodes) (h16 : inum < 2 ^ 16) :
    Wp (dirlink dp name inum) (fun r s' => r = -1 ∧ (N i).find name ≠ none ∨
      r = 0 ∧ (N i).find name = none ∧ Frame all s s' ∧ Ns sb H all L s' (update N i
        ((N i).put (N i).vacant (inum, name.take DIRSIZ)))) (Excused w) s := by
  unfold dirlink
  refine (dirlookup_ns h hl ht hsize hroom name).seq ?_
  rcases e : (N i).find name with - | ⟨j, off⟩
  · -- the name is new
    rintro r s₁ ⟨rfl, rfl⟩
    simp only [wp_bind, wp_slot, h.size_eq hl ht, hsize]
    refine ((h.reads hl ht).emptyLoop _ 0 (Nat.zero_le _) rfl).imp ?_
    rintro off s₂ ⟨rfl, rfl⟩
    rw [List.drop_zero, ← Node.vacant]
    have hde : deInum (dirent inum name) = inum := deInum_dirent h16 name
    have hnm : deName (dirent inum name) = name.take DIRSIZ := by
      rw [deName_dirent]
      exact takeWhile_ne_zero fun h0 => hname (List.mem_of_mem_take h0)
    refine (h.write_entry hl ht hsize Node.vacant_le (hde.symm ▸ hinum) hvacant).seq ?_
    rintro r s₃ ⟨hss, ⟨rfl, -, hfull⟩ | ⟨rfl, hn⟩⟩
    · rw [wp_ite]
      refine ⟨fun _ => ?_, fun hbad => absurd hbad (by decide)⟩
      show ¬ w.vacancy
      exact fun hv => hfull (hvacant hv)
    · rw [wp_ite]
      refine ⟨fun hbad => absurd rfl hbad, fun _ => Or.inr ⟨rfl, trivial, hss.frame all, ?_⟩⟩
      rwa [hde, hnm] at hn
  · -- it is there already
    rintro r s₁ ⟨k, rfl, hn, -, -⟩
    exact (iput_ns hn fun hkL => h.locks_sub k hkL).seq fun _ _ _ => Or.inl ⟨rfl, by simp⟩

end Dir

/-! ### Inodes -/

theorem nodeOf_zero (type : Int16) (c : Bytes) :
    nodeOf { Dinode.zero with type := type } c = ⟨type, 0, 0, []⟩ := by
  simp [nodeOf, Dinode.zero, slotsOf]

/-- `ialloc` takes the first free inode. -/
theorem ialloc_ns (h : Ns sb H all L s N) (type : Int16) (hroom : w.room → all.length < NINODE)
    (hw : ¬ w.inodes) :
    Wp (ialloc type) (fun k s' => ∃ i,
      (List.range' 1 (sb.ninodes - 1)).find? (fun j => (N j).type == 0) = some i ∧
      Ns sb H (k :: all) L s' (update N i ⟨type, 0, 0, []⟩) ∧ Frame all s s' ∧
      (s'.icache k).inum = i) (Excused w) s := by
  obtain ⟨V, hI⟩ := h.inv
  have hfind : (List.range' 1 (sb.ninodes - 1)).find? (fun j => (dinode s.disk j).type == 0)
      = (List.range' 1 (sb.ninodes - 1)).find? fun j => (N j).type == 0 := by
    refine List.find?_congr fun j hj => ?_
    have hj : j < sb.ninodes := by
      have := List.mem_range'_1.mp hj
      omega
    rw [h.node_eq hI hj, nodeOf_type, (hI.strict trivial).clean j hj]
  unfold ialloc
  simp only [wp_bind, wp_note, wp_get, note_disk, hI.super, hfind]
  rcases e : (List.range' 1 (sb.ninodes - 1)).find? fun j => (N j).type == 0 with - | i
  · exact hw
  · have hmem := List.mem_range'_1.mp (List.mem_of_find?_eq_some e)
    have hi : i < sb.ninodes := by omega
    have ht : (V i).type = 0 := by
      have h0 : (N i).type = 0 := by simpa using List.find?_some e
      rwa [h.node_eq hI hi, nodeOf_type] at h0
    have hcache : Cached sb s.icache (update V i { Dinode.zero with type := type }) := by
      refine hI.cache.table fun hl hv hli => ?_
      exact hI.cache.type_ne hl hv (hli.symm ▸ ht)
    rw [wp_bind, wp_logWrite]
    obtain ⟨hI', hcontent⟩ : Inv sb H True ((s.note .ialloc).write (IBLOCK i)
        (withDinode s.disk i { Dinode.zero with type := type })) _ ∧ _ :=
      hI.clearInode hi (fun p => if_neg fun h' => h'.2.1 ht) rfl (fun _ => rfl) rfl hcache rfl
    have hn : Ns sb H all L ((s.note .ialloc).write (IBLOCK i)
        (withDinode s.disk i { Dinode.zero with type := type }))
        (update N i ⟨type, 0, 0, []⟩) := by
      refine ⟨⟨_, hI'⟩, h.counted, h.locked, h.locks_sub, ?_⟩
      rw [hI.names_update hI' hi (fun j hj => update_of_ne hj _ _) fun j _ => hcontent j,
        h.names, update_self]
      rw [nodeOf_zero]
    refine (iget_ns hn hi hroom).imp ?_
    rintro k s' ⟨hn', hf, hk⟩
    exact ⟨i, rfl, hn', ⟨hf.inum, hf.valid, hf.cwd⟩, hk⟩

/-- Storing an inode with another link count. -/
theorem setLinks_ns (h : Ns sb H all L s N) (hl : Loaded s k i)
    {f : Inode → Inode}
    (hf : f (s.icache k) = { s.icache k with toDinode := (f (s.icache k)).toDinode })
    (haddrs : (f (s.icache k)).addrs = (s.icache k).addrs)
    (htype : (f (s.icache k)).type = (s.icache k).type)
    (hsize : (f (s.icache k)).size = (s.icache k).size) :
    Wp (modifySlot k f) (fun _ => Wp (iupdate k) (fun _ s' => Ns sb H all L s'
      (update N i { N i with nlink := (f (s.icache k)).nlink }) ∧ SameSlots s s') E)
      E s := by
  obtain ⟨V, hI⟩ := h.inv
  have heq := hI.inode_eq hl
  have hi := hI.inum_lt hl
  rw [wp_modifySlot, wp_iupdate, setSlot_self, setSlot_disk]
  have hinum : (f (s.icache k)).inum = (s.icache k).inum := by rw [hf]
  set n := (f (s.icache k)).toDinode with hn
  have hst : ((s.setSlot k (f (s.icache k))).note (.iupdate k)).write
      (IBLOCK (f (s.icache k)).inum) (withDinode s.disk (f (s.icache k)).inum n)
      = s.setInode k n := by
    rw [FsSt.setInode, hn, ← hf, hinum]
  rw [hst]
  have hss : SameSlots s (s.setInode k n) := sameSlots_setInode _
  have ha : n.addrs = (V i).addrs := by rw [← heq, ← haddrs]
  have ht : n.type = (V i).type := by rw [← heq, ← htype]
  have hs : n.size = (V i).size := by rw [← heq, ← hsize]
  have hI' := hI.setFields hl ha ht hs
  have hcontent := hI.setInode_content hl ha ht
  refine ⟨h.of_sameSlots hI' hss ?_, hss⟩
  rw [hI.names_update hI' hi (fun j hj => update_of_ne hj _ _) fun j _ => hcontent j,
    h.names, update_self, hcontent]
  congr 1
  rw [h.node_eq hI hi]
  unfold nodeOf
  rw [ht, hs]
  split_ifs <;> rfl

/-! ### Paths -/

/-- The inode `namex` has found: the last one of the path, or the last but one and a name. -/
def Leads (N : Names) (parent : Bool) (i : ℕ) (cs : List (List UInt8))
    (r : Option (ℕ × List UInt8)) : Prop :=
  if parent then r = resolveParent N i cs else r.map Prod.fst = resolve N i cs

/-- The references after `namex`. -/
def Found (sb : Superblock) (H : List (Disk × ℕ)) (all : List ℕ) (N : Names) (s' : FsSt) :
    Option (ℕ × List UInt8) → Prop
  | none => Ns sb H all [] s' N
  | some (k, _) => Ns sb H (k :: all) [] s' N

/-- The inodes of cache entries. -/
def inumOf (s : FsSt) (r : Option (ℕ × List UInt8)) : Option (ℕ × List UInt8) :=
  r.map fun q => ((s.icache q.1).inum, q.2)

/-- The entries of directories lead to inodes. -/
def Names.Live (N : Names) : Prop :=
  ∀ d, (N d).type = T_DIR → ∀ x ∈ (N d).slots, x.1 ≠ 0 → (N x.1).type ≠ 0

/-- The directories end with an entry. -/
def Names.Whole (N : Names) : Prop :=
  ∀ d, (N d).type = T_DIR → (N d).size = DESIZE * (N d).slots.length

/-- What `namex` has done; nothing is freed under the condition `K`. -/
def Walked (sb : Superblock) (H : List (Disk × ℕ)) (all : List ℕ) (N : Names) (K : Prop)
    (parent : Bool) (i : ℕ) (cs : List (List UInt8)) (s : FsSt) (r : Option (ℕ × List UInt8))
    (s' : FsSt) : Prop :=
  Frame all s s' ∧ Leads N parent i cs (inumOf s' r) ∧
    ∃ N', N.Frees N' ∧ (K → N' = N) ∧ Found sb H all N' s' r

theorem leads_none {parent : Bool} (h : look N i c = none) (hp : ¬ (parent = true ∧ cs = [])) :
    Leads N parent i (c :: cs) none := by
  unfold Leads
  split_ifs with hpar
  · rw [resolveParent_cons fun h0 => hp ⟨hpar, h0⟩, h, Option.bind_none]
  · rw [resolve_cons, h, Option.bind_none, Option.map_none]

theorem leads_cons {parent : Bool} {j : ℕ} {r : Option (ℕ × List UInt8)} (h : look N i c = some j)
    (hp : ¬ (parent = true ∧ cs = [])) (hr : Leads N parent j cs r) :
    Leads N parent i (c :: cs) r := by
  unfold Leads at *
  split_ifs at hr ⊢ with hpar
  · rw [resolveParent_cons fun h0 => hp ⟨hpar, h0⟩, h, Option.bind_some, hr]
  · rw [resolve_cons, h, Option.bind_some, hr]

theorem namexLoop_ns {K : Prop} (hwhole : N.Whole) (hlive : w.live → K ∧ N.Live)
    (hroom : w.room → all.length + 1 < NINODE) (parent : Bool) :
    ∀ (path : List UInt8) (ip : ℕ) (name : List UInt8) (s : FsSt) (N₁ : Names),
    Ns sb H (ip :: all) [] s N₁ → N.Frees N₁ → (K → N₁ = N ∧ Kept all s N) →
    (w.live → (N (s.icache ip).inum).type ≠ 0) →
    Wp (namexLoop parent path ip name)
      (Walked sb H all N K parent (s.icache ip).inum (components path) s) (Excused w) s := by
  intro path
  -- `skipelem` shortens the path
  induction hM : path.length using Nat.strong_induction_on generalizing path with
  | _ M ih =>
    intro ip name s N₁ h hfr hK hal
    have hal₁ : w.live → (N₁ (s.icache ip).inum).type ≠ 0 := fun hw => by
      rw [(hK (hlive hw).1).1]
      exact hal hw
    rw [namexLoop]
    split
    · rename_i rest name' hskip
      have hrest := skipelem_rest hskip
      rw [components_skipelem hskip]
      refine (ilock_ns h List.mem_cons_self (List.not_mem_nil) hal₁).seq ?_
      rintro - s₁ ⟨hn₁, hf₁, hl₁⟩
      set i := (s.icache ip).inum with hi
      -- the inode is there
      have hNi : N₁ i = N i := hfr.eq_of_type (hn₁.type_ne hl₁)
      rw [wp_bind, wp_slot, hn₁.type_eq hl₁, hNi]
      have hK₁ : K → Kept all s₁ N₁ := fun hk => (hK hk).1 ▸ (hK hk).2.frame hf₁.tail
      -- the name is not found
      have hnone : Leads N parent i (name' :: components rest) none →
          Wp (do iunlockput ip; return none)
            (Walked sb H all N K parent i (name' :: components rest) s) (Excused w) s₁ := by
        intro hleads
        refine (iunlockput_ns hn₁ List.not_mem_nil).seq ?_
        rintro - s₂ ⟨N₂, hn₂, hf₂, hfr₂, hk₂⟩
        exact ⟨hf₁.tail.trans hf₂, hleads, N₂, hfr.trans hfr₂,
          fun hk => (hk₂ (hK₁ hk)).trans (hK hk).1, hn₂⟩
      rw [wp_ite]
      refine ⟨fun ht => hnone ?_, fun ht => ?_⟩
      · by_cases hp : parent = true ∧ components rest = []
        · rw [Leads, if_pos hp.1, hp.2, resolveParent_single, if_neg ht]
        · exact leads_none (if_neg ht) hp
      rw [wp_ite]
      refine ⟨fun hp => ?_, fun hp => ?_⟩
      · refine (iunlock_ns hn₁ List.not_mem_nil).seq ?_
        rintro - s₂ ⟨hn₂, hf₂, -⟩
        refine ⟨(hf₁.trans hf₂).tail, ?_, N₁, hfr, fun hk => (hK hk).1, hn₂⟩
        rw [Leads, if_pos hp.1, hrest.mp hp.2, resolveParent_single, if_pos (not_not.mp ht), inumOf,
          Option.map_some, (hf₁.trans hf₂).inum ip List.mem_cons_self]
      · have ht' := not_not.mp ht
        have hp' : ¬ (parent = true ∧ components rest = []) := by rwa [← hrest]
        refine (dirlookup_ns hn₁ hl₁ (hNi ▸ ht') (hNi ▸ hwhole i ht')
          (fun hr => by simpa using hroom hr) name').seq ?_
        rw [hNi]
        rcases e : (N i).find name' with - | ⟨j, off⟩
        · rintro r s₂ ⟨rfl, rfl⟩
          exact hnone (leads_none (by rw [look, if_pos ht', e]; rfl) hp')
        · rintro r s₂ ⟨next, rfl, hn₂, hf₂, hnext⟩
          have hlook : look N i name' = some j := look_eq_some.mpr ⟨ht', off, e⟩
          refine (iunlockput_ns hn₂.swap List.not_mem_nil).seq ?_
          rintro - s₃ ⟨N₃, hn₃, hf₃, hfr₃, hk₃⟩
          have hnext₃ : (s₃.icache next).inum = j :=
            (hf₃.inum next List.mem_cons_self).trans hnext
          have hf := (hf₁.tail.trans hf₂.tail).trans hf₃.tail
          have hlen : rest.length < M := hM ▸ skipelem_length hskip
          refine (ih _ hlen rest rfl next name' s₃ N₃ hn₃ (hfr.trans hfr₃) (fun hk => ?_) ?_).imp ?_
          · have hN₃ := hk₃ ((hK₁ hk).frame hf₂.tail).cons
            exact ⟨hN₃.trans (hK hk).1, (hK hk).2.frame hf⟩
          · intro hw
            obtain ⟨hget, hj⟩ := Node.find_eq_some e
            rw [hnext₃]
            exact (hlive hw).2 i ht' _ (List.mem_of_getElem? hget) hj
          · rintro r s₄ ⟨hf₄, hleads, hfound⟩
            rw [hnext₃] at hleads
            exact ⟨hf.trans hf₄, leads_cons hlook hp' hleads, hfound⟩
    · rename_i hskip
      rw [components_skipelem_none hskip, wp_ite]
      refine ⟨fun hp => ?_, fun hp => ?_⟩
      · refine (iput_ns h (fun hk => nomatch hk)).seq ?_
        rintro - s₁ ⟨N', hn₁, hf₁, hfr₁, hk₁⟩
        refine ⟨hf₁, ?_, N', hfr.trans hfr₁, fun hk => ?_, hn₁⟩
        · rw [Leads, if_pos hp]
          rfl
        · exact (hk₁ ((hK hk).1 ▸ (hK hk).2)).trans (hK hk).1
      · refine ⟨.refl all s, ?_, N₁, hfr, fun hk => (hK hk).1, h⟩
        rw [Leads, if_neg hp]
        rfl

/-- The inode a path starts from. -/
def startOf (s : FsSt) (path : List UInt8) : ℕ :=
  if path.head? = some slash then ROOTINO else (s.icache s.cwd).inum

/-- `namex` finds what `resolve` finds. -/
theorem namex_ns (h : Ns sb H all [] s N) (hwhole : N.Whole) (hcwd : s.cwd ∈ all)
    (hroot : ROOTINO < sb.ninodes) (path : List UInt8)
    (hlive : w.live → Kept all s N ∧ N.Live ∧ (N (startOf s path)).type ≠ 0)
    (hroom : w.room → all.length + 1 < NINODE) (parent : Bool) :
    Wp (namex path parent) (Walked sb H all N (Kept all s N) parent (startOf s path)
      (components path) s) (Excused w) s := by
  -- from the root or from the current directory
  have hloop : ∀ ip s₁, Ns sb H (ip :: all) [] s₁ N → Frame all s s₁ →
      (s₁.icache ip).inum = startOf s path →
      Wp (namexLoop parent path ip []) (Walked sb H all N (Kept all s N) parent (startOf s path)
        (components path) s) (Excused w) s₁ := by
    intro ip s₁ hn₁ hf₁ hi
    refine (namexLoop_ns hwhole (fun hw => ⟨(hlive hw).1, (hlive hw).2.1⟩) hroom parent path ip [] s₁
      N hn₁ .refl (fun hk => ⟨rfl, hk.frame hf₁⟩) fun hw => hi ▸ (hlive hw).2.2).imp ?_
    rintro r s₂ ⟨hf₂, hfound⟩
    rw [hi] at hfound
    exact ⟨hf₁.trans hf₂, hfound⟩
  unfold namex
  simp only [wp_ite, wp_bind, wp_get]
  refine ⟨fun hs => ?_, fun hs => ?_⟩
  · refine (iget_ns h hroot fun hr => (hroom hr).trans_le' (by omega)).imp ?_
    rintro ip s₁ ⟨hn₁, hf₁, hi⟩
    exact hloop ip s₁ hn₁ hf₁ (by rw [hi, startOf, if_pos hs])
  · refine (idup_ns h hcwd).imp ?_
    rintro ip s₁ ⟨rfl, hn₁, hf₁⟩
    exact hloop _ s₁ hn₁ hf₁ (by rw [hf₁.inum _ hcwd, startOf, if_neg hs])

/-- **Path resolution is a fold over the components.**  In a state with nothing locked, whose
directories end with an entry, `namei` returns the inode that `resolve` reaches: the components
are looked up one after another, from the root directory or from the current directory.
`nameiparent` does this for all components but the last and returns the directory and the last
one; `dirlookup` of this name there finds what `namei` finds.  The calls stop only if no entry
of the inode cache is free or the path leads to a free inode.  Only the runs between slashes
matter. -/
theorem namei_fold (h : Ns sb H all [] s N) (hwhole : N.Whole) (hcwd : s.cwd ∈ all)
    (hroot : ROOTINO < sb.ninodes) (path : List UInt8)
    (hlive : w.live → Kept all s N ∧ N.Live ∧ (N (startOf s path)).type ≠ 0)
    (hroom : w.room → all.length + 1 < NINODE) :
    Wp (namei path) (fun r s' => r.map (fun k => (s'.icache k).inum)
      = resolve N (startOf s path) (components path)) (Excused w) s ∧
    Wp (nameiparent path) (fun r s' =>
      inumOf s' r = resolveParent N (startOf s path) (components path) ∧
      ∀ dp name, r = some (dp, name) → Wp (do ilock dp; dirlookup dp name) (fun q s'' =>
        q.map (fun q => (s''.icache q.1).inum) = resolve N (startOf s path) (components path))
        (Excused w) s') (Excused w) s ∧
    ∀ a b, components (a ++ slash :: b) = components a ++ components b := by
  refine ⟨?_, ?_, fun a b => components_append⟩
  · unfold namei
    refine (namex_ns h hwhole hcwd hroot path hlive hroom false).seq ?_
    rintro r s' ⟨-, hleads, -⟩
    rcases r with - | ⟨k, name⟩
    · exact hleads
    · exact hleads
  · unfold nameiparent
    refine (namex_ns h hwhole hcwd hroot path hlive hroom true).imp ?_
    rintro r s' ⟨hf, hleads, N', hfrees, hkept, hfound⟩
    refine ⟨hleads, ?_⟩
    rintro dp name rfl
    obtain ⟨cs, hcs, hres, ht⟩ := resolveParent_eq_some.mp hleads.symm
    have hend : resolve N (startOf s path) (components path) = look N (s'.icache dp).inum name := by
      rw [hcs, resolve_concat, hres, Option.bind_some]
    rw [hend]
    refine (ilock_ns hfound List.mem_cons_self List.not_mem_nil fun hw => ?_).seq ?_
    · rw [hkept (hlive hw).1, ht]
      decide
    rintro - s₁ ⟨hn₁, -, hl₁⟩
    have hN := hfrees.eq_of_type (hn₁.type_ne hl₁)
    refine (dirlookup_ns hn₁ hl₁ (by rw [hN, ht]) (by rw [hN]; exact hwhole _ ht)
      (fun hr => by simpa using hroom hr) name).imp ?_
    intro r s₂ hr
    rw [hN] at hr
    rw [look, if_pos ht]
    rcases e : (N (s'.icache dp).inum).find name with - | ⟨j, off⟩
    · rw [e] at hr
      rw [hr.1]
      rfl
    · rw [e] at hr
      obtain ⟨k, rfl, -, -, hk⟩ := hr
      rw [Option.map_some, hk]
      rfl

end Paths

/-- The kernel after boot holds its current directory. -/
theorem WellFormed.ns {d : Disk} {c : ℕ → ℤ × Bytes} (h : WellFormed (mounted d c)) :
    Ns (superblock d) [] [0] [] (mounted d c) (names d) := by
  refine ⟨⟨_, h.inv⟩, fun k => ?_, fun k _ => by simp [mounted], nofun, rfl⟩
  by_cases hk : k = 0
  · simp [mounted, hk]
  · simp [mounted, hk, Ne.symm hk]

theorem tiny_names (i : ℕ) : names (tinyDisk 1) i =
    if i = 1 then ⟨T_DIR, 1, 16, [(1, [97])]⟩ else .free := by
  rcases Nat.lt_or_ge i 8 with hi | hi
  · interval_cases i <;> decide +kernel
  · rw [if_neg (by omega)]
    exact if_neg (by rw [tiny_superblock]; exact not_lt.mpr hi)

/-- The path "//a/a" leads from the root directory of the small disk back to it. -/
theorem rootDir_resolves : ∃ k s', namei [47, 47, 97, 47, 97] (tiny 1) = .ok (some k) s' ∧
    (s'.icache k).inum = 1 := by
  have h1 : names (tinyDisk 1) 1 = ⟨T_DIR, 1, 16, [(1, [97])]⟩ := tiny_names 1
  have hN : ∀ {i}, (names (tinyDisk 1) i).type ≠ 0 → i = 1 := fun {i} ht => by
    by_contra h1
    rw [tiny_names, if_neg h1] at ht
    exact ht rfl
  have hwhole : (names (tinyDisk 1)).Whole := fun i ht => by
    rw [hN (i := i) (by rw [ht]; decide), h1]
    rfl
  have hkept : Kept [0] (tiny 1) (names (tinyDisk 1)) := fun i ht h0 => by
    rw [hN ht, h1] at h0
    cases h0
  have hlive : (names (tinyDisk 1)).Live := fun i ht x hx _ => by
    rw [hN (i := i) (by rw [ht]; decide), h1, List.mem_singleton] at hx
    rw [hx, h1]
    decide
  have hcs : components [47, 47, 97, 47, 97] = [[97], [97]] := by
    simp [components, List.splitOn_cons_eq_if_modifyHead, slash, DIRSIZ]
  have hres : resolve (names (tinyDisk 1)) 1 [[97], [97]] = some 1 := by
    have hlook : look (names (tinyDisk 1)) 1 [97] = some 1 := by
      rw [look, h1]
      rfl
    rw [resolve_cons, hlook, Option.bind_some, resolve_cons, hlook]
    rfl
  obtain ⟨hnamei, -⟩ := @namei_fold _ _ _ _ _ ⟨True, True, True, True⟩
    tiny_wellFormed.ns hwhole (by decide) (by decide) [47, 47, 97, 47, 97]
    (fun _ => ⟨hkept, hlive, by rw [show startOf (mounted (tinyDisk 1) _) _ = 1 from rfl, h1]; decide⟩)
    (by decide)
  rw [hcs] at hnamei
  obtain ⟨r, s', hok, hr⟩ := (hnamei.mono (fun _ _ hr => hr) fun _ _ => not_excused).exists_ok
  have hr := hr.trans hres
  obtain ⟨k, rfl, hk⟩ := Option.map_eq_some_iff.mp hr
  exact ⟨k, s', hok, hk⟩

end Nunix.Fs
