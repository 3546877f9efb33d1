/-
Nunix/Fs/ByteArray.lean

The contents of an inode are an array of bytes.

In a state whose blocks are accounted for (`Formed`) the bytes below the size of an
inode are the list `contents`.  `readi` returns a part of that list and changes
nothing; `writei` replaces a part of it and changes nothing else, if the free blocks
cover what the plan of the write needs (`Fits`).
-/
import Nunix.Fs.Entries
import Nunix.Fs.WriteBudget

namespace Nunix.Fs

open Bytes Hoare Runs

/-- The bytes of inode `i`, reached through its direct and indirect blocks. -/
def contents (d : Disk) (i : ℕ) : List UInt8 :=
  (content d (diskRefs d) i).view (dinode d i).size.toNat

/-- The free blocks cover a write of `n` bytes at `off` to inode `i`. -/
def Fits (d : Disk) (i off n : ℕ) : Prop :=
  (planOf d (dinode d i)).need (blocksOf off n) ≤ (freeList d).length

instance (d : Disk) (i off n : ℕ) : Decidable (Fits d i off n) :=
  inferInstanceAs (Decidable (_ ≤ _))

/-- From the disk `d` to `d'` the bytes `src` replaced those of inode `i` from `off` on, and
no other inode changed. -/
structure Replaced (i off : ℕ) (src : List UInt8) (d d' : Disk) : Prop where
  super : superblock d' = superblock d
  bytes : contents d' i = (contents d i).take off ++ src ++ (contents d i).drop (off + src.length)
  attrs : dinode d' i = { dinode d i with size := (dinode d' i).size, addrs := (dinode d' i).addrs }
  others : ∀ j < (superblock d).ninodes, j ≠ i → contents d' j = contents d j ∧ dinode d' j = dinode d j

@[simp] theorem length_contents (d : Disk) (i : ℕ) :
    (contents d i).length = (dinode d i).size.toNat := by
  simp [contents]

section Formed

variable {s : FsSt} {k i off n : ℕ} {src dst : Bytes}

/-- What `writei` stored, in terms of lists. -/
theorem Stored.replaced {s' : FsSt} {V' : ℕ → Dinode} (hi : i < (superblock s.disk).ninodes)
    (w : Stored (superblock s.disk) i off n src s (dinode s.disk) s' V')
    (hc : Core (superblock s.disk) s.ballocs s' V') (hs : Strict s'.disk (superblock s.disk) V') :
    Replaced i off (src.view n) s.disk s'.disk := by
  have hrefs := hc.diskRefs_eq hs
  refine ⟨hc.super, ?_, ?_, fun j hj hji => ⟨?_, ?_⟩⟩
  · rw [contents, hrefs, w.content_self, hs.clean i hi, w.size, length_view]
    exact view_blit _ _ w.within
  · rw [hs.clean i hi]
    exact w.inode
  · rw [contents, hrefs, w.content_of_ne j hji, hs.clean j hj, w.table j hji]
    rfl
  · rw [hs.clean j hj, w.table j hji]

variable (h : Formed s) (hk : Loaded s k i) (ht : (dinode s.disk i).type ≠ T_DEV)

include h hk

theorem Formed.size_le : (dinode s.disk i).size.toNat ≤ MAXFILE * BSIZE :=
  h.strict.size_le (h.core.inum_lt hk) (h.core.type_ne hk)

include ht

/-- `readi` returns the bytes from `off` on, as many as there are up to `n`. -/
theorem Formed.readi_bytes (hoff : off ≤ (contents s.disk i).length) (hwrap : off + n < 2 ^ 32) :
    ∃ dst', readi k dst off n s
        = .ok (((((contents s.disk i).drop off).take n).length : ℤ), dst') s ∧
      dst'.view (((contents s.disk i).drop off).take n).length
        = ((contents s.disk i).drop off).take n ∧
      ∀ x, (((contents s.disk i).drop off).take n).length ≤ x → dst' x = dst x := by
  have hmax := h.size_le hk
  have hMAX : MAXFILE * BSIZE = 71680 := rfl
  rw [length_contents] at hoff
  set m := min n ((dinode s.disk i).size.toNat - off) with hm
  have hlen : (((contents s.disk i).drop off).take n).length = m := by simp [hm]
  have hpres := h.strict.present (h.core.inum_lt hk) (h.core.type_ne hk)
    (show off + m ≤ (dinode s.disk i).size.toNat by omega)
  have hrun : Wp (readi k dst off n) (fun r s' => r = ((m : ℤ), dst.blit 0 m
      ((content s.disk (diskRefs s.disk) i).drop off)) ∧ s' = s) (fun _ _ => False) s :=
    readi_clipped h.core hk ht dst hoff hwrap hm (by omega) hpres ⟨rfl, rfl⟩
  obtain ⟨r, s', hok, rfl, rfl⟩ := hrun.exists_ok
  rw [hlen]
  refine ⟨_, hok, ?_, fun x hx => blit_apply_of_notMem (Or.inr (by omega))⟩
  have hview : (dst.blit 0 m ((content s'.disk (diskRefs s'.disk) i).drop off)).view m
      = ((content s'.disk (diskRefs s'.disk) i).drop off).view m :=
    view_congr fun x hx => blit_apply_of_mem (Nat.zero_le x) (by omega)
  rw [hview, view_drop _ (show off + m ≤ (dinode s'.disk i).size.toNat by omega)]
  show ((contents s'.disk i).drop off).take m = _
  rw [hm, ← length_contents, ← List.length_drop, ← List.take_take, List.take_length]

theorem Formed.readi_refused (hbad : (contents s.disk i).length < off ∨ 2 ^ 32 ≤ off + n)
    (hn : n < 2 ^ 32) : readi k dst off n s = .ok (-1, dst) s := by
  have heq := h.core.inode_eq hk
  have hrun : Wp (readi k dst off n) (fun r s' => r = (-1, dst) ∧ s' = s) (fun _ _ => False) s := by
    unfold readi
    rw [length_contents, ← heq] at hbad
    simp only [wp_bind, wp_slot, wp_ite, wp_pure]
    refine ⟨fun hd => absurd hd (heq ▸ ht), fun _ => ⟨fun _ => ⟨trivial, trivial⟩, fun hok => ?_⟩⟩
    omega
  obtain ⟨r, s', hok, rfl, rfl⟩ := hrun.exists_ok
  exact hok

/-- `writei` replaces the bytes from `off` on. -/
theorem Formed.writei_bytes (hoff : off ≤ (contents s.disk i).length)
    (hmax : off + n ≤ MAXFILE * BSIZE) (hfit : Fits s.disk i off n) :
    ∃ s', writei k src off n s = .ok (n : ℤ) s' ∧ Formed s' ∧ Loaded s' k i ∧
      Replaced i off (src.view n) s.disk s'.disk := by
  have hMAX : MAXFILE * BSIZE = 71680 := rfl
  have heq := h.core.inode_eq hk
  rw [length_contents] at hoff
  have hruns : Wp (writei k src off n) (fun _ _ => True) (fun _ _ => False) s := by
    unfold writei
    simp only [wp_bind, wp_slot, wp_ite, wp_pure]
    refine ⟨fun _ => ⟨fun _ => trivial, fun _ => trivial⟩, fun _ => ⟨fun _ => trivial, fun _ =>
      ⟨fun _ => trivial, fun _ => ?_⟩⟩⟩
    refine (writeiLoop_touched src n 0 off s _ h.core hk).mono ?_ fun _ _ hshort => ?_
    · exact fun _ _ _ => wp_ite.mpr ⟨fun _ => trivial, fun _ => trivial⟩
    · exact absurd hfit (not_le.mpr (hshort (by omega)))
  obtain ⟨r, s', hok, ⟨V', hc, hss, -, hst, hcase⟩, -⟩ :=
    (((writei_core_spec h.core hk src off (by omega)).and hruns).mono (fun _ _ hq => hq)
      fun _ _ he => he.2).exists_ok
  rcases hcase with ⟨-, hdev | ⟨-, hbad⟩⟩ | ⟨rfl, w⟩
  · exact absurd hdev ht
  · omega
  · have hint : toInt32 n = n := by rw [toInt32, if_pos (by omega)]
    rw [hint] at hok
    exact ⟨s', hok, hc.formed (hst h.strict), hss.loaded hk,
      w.replaced (h.core.inum_lt hk) hc (hst h.strict)⟩

/-- **The contents of an inode are an array of bytes.**  In a state whose blocks are
accounted for, let the file or directory `i` be in cache entry `k`.  `writei` refuses the
write exactly if it starts behind the end, if its end wraps, or if it goes beyond the
largest size; else, with enough free blocks, the source bytes take the place of those of
the inode, and no other inode is touched.  `readi` fails exactly if it starts behind the
end or if its end wraps; else it returns the bytes that are there. -/
theorem inode_byte_array (hn : n < 2 ^ 32) :
    (writei k src off n s = .ok (-1) s ↔ (contents s.disk i).length < off ∨
      2 ^ 32 ≤ off + n ∨ MAXFILE * BSIZE < off + n) ∧
    (¬ ((contents s.disk i).length < off ∨ 2 ^ 32 ≤ off + n ∨ MAXFILE * BSIZE < off + n) →
      Fits s.disk i off n → ∃ s', writei k src off n s = .ok (n : ℤ) s' ∧ Formed s' ∧
        Loaded s' k i ∧ Replaced i off (src.view n) s.disk s'.disk) ∧
    ((∃ dst' s', readi k dst off n s = .ok (-1, dst') s') ↔
      (contents s.disk i).length < off ∨ 2 ^ 32 ≤ off + n) ∧
    (¬ ((contents s.disk i).length < off ∨ 2 ^ 32 ≤ off + n) →
      ∃ dst', readi k dst off n s
          = .ok (((((contents s.disk i).drop off).take n).length : ℤ), dst') s ∧
        dst'.view (((contents s.disk i).drop off).take n).length
          = ((contents s.disk i).drop off).take n ∧
        ∀ x, (((contents s.disk i).drop off).take n).length ≤ x → dst' x = dst x) := by
  have hMAX : MAXFILE * BSIZE = 71680 := rfl
  have heq := h.core.inode_eq hk
  have hread : ¬ ((contents s.disk i).length < off ∨ 2 ^ 32 ≤ off + n) →
      off ≤ (contents s.disk i).length ∧ off + n < 2 ^ 32 := by omega
  refine ⟨⟨fun hok => ?_, fun hbad => ?_⟩, fun hgood hfit => ?_, ⟨fun ⟨dst', s', hok⟩ => ?_,
    fun hbad => ⟨_, _, h.readi_refused hk ht hbad hn⟩⟩, fun hgood => ?_⟩
  · -- a write that is done does not return -1
    by_contra hgood
    obtain ⟨V', -, -, -, -, hcase⟩ := (writei_core_spec h.core hk src off hn).of_ok hok
    rw [length_contents] at hgood
    rcases hcase with ⟨-, hdev | ⟨-, hbad⟩⟩ | ⟨hr, -⟩
    · exact ht hdev
    · omega
    · rw [toInt32, if_pos (by omega)] at hr
      omega
  · rw [length_contents] at hbad
    have hrun : Wp (writei k src off n) (fun r s' => r = -1 ∧ s' = s) (fun _ _ => False) s :=
      writei_refused (heq ▸ ht) hn (by rw [← heq] at hbad; omega) ⟨rfl, rfl⟩
    obtain ⟨r, s', hok, rfl, rfl⟩ := hrun.exists_ok
    exact hok
  · exact h.writei_bytes hk ht (by omega) (by omega) hfit
  · by_contra hgood
    obtain ⟨hoff, hwrap⟩ := hread hgood
    obtain ⟨d, hok', -⟩ := @Formed.readi_bytes s k i off n dst h hk ht hoff hwrap
    rw [hok] at hok'
    injection hok' with hr
    have := (Prod.mk.inj hr).1
    omega
  · obtain ⟨hoff, hwrap⟩ := hread hgood
    exact h.readi_bytes hk ht hoff hwrap

end Formed

/-- 600 bytes written to a new file on the small disk, in two blocks. -/
theorem newFile_bytes : ∃ t : FsSt × List ℕ,
    run fsStep (tiny 1, []) [.create [98] T_FILE 0 0] = some t ∧
      ∃ s', writei 1 (fun _ => 7) 0 600 t.1 = .ok 600 s' ∧ Formed s' ∧
        contents s'.disk 2 = List.replicate 600 7 := by
  have hev : (run fsStep (tiny 1, []) [.create [98] T_FILE 0 0]).map (fun t =>
      (decide (0 < (t.1.icache 1).ref), (t.1.icache 1).valid, (t.1.icache 1).inum,
        (dinode t.1.disk 2).type, (dinode t.1.disk 2).size, decide (Fits t.1.disk 2 0 600)))
      = some (true, true, 2, T_FILE, 0, true) := by
    decide +kernel
  obtain ⟨t, ht, hdata⟩ := Option.map_eq_some_iff.mp hev
  simp only [Prod.mk.injEq, decide_eq_true_eq] at hdata
  obtain ⟨href, hvalid, hinum, htype, hsize, hfit⟩ := hdata
  obtain ⟨V, hI⟩ := (good_run ⟨⟨_, tiny_wellFormed.inv⟩, mounted_refs⟩ ht).inv
  have hempty : contents t.1.disk 2 = [] := by
    rw [contents, hsize]
    rfl
  obtain ⟨-, hwrite, -⟩ := @inode_byte_array t.1 1 2 0 600 (fun _ => 7) Bytes.zero
    hI.wellFormed.formed ⟨href, hvalid, hinum⟩ (by rw [htype]; decide) (by decide)
  obtain ⟨s', hok, hf, -, hrep⟩ := hwrite (by rw [hempty]; decide) hfit
  refine ⟨t, ht, s', hok, hf, ?_⟩
  rw [hrep.bytes, hempty, Bytes.view, List.map_const', List.length_range, List.take_nil,
    List.drop_nil, List.nil_append, List.append_nil]

/-! ### filewrite -/

/-- The file in cache entry `k` is inode `i`, and not locked. -/
structure Ready (s : FsSt) (k i : ℕ) : Prop where
  ref : 0 < (s.icache k).ref
  busy : (s.icache k).busy = false
  inum : (s.icache k).inum = i
  type : (dinode s.disk i).type = T_FILE

/-- How many of `n` bytes `filewrite` writes at `off`: all of them, or as many whole chunks
as there is room for in the largest file. -/
def written (off n : ℕ) : ℕ :=
  if off + n ≤ MAXFILE * BSIZE then n else writeMax * ((MAXFILE * BSIZE - off) / writeMax)

/-- The first chunk and those behind it. -/
theorem written_split {off n m : ℕ} (hm : m = min n writeMax) (hmax : off + m ≤ MAXFILE * BSIZE) :
    written off n = m + written (off + m) (n - m) := by
  have hMAX : MAXFILE * BSIZE = 71680 := rfl
  have hwm : writeMax = 6656 := rfl
  rw [hwm] at hm
  rw [hMAX] at hmax
  simp only [written, hMAX, hwm]
  split_ifs <;> omega

theorem written_none {off n m : ℕ} (hm : m = min n writeMax) (hmax : MAXFILE * BSIZE < off + m) :
    written off n = 0 := by
  have hMAX : MAXFILE * BSIZE = 71680 := rfl
  have hwm : writeMax = 6656 := rfl
  rw [hwm] at hm
  rw [hMAX] at hmax
  simp only [written, hMAX, hwm]
  split_ifs <;> omega

section Replaced

variable {d d₁ d' : Disk} {i off : ℕ} {a b : List UInt8}

theorem Replaced.refl : Replaced i off [] d d :=
  ⟨rfl, by simp, rfl, fun _ _ _ => ⟨rfl, rfl⟩⟩

theorem Replaced.trans (h : Replaced i off a d d₁) (h' : Replaced i (off + a.length) b d₁ d')
    (hoff : off ≤ (contents d i).length) : Replaced i off (a ++ b) d d' := by
  refine ⟨h'.super.trans h.super, ?_, ?_, fun j hj hji => ?_⟩
  · have hlen : ((contents d i).take off ++ a).length = off + a.length := by
      rw [List.length_append, List.length_take, Nat.min_eq_left hoff]
    rw [h'.bytes, h.bytes, List.take_left' hlen, ← hlen, List.drop_length_add_append, List.drop_drop,
      hlen]
    simp only [List.append_assoc, List.length_append, Nat.add_assoc]
  · rw [h'.attrs, h.attrs]
  · obtain ⟨h₁, h₂⟩ := h.others j hj hji
    obtain ⟨h₃, h₄⟩ := h'.others j (h.super.symm ▸ hj) hji
    exact ⟨h₃.trans h₁, h₄.trans h₂⟩

end Replaced

theorem Formed.congr {s s' : FsSt} (h : Formed s) (hd : s'.disk = s.disk)
    (hc : Cached (superblock s.disk) s'.icache (dinode s.disk)) : Formed s' :=
  ⟨hd ▸ h.accounted, hd ▸ h.room, hd ▸ h.data, hd ▸ hc⟩

section Filewrite

variable {s : FsSt} {k i : ℕ} (h : Formed s) (r : Ready s k i)

include h r

/-- Locking the file. -/
theorem Formed.ilock_ready : Wp (ilock k) (fun _ s' => Formed s' ∧ Loaded s' k i ∧
    (s'.icache k).busy = true ∧ s'.disk = s.disk ∧ s'.logged = s.logged) (fun _ _ => False) s := by
  have htype : (dinode s.disk (s.icache k).inum).type ≠ 0 := by
    rw [r.inum, r.type]
    decide
  unfold ilock
  simp only [wp_bind, wp_slot, wp_ite, wp_panic, wp_throw, wp_modifySlot, wp_get, wp_pure,
    setSlot_self, setSlot_disk]
  refine ⟨fun h0 => absurd r.ref (by omega), fun _ => ⟨fun hb => absurd hb (by simp [r.busy]),
    fun _ => ⟨fun hv => wp_ite.mpr ⟨fun h0 => absurd h0 htype, fun _ => ?_⟩, fun hv => ?_⟩⟩⟩
  · refine ⟨h.congr rfl ?_, ⟨?_, ?_, ?_⟩, ?_, rfl, rfl⟩
    · show Cached _ (Function.update (Function.update s.icache k _) k _) _
      rw [Function.update_idem]
      exact h.cache.set_same r.ref rfl (fun _ => rfl) fun _ => ⟨rfl, htype⟩
    all_goals simp [r.ref, r.inum]
  · rw [Bool.not_eq_false] at hv
    refine ⟨h.congr rfl ?_, ⟨?_, ?_, ?_⟩, ?_, trivial, rfl⟩
    · exact h.cache.set_same r.ref rfl (fun _ => hv) fun _ => ⟨h.cache.copy r.ref hv, htype⟩
    all_goals simp [r.ref, r.inum, hv]

omit r in
/-- Unlocking it. -/
theorem Formed.iunlock_ready (hk : Loaded s k i) (hb : (s.icache k).busy = true)
    (ht : (dinode s.disk i).type = T_FILE) : Wp (iunlock k) (fun _ s' => Formed s' ∧
      Ready s' k i ∧ s'.disk = s.disk) (fun _ _ => False) s := by
  unfold iunlock
  simp only [wp_bind, wp_slot, wp_ite, wp_panic, wp_modifySlot]
  refine ⟨fun hbad => ?_, fun _ => ⟨h.congr rfl ?_, ⟨?_, ?_, ?_, ht⟩, rfl⟩⟩
  · have := hk.ref
    rcases hbad with hbad | hbad
    · simp [hb] at hbad
    · omega
  · exact h.cache.set_same hk.ref rfl (fun hbusy => absurd hbusy (by simp))
      fun hv => ⟨h.cache.copy hk.ref hv, h.cache.type_ne hk.ref hv⟩
  all_goals simp [hk.ref, hk.inum]

/-- One transaction of `filewrite` replaces its bytes, or is refused. -/
theorem Formed.filewriteOp_bytes {src : Bytes} {off n : ℕ}
    (hoff : off ≤ (contents s.disk i).length) (hn : 0 < n) (hle : n ≤ writeMax)
    (hfit : off + n ≤ MAXFILE * BSIZE → Fits s.disk i off n) :
    Wp (filewriteOp k src off n) (fun x s' => Formed s' ∧ Ready s' k i ∧
      (off + n ≤ MAXFILE * BSIZE → x = n ∧ Replaced i off (src.view n) s.disk s'.disk ∧
        planOf s'.disk (dinode s'.disk i) = (planOf s.disk (dinode s.disk i)).write off n) ∧
      (MAXFILE * BSIZE < off + n → x = -1 ∧ s'.disk = s.disk)) (fun _ _ => False) s := by
  have hwm : writeMax = 6656 := rfl
  unfold filewriteOp
  rw [wp_bind, wp_beginOp]
  have h₀ : Formed s.beginOp := h.congr rfl h.cache
  have r₀ : Ready s.beginOp k i := ⟨r.ref, r.busy, r.inum, r.type⟩
  refine (h₀.ilock_ready r₀).seq ?_
  rintro - s₁ ⟨h₁, hk₁, hb₁, hd₁, hlog₁⟩
  have hdisk : s₁.disk = s.disk := hd₁
  have ht₁ : (dinode s₁.disk i).type = T_FILE := hdisk ▸ r.type
  by_cases hmax : off + n ≤ MAXFILE * BSIZE
  · have hoff₁ : off ≤ (contents s₁.disk i).length := hdisk ▸ hoff
    obtain ⟨s₂, hok, h₂, hk₂, hrep⟩ := @Formed.writei_bytes s₁ k i off n src h₁ hk₁
      (by rw [ht₁]; decide) hoff₁ hmax (hdisk ▸ hfit hmax)
    rw [length_contents] at hoff₁
    obtain ⟨-, -, hplan, -⟩ :=
      (writei_cost h₁.core hk₁ src hlog₁ ht₁ hoff₁ hn hmax).of_ok hok
    have hss := ((writei_core_spec h₁.core hk₁ src off (by omega)).of_ok hok).choose_spec.2.1
    have ht₂ : (dinode s₂.disk i).type = T_FILE := by
      rw [hrep.attrs]
      exact ht₁
    rw [h₂.core.inode_eq hk₂] at hplan
    rw [wp_bind]
    refine Wp.of_run hok ((h₂.iunlock_ready hk₂ ((hss.busy k).trans hb₁) ht₂).seq ?_)
    rintro - s₃ ⟨h₃, r₃, hd₃⟩
    refine ⟨h₃.congr rfl h₃.cache, ⟨r₃.ref, r₃.busy, r₃.inum, r₃.type⟩, fun _ => ⟨rfl, ?_, ?_⟩,
      fun hbad => absurd hbad (by omega)⟩
    · show Replaced i off (src.view n) s.disk s₃.disk
      rwa [hd₃, ← hdisk]
    · show planOf s₃.disk (dinode s₃.disk i) = _
      rw [hd₃, hplan, hdisk]
  · rw [wp_bind]
    refine writei_refused ?_ (by omega) (Or.inr (not_le.mp hmax)) (wp_bind.mpr
      ((h₁.iunlock_ready hk₁ hb₁ ht₁).imp ?_))
    · rw [h₁.core.inode_eq hk₁, ht₁]
      decide
    rintro - s₃ ⟨h₃, r₃, hd₃⟩
    exact ⟨h₃.congr rfl h₃.cache, ⟨r₃.ref, r₃.busy, r₃.inum, r₃.type⟩, fun hok => absurd hok hmax,
      fun _ => ⟨rfl, hd₃.trans hdisk⟩⟩

omit h r in
/-- The loop of `filewrite` replaces the bytes of the chunks there is room for. -/
theorem filewriteLoop_bytes (src : Bytes) (n : ℕ) : ∀ (j off : ℕ) (s : FsSt), j ≤ n → Formed s →
    Ready s k i → off ≤ (contents s.disk i).length → Fits s.disk i off (written off (n - j)) →
    Wp (filewriteLoop k src n j off) (fun x s' =>
      x = (if off + (n - j) ≤ MAXFILE * BSIZE then (n : ℤ) else -1, off + written off (n - j)) ∧
      Formed s' ∧ Replaced i off ((src.drop j).view (written off (n - j))) s.disk s'.disk)
      (fun _ _ => False) s := by
  have hMAX : MAXFILE * BSIZE = 71680 := rfl
  have hwm : writeMax = 6656 := rfl
  intro j off
  -- by the number of bytes left
  induction hN : n - j using Nat.strong_induction_on generalizing j off with
  | _ N ih =>
    intro s hj h r hoff hfit
    have hsize := h.strict.size_le (r.inum ▸ h.cache.inum_lt r.ref) (by rw [r.type]; decide)
    rw [← length_contents] at hsize
    by_cases hlt : j < n
    · rw [filewriteLoop_eq hlt, hN]
      set m := min N writeMax with hm
      have hfirst : off + m ≤ MAXFILE * BSIZE → Fits s.disk i off m := fun hmax => by
        rw [Fits, written_split hm hmax, blocksOf_add, Plan.need_union] at hfit
        exact (Nat.le_add_right _ _).trans hfit
      have hop := @Formed.filewriteOp_bytes s k i h r (src.drop j) off m hoff (by omega) (by omega)
        hfirst
      refine hop.seq ?_
      rintro x s₁ ⟨h₁, r₁, hdone, hrefused⟩
      by_cases hmax : off + m ≤ MAXFILE * BSIZE
      · obtain ⟨rfl, hrep, hplan⟩ := hdone hmax
        have hsplit := written_split hm hmax
        have hoff₁ : off + m ≤ (contents s₁.disk i).length := by
          rw [hrep.bytes]
          simp only [List.length_append, List.length_take, length_view]
          omega
        have hfree : freeList s₁.disk
            = (freeList s.disk).drop ((planOf s.disk (dinode s.disk i)).need (blocksOf off m)) :=
          congrArg Plan.free hplan
        have hrest : Fits s₁.disk i (off + m) (written (off + m) (n - (j + m))) := by
          rw [Fits, hsplit, blocksOf_add, Plan.need_union] at hfit
          rw [Fits, hplan, hfree, List.length_drop, show n - (j + m) = N - m by omega]
          exact Nat.le_sub_of_add_le' hfit
        have hnext : (if (m : ℤ) > 0 then (off + (m : ℤ).toNat) % 2 ^ 32 else off) = off + m := by
          rw [if_pos (by omega), Int.toNat_natCast, Nat.mod_eq_of_lt (by omega)]
        refine wp_ite.mpr ⟨fun h0 => absurd h0 (by omega), fun _ => ?_⟩
        refine wp_ite.mpr ⟨fun h0 => absurd rfl h0, fun _ => ?_⟩
        rw [hnext]
        refine (ih (n - (j + m)) (by omega) (j + m) (off + m) rfl s₁ (by omega) h₁ r₁ hoff₁
          hrest).imp ?_
        rintro x s' ⟨rfl, h', hrep'⟩
        rw [show n - (j + m) = N - m by omega, ← drop_drop] at hrep'
        refine ⟨?_, h', ?_⟩
        · rw [hsplit, show n - (j + m) = N - m by omega, ← Nat.add_assoc,
            show off + m + (N - m) = off + N by omega]
        · rw [hsplit, view_add]
          refine hrep.trans ?_ hoff
          rwa [length_view]
      · obtain ⟨rfl, hdisk⟩ := hrefused (not_le.mp hmax)
        have hnone := written_none hm (not_le.mp hmax)
        refine wp_ite.mpr ⟨fun _ => ⟨?_, h₁, ?_⟩, fun h0 => absurd (by decide) h0⟩
        · rw [if_neg (show ¬ (-1 : ℤ) > 0 by decide),
            if_neg (show ¬ off + N ≤ MAXFILE * BSIZE by omega), hnone]
          rfl
        · rw [hnone, hdisk]
          exact .refl
    · obtain rfl : N = 0 := by omega
      have hnone : written off 0 = 0 := by
        simp only [written]
        split_ifs <;> omega
      rw [filewriteLoop, dif_neg hlt, hnone, if_pos (by omega)]
      exact ⟨rfl, h, .refl⟩

/-- One call of `writei` for the locked file. -/
def writeOnce (k : ℕ) (src : Bytes) (off n : ℕ) : FsM ℤ := do
  ilock k
  writei k src off n

/-- **Chunked writes agree with one big write.**  Let a regular file be open and not locked,
at an offset within its size, and let there be free blocks for what can be written of `n`
bytes (`written`).  Then `filewrite` returns `n`, or -1 if the file would become too large;
it advances the offset by the bytes written; and the contents of all inodes are those after
one `writei` of these bytes. -/
theorem filewrite_agrees (src : Bytes) {off n : ℕ} (hoff : off ≤ (contents s.disk i).length)
    (hfit : Fits s.disk i off (written off n)) :
    ∃ s' s₁, filewrite k src off n s
        = .ok (if off + n ≤ MAXFILE * BSIZE then (n : ℤ) else -1, off + written off n) s' ∧
      writeOnce k src off (written off n) s = .ok (written off n : ℤ) s₁ ∧
      Formed s' ∧ ∀ j < (superblock s.disk).ninodes, contents s'.disk j = contents s₁.disk j := by
  have hMAX : MAXFILE * BSIZE = 71680 := rfl
  have hwm : writeMax = 6656 := rfl
  have hsize := h.strict.size_le (r.inum ▸ h.cache.inum_lt r.ref) (by rw [r.type]; decide)
  rw [← length_contents] at hsize
  have hmax : off + written off n ≤ MAXFILE * BSIZE := by
    simp only [written, hMAX, hwm]
    split_ifs <;> omega
  have hloop := filewriteLoop_bytes src n 0 off s (Nat.zero_le n) h r hoff (by rwa [Nat.sub_zero])
  rw [Nat.sub_zero, drop_zero] at hloop
  obtain ⟨x, s', hok, rfl, hf, hrep⟩ := hloop.exists_ok
  obtain ⟨u, s₀, hlock, h₀, hk₀, -, hd₀, -⟩ := (h.ilock_ready r).exists_ok
  obtain ⟨s₁, hwrite, -, -, hone⟩ := @Formed.writei_bytes s₀ k i off (written off n) src h₀ hk₀
    (by rw [hd₀, r.type]; decide) (hd₀ ▸ hoff) hmax (hd₀ ▸ hfit)
  refine ⟨s', s₁, ?_, ?_, hf, fun j hj => ?_⟩
  · rw [filewrite, if_neg (by omega)]
    exact hok
  · show EStateM.bind _ _ s = _
    rw [EStateM.bind, hlock]
    exact hwrite
  · rw [hd₀] at hone
    by_cases hji : j = i
    · rw [hji, hrep.bytes, hone.bytes]
    · rw [(hrep.others j hj hji).1, (hone.others j hj hji).1]

end Filewrite

/-- 7000 bytes written to a new file, in two transactions. -/
theorem newFile_two_chunks : ∃ t : FsSt × List ℕ,
    run fsStep (tiny 1, []) [.create [98] T_FILE 0 0, .iunlock 1] = some t ∧
      ∃ s' s₁, filewrite 1 (fun _ => 7) 0 7000 t.1 = .ok (7000, 7000) s' ∧
        writeOnce 1 (fun _ => 7) 0 7000 t.1 = .ok 7000 s₁ ∧
        contents s'.disk 2 = contents s₁.disk 2 := by
  have hev : (run fsStep (tiny 1, []) [.create [98] T_FILE 0 0, .iunlock 1]).map (fun t =>
      (decide (0 < (t.1.icache 1).ref), (t.1.icache 1).busy, (t.1.icache 1).inum,
        (dinode t.1.disk 2).type, (superblock t.1.disk).ninodes,
        decide (Fits t.1.disk 2 0 (written 0 7000))))
      = some (true, false, 2, T_FILE, 8, true) := by
    decide +kernel
  obtain ⟨t, ht, hdata⟩ := Option.map_eq_some_iff.mp hev
  simp only [Prod.mk.injEq, decide_eq_true_eq] at hdata
  obtain ⟨href, hbusy, hinum, htype, hnin, hfit⟩ := hdata
  obtain ⟨V, hI⟩ := (good_run ⟨⟨_, tiny_wellFormed.inv⟩, mounted_refs⟩ ht).inv
  obtain ⟨s', s₁, hok, hone, -, hsame⟩ := filewrite_agrees hI.wellFormed.formed
    ⟨href, hbusy, hinum, htype⟩ (fun _ => 7) (Nat.zero_le _) hfit
  exact ⟨t, ht, s', s₁, hok, hone, hsame 2 (by rw [hnin]; decide)⟩

end Nunix.Fs
