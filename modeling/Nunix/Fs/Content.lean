/-
Nunix/Fs/Content.lean

What `readi` and `writei` do to the contents of inodes.

`Inv` extends the ownership of `Core` by what holds between two operations: the
inode on disk is behind the cached one by block addresses at most (`Behind`), and
every directory entry names an inode of the disk (`DirOk`).  With the parameter `σ`
the disk is also strict: every inode on disk is the cached one, every block in use
has an owner, and no file has a hole.  A run from a strict state stays strict; from
an arbitrary image only the rest is kept.

`readi` leaves the content alone and returns it, `writei` changes the bytes it was
asked to change, and both keep `Inv`.
-/
import Nunix.Fs.Owned
import Nunix.Fs.Dir

namespace Nunix.Fs

open Bytes Hoare
open Function (update update_of_ne update_self)

/-! ### The invariant between operations -/

/-- The inode `m` on disk lacks at most some block addresses of `n`. -/
structure Dinode.Behind (m n : Dinode) : Prop where
  fields : m = { n with addrs := m.addrs }
  addrs : ∀ l, m.addrs l ≠ 0 → m.addrs l = n.addrs l

/-- Every entry of a directory names an inode of the disk. -/
def DirOk (d : Disk) (sb : Superblock) (V : ℕ → Dinode) : Prop :=
  ∀ i < sb.ninodes, (V i).type = T_DIR → ∀ e, DESIZE * e + DESIZE ≤ (V i).size.toNat →
    (content d (refs d sb V) i).get16 (DESIZE * e) < sb.ninodes

/-- The table is the disk, every block in use has an owner, and no file has a hole. -/
structure Strict (d : Disk) (sb : Superblock) (V : ℕ → Dinode) : Prop where
  clean : ∀ i < sb.ninodes, dinode d i = V i
  exact : Owns.Exact (refs d sb V) (used d sb) (reserved sb)
  filled : ∀ i < sb.ninodes, (V i).type ≠ 0 → ∀ bn, bn * BSIZE < (V i).size.toNat →
    blockOf (refs d sb V) i bn ≠ none

/-- The invariant between operations, strict if `σ`. -/
structure Inv (sb : Superblock) (H : List (Disk × ℕ)) (σ : Prop) (s : FsSt) (V : ℕ → Dinode) :
    Prop extends Core sb H s V where
  root : ROOTINO < sb.ninodes
  behind : ∀ i < sb.ninodes, (dinode s.disk i).Behind (V i)
  dirs : DirOk s.disk sb V
  strict : σ → Strict s.disk sb V

/-- Parts of the state that the invariant does not depend on. -/
theorem Inv.congr {sb : Superblock} {H : List (Disk × ℕ)} {σ : Prop} {s s' : FsSt}
    {V : ℕ → Dinode} (h : Inv sb H σ s V) (hd : s'.disk = s.disk) (hc : s'.icache = s.icache)
    (hb : s'.ballocs = s.ballocs) : Inv sb H σ s' V where
  room := h.room
  super := hd ▸ h.super
  owns := hd ▸ h.owns
  cache := hc ▸ h.cache
  handed := hb ▸ h.handed
  root := h.root
  behind := hd ▸ h.behind
  dirs := hd ▸ h.dirs
  strict := hd ▸ h.strict

theorem Inv.note {sb : Superblock} {H : List (Disk × ℕ)} {σ : Prop} {s : FsSt}
    {V : ℕ → Dinode} (h : Inv sb H σ s V) (e : TxEv) : Inv sb H σ (s.note e) V :=
  h.congr rfl rfl rfl

section Loops

variable {sb : Superblock} {H : List (Disk × ℕ)} {s s' : FsSt} {V V' : ℕ → Dinode}
  {k i : ℕ}

theorem blockOf_mono {R R' : ℕ × Pos → Option ℕ} (h : ∀ {p b}, R p = some b → R' p = some b)
    {bn : ℕ} (hb : blockOf R i bn ≠ none) : blockOf R' i bn ≠ none := by
  obtain ⟨b, hb⟩ := Option.ne_none_iff_exists'.mp hb
  obtain ⟨p, hp, hpb⟩ := blockOf_eq_some.mp hb
  rw [blockOf_eq_some.mpr ⟨p, hp, h hpb⟩]
  simp

/-- The blocks of a transfer of `n` bytes at `off` are all there. -/
def Present (R : ℕ × Pos → Option ℕ) (i off n : ℕ) : Prop :=
  ∀ x, off ≤ x → x < off + n → blockOf R i (x / BSIZE) ≠ none

theorem div_lt_maxfile {off n : ℕ} (hn : 0 < n) (hmax : off + n ≤ MAXFILE * BSIZE) :
    off / BSIZE < MAXFILE := by
  refine Nat.div_lt_of_lt_mul ?_
  rw [Nat.mul_comm]
  omega

/-- The block `bmap` maps `off` to holds the content from `off` to the end of the block. -/
theorem content_of_mapped {d : Disk} {R : ℕ × Pos → Option ℕ} {off b y : ℕ}
    (hb : blockOf R i (off / BSIZE) = some b) (hy : y < BSIZE - off % BSIZE) :
    content d R i (off + y) = d b (off % BSIZE + y) := by
  obtain ⟨hdiv, hmod⟩ := add_div_mod off hy
  rw [content_of_block (hdiv.symm ▸ hb), hmod]

theorem readiLoop_spec (n : ℕ) : ∀ (tot off : ℕ) (dst : Bytes) (s : FsSt) (V : ℕ → Dinode),
    Core sb H s V → Loaded s k i →
    Wp (readiLoop k n tot off dst) (fun dst' s' => ∃ V',
      Updated sb H k i s V (content s.disk (refs s.disk sb V) i) s' V' ∧
      (Present (refs s.disk sb V) i off (n - tot) → s' = s ∧ V' = V) ∧
      dst' = dst.blit tot (n - tot) ((content s.disk (refs s.disk sb V) i).drop off))
      (fun e s' => Stops sb H e s' ∧ ¬ Present (refs s.disk sb V) i off (n - tot)) s := by
  intro tot off dst
  -- by the number of bytes left
  induction hN : n - tot using Nat.strong_induction_on generalizing tot off dst with
  | _ N ih =>
    intro s V h hk
    rw [readiLoop]
    split_ifs with hlt
    · have hoff : off % BSIZE < BSIZE := Nat.mod_lt _ (by decide)
      set m := min (n - tot) (BSIZE - off % BSIZE) with hm
      refine ((bmap_spec h hk (off / BSIZE)).mono (fun _ _ hq => hq) fun e s' he =>
        ⟨he.1, fun hpres => hpres off le_rfl (by omega) he.2.missing⟩).seq ?_
      rintro b s₁ ⟨V₁, mp⟩
      have u₁ := mp.updated h hk
      -- if all is there, the rest is there and nothing has changed
      have hrest : Present (refs s.disk sb V) i off N → (s₁ = s ∧ V₁ = V) ∧
          Present (refs s₁.disk sb V₁) i (off + m) (n - (tot + m)) := fun hpres => by
        obtain ⟨rfl, rfl⟩ := mp.eq_of_present (hpres off le_rfl (by omega))
        exact ⟨⟨rfl, rfl⟩, fun x hx hlt' => hpres x (by omega) (by omega)⟩
      rw [wp_bind, wp_bread]
      refine (ih (n - (tot + m)) (by omega) _ _ _ rfl s₁ V₁ u₁.core u₁.loaded).mono ?_
        fun e s' he => ⟨he.1, fun hpres => he.2 (hrest hpres).2⟩
      rintro dst' s' ⟨V', u₂, hsame, hdst⟩
      rw [u₁.content_self] at u₂ hdst
      refine ⟨V', u₁.trans u₂, fun hpres => ?_, ?_⟩
      · obtain ⟨⟨rfl, rfl⟩, hpres'⟩ := hrest hpres
        exact hsame hpres'
      · -- the block just read and the rest
        rw [hdst]
        funext x
        by_cases hx : tot ≤ x ∧ x < tot + (n - tot)
        · rw [blit_apply_of_mem hx.1 (by omega)]
          by_cases hxm : x < tot + m
          · have hb := content_of_mapped (d := s₁.disk) (y := x - tot) mp.blockOf (by omega)
            rw [u₁.content_self] at hb
            rw [blit_apply_of_notMem (by omega), blit_apply_of_mem hx.1 hxm, Bytes.drop,
              Bytes.drop, hb]
          · rw [blit_apply_of_mem (by omega) (by omega), Bytes.drop, Bytes.drop]
            congr 1
            omega
        · rw [blit_apply_of_notMem (by omega), blit_apply_of_notMem (by omega),
            blit_apply_of_notMem (by omega)]
    · have h0 : n - tot = 0 := by omega
      rw [wp_pure]
      refine ⟨V, Updated.refl h hk, fun _ => ⟨rfl, rfl⟩, ?_⟩
      rw [← hN, h0, blit_zero]

/-- Storing part of a block. -/
theorem Core.store_blit (h : Core sb H s V) (hk : Loaded s k i) {off b m : ℕ}
    (hb : blockOf (refs s.disk sb V) i (off / BSIZE) = some b) (hm : m ≤ BSIZE - off % BSIZE)
    (src : Bytes) :
    Updated sb H k i s V ((content s.disk (refs s.disk sb V) i).blit off m src)
      (s.write b ((s.disk b).blit (off % BSIZE) m src)) V := by
  have u := h.store hk hb ((s.disk b).blit (off % BSIZE) m src)
  rwa [content_blit hb hm] at u

theorem writeiLoop_spec (src : Bytes) (n : ℕ) : ∀ (tot off : ℕ) (s : FsSt) (V : ℕ → Dinode),
    Core sb H s V → Loaded s k i →
    Wp (writeiLoop k src n tot off) (fun _ s' => ∃ V',
      Updated sb H k i s V
        ((content s.disk (refs s.disk sb V) i).blit off (n - tot) (src.drop tot)) s' V' ∧
      (Present (refs s.disk sb V) i off (n - tot) → V' = V) ∧
      Present (refs s'.disk sb V') i off (n - tot))
      (fun e s' => Stops sb H e s' ∧ ¬ Present (refs s.disk sb V) i off (n - tot) ∧
        (off + (n - tot) ≤ MAXFILE * BSIZE → e = .panic .outOfBlocks)) s := by
  intro tot off
  -- by the number of bytes left
  induction hN : n - tot using Nat.strong_induction_on generalizing tot off with
  | _ N ih =>
    intro s V h hk
    rw [writeiLoop]
    split_ifs with hlt
    · have hoff : off % BSIZE < BSIZE := Nat.mod_lt _ (by decide)
      set m := min (n - tot) (BSIZE - off % BSIZE) with hm
      refine ((bmap_spec h hk (off / BSIZE)).mono (fun _ _ hq => hq) fun e s' he =>
        ⟨he.1, fun hpres => hpres off le_rfl (by omega) he.2.missing,
          fun hmax => (he.2.full (div_lt_maxfile (by omega) hmax)).1⟩).seq ?_
      rintro b s₁ ⟨V₁, mp⟩
      have u₁ := mp.updated h hk
      rw [wp_bind, wp_bread, wp_bind, wp_logWrite]
      have u₂ := u₁.core.store_blit u₁.loaded mp.blockOf (m := m) (by omega) (src.drop tot)
      rw [u₁.content_self] at u₂
      have hrest : Present (refs s.disk sb V) i off N → V₁ = V ∧ Present (refs (s₁.write b
          ((s₁.disk b).blit (off % BSIZE) m (src.drop tot))).disk sb V₁) i (off + m)
            (n - (tot + m)) := fun hpres => by
        obtain ⟨rfl, rfl⟩ := mp.eq_of_present (hpres off le_rfl (by omega))
        exact ⟨rfl, fun x hx hlt' => blockOf_mono u₂.refs_mono (hpres x (by omega) (by omega))⟩
      refine (ih (n - (tot + m)) (by omega) _ _ rfl _ V₁ u₂.core u₂.loaded).mono ?_ fun e s' he =>
        ⟨he.1, fun hpres => he.2.1 (hrest hpres).2, fun hmax => he.2.2 (by omega)⟩
      rintro - s' ⟨V', u₃, hsame, hpres'⟩
      rw [u₂.content_self] at u₃
      have hcontent : ((content s.disk (refs s.disk sb V) i).blit off m (src.drop tot)).blit
          (off + m) (n - (tot + m)) (src.drop (tot + m))
          = (content s.disk (refs s.disk sb V) i).blit off (n - tot) (src.drop tot) := by
        rw [← Bytes.drop_drop, blit_blit, show m + (n - (tot + m)) = n - tot by omega]
      rw [hcontent] at u₃
      rw [← hN]
      refine ⟨V', u₁.trans (u₂.trans u₃), fun hpres => ?_, fun x hx hlt' => ?_⟩
      · exact (hsame (hrest (hN ▸ hpres)).2).trans (hrest (hN ▸ hpres)).1
      · by_cases hfirst : x < off + m
        · have hblk : x / BSIZE = off / BSIZE := by
            have := (add_div_mod off (y := x - off) (by omega)).1
            rwa [show off + (x - off) = x by omega] at this
          have hne : blockOf (refs s₁.disk sb V₁) i (x / BSIZE) ≠ none := by
            rw [hblk, mp.blockOf]
            simp
          exact blockOf_mono u₃.refs_mono (blockOf_mono u₂.refs_mono hne)
        · exact hpres' x (by omega) (by omega)
    · have h0 : n - tot = 0 := by omega
      rw [wp_pure, ← hN, h0, blit_zero]
      exact ⟨V, Updated.refl h hk, fun _ => rfl, fun x hx hlt' => absurd hlt' (by omega)⟩

end Loops

/-! ### Storing an inode -/

/-- The state after the inode in entry `k` became `n` and `iupdate` wrote it to disk. -/
def FsSt.setInode (s : FsSt) (k : ℕ) (n : Dinode) : FsSt :=
  ((s.setSlot k { s.icache k with toDinode := n }).note (.iupdate k)).write
    (IBLOCK (s.icache k).inum) (withDinode s.disk (s.icache k).inum n)

section SetInode

variable {sb : Superblock} {H : List (Disk × ℕ)} {σ τ : Prop} {s s' : FsSt}
  {V V' : ℕ → Dinode} {k i : ℕ} {n : Dinode} {c : Bytes}

theorem setInode_data {x : ℕ} (hi : (s.icache k).inum < sb.ninodes) (hx : nmeta sb ≤ x) :
    (s.setInode k n).disk x = s.disk x :=
  update_of_ne ((iblock_lt_nmeta hi).trans_le hx).ne' _ _

theorem setInode_super (hs : superblock s.disk = sb) : superblock (s.setInode k n).disk = sb := by
  rw [FsSt.setInode, write_disk, note_disk, setSlot_disk, superblock_update one_lt_iblock.ne', hs]

theorem setInode_used (hi : (s.icache k).inum < sb.ninodes) :
    used (s.setInode k n).disk sb = used s.disk sb := by
  ext x
  refine and_congr_right fun _ => ?_
  rw [FsSt.setInode, write_disk, note_disk, setSlot_disk, bit_update_block (iblock_lt_bblock hi).ne']

theorem setInode_self : dinode (s.setInode k n).disk (s.icache k).inum = n :=
  dinode_update_self ..

theorem setInode_of_ne {j : ℕ} (hj : j ≠ (s.icache k).inum) :
    dinode (s.setInode k n).disk j = dinode s.disk j := dinode_update_of_ne hj _

variable (h : Core sb H s V) (hk : Loaded s k i)

include h hk

/-- The references do not change if the addresses do not. -/
theorem Core.setInode_refs (haddrs : n.addrs = (V i).addrs) (htype : n.type = (V i).type) :
    refs (s.setInode k n).disk sb (update V i n) = refs s.disk sb V := by
  have hi := h.inum_lt hk
  have htable : refs s.disk sb (update V i n) = refs s.disk sb V :=
    refs_update_same haddrs htype
  rw [← htable]
  refine refs_congr fun j x hx => setInode_data (hk.inum ▸ hi) ?_
  rw [htable] at hx
  exact h.ref_data hx

theorem Core.setInode (haddrs : n.addrs = (V i).addrs) (htype : n.type = (V i).type) :
    Core sb H (s.setInode k n) (update V i n) := by
  have hi : (s.icache k).inum < sb.ninodes := hk.inum ▸ h.inum_lt hk
  refine ⟨h.room, setInode_super h.super, ?_, ?_, h.handed⟩
  · rw [h.setInode_refs hk haddrs htype, setInode_used hi]
    exact h.owns
  · rw [← hk.inum]
    refine h.cache.set hk.ref ?_ ?_ ?_
    · rfl
    · exact fun _ => hk.valid
    · refine fun _ => ⟨rfl, ?_⟩
      rw [htype]
      exact h.type_ne hk

theorem Core.setInode_content (haddrs : n.addrs = (V i).addrs) (htype : n.type = (V i).type)
    (j : ℕ) : content (s.setInode k n).disk
        (refs (s.setInode k n).disk sb (update V i n)) j
      = content s.disk (refs s.disk sb V) j := by
  rw [h.setInode_refs hk haddrs htype]
  exact content_congr (fun p b hp => setInode_data (hk.inum ▸ h.inum_lt hk) (h.ref_data hp)) j

omit h in
/-- The inode on disk is up to date, the others are as they were. -/
theorem setInode_behind
    (hb : ∀ j < sb.ninodes, j ≠ i → (dinode s.disk j).Behind (V j)) (j : ℕ) (hj : j < sb.ninodes) :
    (dinode (s.setInode k n).disk j).Behind (update V i n j) := by
  by_cases hji : j = i
  · subst hji
    rw [update_self, ← hk.inum, setInode_self]
    exact ⟨rfl, fun _ _ => rfl⟩
  · rw [update_of_ne hji, setInode_of_ne (hk.inum ▸ hji)]
    exact hb j hj hji

/-- What a strict state asks of the inode that is stored. -/
theorem Core.setInode_strict (haddrs : n.addrs = (V i).addrs) (htype : n.type = (V i).type)
    (hclean : ∀ j < sb.ninodes, j ≠ i → dinode s.disk j = V j)
    (hexact : Owns.Exact (refs s.disk sb V) (used s.disk sb) (reserved sb))
    (hfilled : ∀ j < sb.ninodes, (V j).type ≠ 0 → ∀ bn,
      bn * BSIZE < (update V i n j).size.toNat →
      blockOf (refs s.disk sb V) j bn ≠ none) :
    Strict (s.setInode k n).disk sb (update V i n) := by
  have hi : (s.icache k).inum < sb.ninodes := hk.inum ▸ h.inum_lt hk
  refine ⟨fun j hj => ?_, ?_, fun j hj ht bn hbn => ?_⟩
  · by_cases hji : j = i
    · subst hji
      rw [update_self, ← hk.inum, setInode_self]
    · rw [update_of_ne hji, setInode_of_ne (hk.inum ▸ hji)]
      exact hclean j hj hji
  · rw [h.setInode_refs hk haddrs htype, setInode_used hi]
    exact hexact
  · rw [h.setInode_refs hk haddrs htype]
    refine hfilled j hj ?_ bn hbn
    by_cases hji : j = i
    · subst hji
      rw [update_self, htype] at ht
      exact ht
    · rwa [update_of_ne hji] at ht

omit h in
/-- Storing an inode with the same addresses keeps the invariant; what a strict state
asks of the inode itself is asked of the new one. -/
theorem Inv.setInode (h : Inv sb H τ s V) (haddrs : n.addrs = (V i).addrs)
    (htype : n.type = (V i).type)
    (hdir : (V i).type = T_DIR → ∀ e, DESIZE * e + DESIZE ≤ n.size.toNat →
      (content s.disk (refs s.disk sb V) i).get16 (DESIZE * e) < sb.ninodes)
    (hclean : σ → ∀ j < sb.ninodes, j ≠ i → dinode s.disk j = V j)
    (hexact : σ → Owns.Exact (refs s.disk sb V) (used s.disk sb) (reserved sb))
    (hfilled : σ → ∀ j < sb.ninodes, (V j).type ≠ 0 → ∀ bn,
      bn * BSIZE < (update V i n j).size.toNat →
      blockOf (refs s.disk sb V) j bn ≠ none) :
    Inv sb H σ (s.setInode k n) (update V i n) := by
  refine ⟨h.toCore.setInode hk haddrs htype, h.root,
    setInode_behind hk fun j hj _ => h.behind j hj, fun j hj ht e he => ?_,
    fun hσ => h.toCore.setInode_strict hk haddrs htype (hclean hσ) (hexact hσ) (hfilled hσ)⟩
  rw [h.toCore.setInode_content hk haddrs htype]
  by_cases hji : j = i
  · subst hji
    rw [update_self] at ht he
    exact hdir (htype ▸ ht) e he
  · rw [update_of_ne hji] at ht he
    exact h.dirs j hj ht e he

omit h in
/-- Storing an inode with the same addresses, type and size keeps the invariant. -/
theorem Inv.setFields (h : Inv sb H σ s V) (haddrs : n.addrs = (V i).addrs)
    (htype : n.type = (V i).type) (hsize : n.size = (V i).size) :
    Inv sb H σ (s.setInode k n) (update V i n) := by
  refine h.setInode hk haddrs htype ?_ ?_ ?_ ?_
  · intro ht e he
    exact h.dirs i (h.inum_lt hk) ht e (hsize ▸ he)
  · exact fun hσ j hj _ => (h.strict hσ).clean j hj
  · exact fun hσ => (h.strict hσ).exact
  · intro hσ j hj ht bn hbn
    refine (h.strict hσ).filled j hj ht bn ?_
    by_cases hji : j = i
    · subst hji
      rwa [update_self, hsize] at hbn
    · rwa [update_of_ne hji] at hbn

omit h hk in
/-- A change of content changes addresses at most. -/
theorem Updated.fields (u : Updated sb H k i s V c s' V') (j : ℕ) :
    V' j = { V j with addrs := (V' j).addrs } := by
  by_cases hji : j = i
  · subst hji
    exact u.inode
  · rw [u.table j hji]

omit h hk in
theorem Updated.behind (u : Updated sb H k i s V c s' V')
    (hb : ∀ j < sb.ninodes, (dinode s.disk j).Behind (V j)) (j : ℕ) (hj : j < sb.ninodes) :
    (dinode s'.disk j).Behind (V' j) := by
  rw [u.inodes j hj]
  obtain ⟨hf, ha⟩ := hb j hj
  refine ⟨?_, fun l hl => ?_⟩
  · rw [u.fields j]
    exact hf
  · by_cases hji : j = i
    · subst hji
      rw [u.addrs l (ha l hl ▸ hl)]
      exact ha l hl
    · rw [u.table j hji]
      exact ha l hl

omit h hk in
/-- A change of content in the blocks that are there. -/
theorem Updated.strict (u : Updated sb H k i s V c s' V') (h : Strict s.disk sb V) (hsame : V' = V) :
    Strict s'.disk sb V' := by
  refine ⟨fun j hj => ?_, u.exact h.exact, fun j hj ht bn hbn => ?_⟩
  · rw [u.inodes j hj, hsame]
    exact h.clean j hj
  · rw [u.fields j] at ht hbn
    exact blockOf_mono u.refs_mono (h.filled j hj ht bn hbn)

omit h hk in
/-- A change of content keeps the invariant. -/
theorem Inv.of_updated (h : Inv sb H σ s V) (u : Updated sb H k i s V c s' V')
    (hdir : (V i).type = T_DIR → ∀ e, DESIZE * e + DESIZE ≤ (V i).size.toNat →
      c.get16 (DESIZE * e) < sb.ninodes) (hsame : σ → V' = V) : Inv sb H σ s' V' := by
  refine ⟨u.core, h.root, u.behind h.behind, fun j hj ht e he => ?_,
    fun hσ => u.strict (h.strict hσ) (hsame hσ)⟩
  rw [u.fields j] at ht he
  by_cases hji : j = i
  · subst hji
    rw [u.content_self]
    exact hdir ht e he
  · rw [u.content_of_ne j hji]
    exact h.dirs j hj ht e he

end SetInode

/-! ### readi and writei -/

/-- The cache entries differ in the inodes they hold a copy of at most. -/
structure SameSlots (s s' : FsSt) : Prop where
  inum : ∀ l, (s'.icache l).inum = (s.icache l).inum
  ref : ∀ l, (s'.icache l).ref = (s.icache l).ref
  busy : ∀ l, (s'.icache l).busy = (s.icache l).busy
  valid : ∀ l, (s'.icache l).valid = (s.icache l).valid
  cwd : s'.cwd = s.cwd

section ReadWrite

variable {sb : Superblock} {H : List (Disk × ℕ)} {σ : Prop} {s s' : FsSt}
  {V V' : ℕ → Dinode} {k i : ℕ}

theorem SameSlots.refl (s : FsSt) : SameSlots s s :=
  ⟨fun _ => rfl, fun _ => rfl, fun _ => rfl, fun _ => rfl, rfl⟩

theorem sameSlots_update {n : Dinode} (hc : s'.icache
      = update s.icache k { s.icache k with toDinode := n }) (hcwd : s'.cwd = s.cwd) :
    SameSlots s s' := by
  refine ⟨fun l => ?_, fun l => ?_, fun l => ?_, fun l => ?_, hcwd⟩ <;>
  · rw [hc]
    by_cases hl : l = k
    · rw [hl, update_self]
    · rw [update_of_ne hl]

theorem SameSlots.trans {s₁ : FsSt} (h : SameSlots s s₁) (h' : SameSlots s₁ s') :
    SameSlots s s' :=
  ⟨fun l => (h'.inum l).trans (h.inum l), fun l => (h'.ref l).trans (h.ref l),
    fun l => (h'.busy l).trans (h.busy l), fun l => (h'.valid l).trans (h.valid l),
    h'.cwd.trans h.cwd⟩

theorem sameSlots_setInode (n : Dinode) : SameSlots s (s.setInode k n) :=
  sameSlots_update rfl rfl

theorem SameSlots.loaded (h : SameSlots s s') (hk : Loaded s k i) : Loaded s' k i :=
  ⟨(h.ref k).symm ▸ hk.ref, (h.valid k).trans hk.valid, (h.inum k).trans hk.inum⟩

/-- In a strict state every byte of a file has its block. -/
theorem Strict.present (h : Strict s.disk sb V) (hi : i < sb.ninodes) (ht : (V i).type ≠ 0)
    {off n : ℕ} (hsize : off + n ≤ (V i).size.toNat) :
    Present (refs s.disk sb V) i off n := fun x _ hlt =>
  h.filled i hi ht _ ((Nat.div_mul_le_self x BSIZE).trans_lt (hlt.trans_le hsize))

/-- `readi` keeps the invariant; if it read all it was asked for, the buffer holds the
content of the file. -/
theorem readi_spec (h : Inv sb H σ s V) (hk : Loaded s k i) (dst : Bytes) (off : ℕ) {n : ℕ}
    (hn : n < 2 ^ 32) :
    Wp (readi k dst off n) (fun r s' => ∃ V', Inv sb H σ s' V' ∧
      Updated sb H k i s V (content s.disk (refs s.disk sb V) i) s' V' ∧
      ((V i).type ≠ T_DEV → n < 2 ^ 31 → r.1 = n → off + n ≤ (V i).size.toNat ∧
        r.2 = dst.blit 0 n ((content s.disk (refs s.disk sb V) i).drop off))) (Stops sb H) s := by
  have heq := h.inode_eq hk
  have hsame := Updated.refl h.toCore hk
  have hfail : ((-1 : ℤ) = n) → False := by omega
  unfold readi
  simp only [wp_bind, wp_slot, wp_ite, wp_pure, wp_get]
  have htype : (s.icache k).type = (V i).type := by rw [← heq]
  have hsize : (s.icache k).size = (V i).size := by rw [← heq]
  rw [htype, hsize]
  refine ⟨fun hdev => ⟨fun _ => ?_, fun _ => ?_⟩, fun hdev => ⟨fun _ => ?_, fun hok => ?_⟩⟩
  · exact ⟨V, h, hsame, fun hne => absurd hdev hne⟩
  · exact ⟨V, h, hsame, fun hne => absurd hdev hne⟩
  · exact ⟨V, h, hsame, fun _ _ hr => (hfail hr).elim⟩
  · -- the length is clipped to the end of the file
    have hsz := (V i).size.toNat_lt
    set m := if (off + n) % 2 ^ 32 > (V i).size.toNat then (V i).size.toNat - off else n with hm
    have hle : off + m ≤ (V i).size.toNat := by
      rw [hm]
      split_ifs <;> omega
    refine (readiLoop_spec m 0 off dst s V h.toCore hk).mono ?_ fun _ _ he => he.1
    rintro dst' s' ⟨V', u, hpres, hdst⟩
    rw [Nat.sub_zero] at hpres hdst
    refine ⟨V', h.of_updated u (h.dirs i (h.inum_lt hk)) fun hσ => ?_, u, fun _ hn hr => ?_⟩
    · exact (hpres ((h.strict hσ).present (h.inum_lt hk) (h.type_ne hk) hle)).2
    · have hmn : m = n := by
        have hlt : m < 2 ^ 32 := by omega
        simp only [toInt32] at hr
        split_ifs at hr <;> omega
      rw [hmn] at hle hdst
      exact ⟨hle, hdst⟩

/-- From `s`, `V` to `s'`, `V'` the bytes `src` were written to inode `i`: `n` of them at
`off`, and the inode grew as far as they reach. -/
structure Stored (sb : Superblock) (i off n : ℕ) (src : Bytes) (s : FsSt) (V : ℕ → Dinode)
    (s' : FsSt) (V' : ℕ → Dinode) : Prop where
  within : off ≤ (V i).size.toNat
  content_self : content s'.disk (refs s'.disk sb V') i
    = (content s.disk (refs s.disk sb V) i).blit off n src
  content_of_ne : ∀ j ≠ i, content s'.disk (refs s'.disk sb V') j
    = content s.disk (refs s.disk sb V) j
  table : ∀ j ≠ i, V' j = V j
  inode : V' i = { V i with addrs := (V' i).addrs, size := (V' i).size }
  size : (V' i).size.toNat = max (V i).size.toNat (off + n)

/-- `writei` refuses the write or does it, and keeps what does not depend on the entries of
directories. -/
theorem writei_core_spec (h : Core sb H s V) (hk : Loaded s k i) (src : Bytes) (off : ℕ)
    {n : ℕ} (hn : n < 2 ^ 32) :
    Wp (writei k src off n) (fun r s' => ∃ V', Core sb H s' V' ∧ SameSlots s s' ∧
      ((∀ j < sb.ninodes, (dinode s.disk j).Behind (V j)) →
        ∀ j < sb.ninodes, (dinode s'.disk j).Behind (V' j)) ∧
      (Strict s.disk sb V → Strict s'.disk sb V') ∧
      ((s' = s ∧ V' = V) ∧ ((V i).type = T_DEV ∨
          r = -1 ∧ ((V i).size.toNat < off ∨ MAXFILE * BSIZE < off + n)) ∨
        r = toInt32 n ∧ Stored sb i off n src s V s' V'))
      (fun e s' => Stops sb H e s' ∧ e = .panic .outOfBlocks ∧
        ¬ Present (refs s.disk sb V) i off n) s := by
  have heq := h.inode_eq hk
  have htype : (s.icache k).type = (V i).type := by rw [← heq]
  have hsize : (s.icache k).size = (V i).size := by rw [← heq]
  unfold writei
  simp only [wp_bind, wp_slot, wp_ite, wp_pure]
  rw [htype, hsize]
  have hsz := (V i).size.toNat_lt
  have hMAX : MAXFILE * BSIZE = 71680 := rfl
  refine ⟨fun hdev => ⟨fun _ => ?_, fun _ => ?_⟩, fun _ => ⟨fun hoff => ?_, fun hoff =>
    ⟨fun hmax => ?_, fun hmax => ?_⟩⟩⟩
  · exact ⟨V, h, .refl s, id, id, Or.inl ⟨⟨trivial, rfl⟩, Or.inl hdev⟩⟩
  · exact ⟨V, h, .refl s, id, id, Or.inl ⟨⟨trivial, rfl⟩, Or.inl hdev⟩⟩
  · exact ⟨V, h, .refl s, id, id, Or.inl ⟨⟨trivial, rfl⟩, Or.inr ⟨trivial, by omega⟩⟩⟩
  · exact ⟨V, h, .refl s, id, id, Or.inl ⟨⟨trivial, rfl⟩, Or.inr ⟨trivial, by omega⟩⟩⟩
  have hend : off + n ≤ 71680 := by omega
  have hle : off ≤ (V i).size.toNat := by omega
  refine (writeiLoop_spec src n 0 off s V h hk).mono ?_ fun e s' he =>
    ⟨he.1, he.2.2 (by omega), he.2.1⟩
  rintro - s₁ ⟨V₁, u, hsame, hpres⟩
  rw [Nat.sub_zero] at u hsame hpres
  rw [Bytes.drop_zero] at u
  have hslots : SameSlots s s₁ := sameSlots_update u.cache u.rest.1
  have hV₁ : (V₁ i).type = (V i).type ∧ (V₁ i).size = (V i).size := by
    rw [u.inode]
    exact ⟨rfl, rfl⟩
  rw [wp_ite]
  refine ⟨fun hgrow => ?_, fun hgrow => ?_⟩
  · -- the file grew, and `iupdate` writes the inode
    set n' : Dinode := { V₁ i with size := UInt32.ofNat (off + n) } with hn'
    have hsize' : n'.size.toNat = off + n := UInt32.toNat_ofNat_of_lt' (by
      rw [UInt32.size]
      omega)
    have hcontent := u.core.setInode_content u.loaded (n := n') rfl rfl
    have hstrict : Strict s.disk sb V →
        Strict (s₁.setInode k n').disk sb (update V₁ i n') := by
      intro hs
      refine u.core.setInode_strict u.loaded rfl rfl (fun j hj hji => ?_) (u.exact hs.exact)
        fun j hj ht bn hbn => ?_
      · rw [u.inodes j hj, u.table j hji]
        exact hs.clean j hj
      · by_cases hji : j = i
        · subst hji
          rw [update_self, hsize'] at hbn
          by_cases hold : bn * BSIZE < (V j).size.toNat
          · exact blockOf_mono u.refs_mono (hs.filled j hj (hV₁.1 ▸ ht) bn hold)
          · have := hpres (bn * BSIZE) (by omega) hbn
            rwa [Nat.mul_div_cancel _ (by decide)] at this
        · rw [update_of_ne hji, u.table j hji] at hbn
          rw [u.table j hji] at ht
          exact blockOf_mono u.refs_mono (hs.filled j hj ht bn hbn)
    have hstored : Stored sb i off n src s V (s₁.setInode k n') (update V₁ i n') := by
      refine ⟨hle, ?_, ?_, ?_, ?_, ?_⟩
      · rw [hcontent, u.content_self]
      · exact fun j hj => (hcontent j).trans (u.content_of_ne j hj)
      · exact fun j hj => (update_of_ne hj _ _).trans (u.table j hj)
      · rw [update_self, hn', u.inode]
      · rw [update_self, hsize']
        omega
    have hfin : ∃ V', Core sb H (s₁.setInode k n') V' ∧ SameSlots s (s₁.setInode k n') ∧
        ((∀ j < sb.ninodes, (dinode s.disk j).Behind (V j)) →
          ∀ j < sb.ninodes, (dinode (s₁.setInode k n').disk j).Behind (V' j)) ∧
        (Strict s.disk sb V → Strict (s₁.setInode k n').disk sb V') ∧
        Stored sb i off n src s V (s₁.setInode k n') V' :=
      ⟨_, u.core.setInode u.loaded rfl rfl, hslots.trans (sameSlots_setInode _),
        fun hb => setInode_behind u.loaded fun j hj _ => u.behind hb j hj, hstrict, hstored⟩
    simp only [wp_bind, wp_modifySlot, wp_iupdate, wp_pure, setSlot_self, setSlot_disk]
    rw [hn', ← u.core.inode_eq u.loaded] at hfin
    obtain ⟨V', hc, hss, hb, hst, hw⟩ := hfin
    exact ⟨V', hc, hss, hb, hst, Or.inr ⟨trivial, hw⟩⟩
  · -- the inode on disk is up to date
    refine ⟨V₁, u.core, hslots, u.behind, fun hs => u.strict hs ?_, Or.inr ⟨rfl, hle,
      u.content_self, u.content_of_ne, u.table, ?_, ?_⟩⟩
    · rcases Nat.eq_zero_or_pos n with rfl | hpos
      · exact hsame fun x hx hlt => absurd hlt (by omega)
      · exact hsame (hs.present (h.inum_lt hk) (h.type_ne hk) (by omega))
    · rw [u.inode]
    · rw [hV₁.2]
      omega

/-- `writei` refuses the write, or does it and keeps the invariant, if what it writes to a
directory is directory entries. -/
theorem writei_stored_spec (h : Inv sb H σ s V) (hk : Loaded s k i) (src : Bytes) (off : ℕ)
    {n : ℕ} (hn : n < 2 ^ 32)
    (hdir : (V i).type = T_DIR → off ≤ (V i).size.toNat →
      ∀ e, DESIZE * e + DESIZE ≤ max (V i).size.toNat (off + n) →
      ((content s.disk (refs s.disk sb V) i).blit off n src).get16 (DESIZE * e)
        < sb.ninodes) :
    Wp (writei k src off n) (fun r s' => ∃ V', Inv sb H σ s' V' ∧ SameSlots s s' ∧
      (s' = s ∧ ((V i).type = T_DEV ∨
          r = -1 ∧ ((V i).size.toNat < off ∨ MAXFILE * BSIZE < off + n)) ∨
        r = toInt32 n ∧ Stored sb i off n src s V s' V')) (Stops sb H) s := by
  refine (writei_core_spec h.toCore hk src off hn).mono ?_ fun _ _ he => he.1
  rintro r s' ⟨V', hc, hss, hb, hst, ⟨⟨rfl, rfl⟩, hr⟩ | ⟨hr, hw⟩⟩
  · exact ⟨V', h, hss, Or.inl ⟨rfl, hr⟩⟩
  refine ⟨V', ⟨hc, h.root, hb h.behind, fun j hj ht e he => ?_, fun hσ => hst (h.strict hσ)⟩, hss,
    Or.inr ⟨hr, hw⟩⟩
  by_cases hji : j = i
  · subst hji
    rw [hw.inode] at ht
    rw [hw.size] at he
    rw [hw.content_self]
    exact hdir ht hw.within e he
  · rw [hw.table j hji] at ht he
    rw [hw.content_of_ne j hji]
    exact h.dirs j hj ht e he

/-- `writei` keeps the invariant, if what it writes to a directory is directory
entries. -/
theorem writei_spec (h : Inv sb H σ s V) (hk : Loaded s k i) (src : Bytes) (off : ℕ) {n : ℕ}
    (hn : n < 2 ^ 32)
    (hdir : (V i).type = T_DIR → off ≤ (V i).size.toNat →
      ∀ e, DESIZE * e + DESIZE ≤ max (V i).size.toNat (off + n) →
      ((content s.disk (refs s.disk sb V) i).blit off n src).get16 (DESIZE * e)
        < sb.ninodes) :
    Wp (writei k src off n) (fun _ s' => ∃ V', Inv sb H σ s' V' ∧ SameSlots s s')
      (Stops sb H) s :=
  (writei_stored_spec h hk src off hn hdir).imp fun _ _ ⟨V', hI, hss, _⟩ => ⟨V', hI, hss⟩

end ReadWrite

end Nunix.Fs
