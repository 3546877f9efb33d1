/-
Nunix/Fs/Entries.lean

Directory entries in a strict state.

In a state whose files have no holes, `readi` below the size of an inode returns the
content and changes nothing, and `writei` can stop for want of a block only, and not
below the size.  With that, reading and writing the entries of a directory are
operations on its node (`Ns`): `dirlookup` finds what `Node.find` finds, and `dirlink`
and `sys_unlink` put an entry.

`Excused` lists the reasons for which a program may stop, each tied to a promise the
caller can make about the state.
-/
import Nunix.Fs.Names
import Nunix.Fs.WriteBudget

namespace Nunix.Fs

open Bytes Hoare

/-! ### Blocks that are there -/

section Present

variable {sb : Superblock} {H : List (Disk × ℕ)} {s : FsSt} {V : ℕ → Dinode} {k i bn : ℕ}
variable {Q : ℤ × Bytes → FsSt → Prop}

/-- `readi` of blocks that are there: the length is clipped to the end of the file. -/
theorem readi_clipped (h : Core sb H s V) (hk : Loaded s k i) (ht : (V i).type ≠ T_DEV)
    (dst : Bytes) {off n m : ℕ} (hle : off ≤ (V i).size.toNat) (hwrap : off + n < 2 ^ 32)
    (hm : m = min n ((V i).size.toNat - off)) (hlt : m < 2 ^ 31)
    (hpres : Present (refs s.disk sb V) i off m) {E : Halt → FsSt → Prop}
    (hQ : Q (m, dst.blit 0 m ((content s.disk (refs s.disk sb V) i).drop off)) s) :
    Wp (readi k dst off n) Q E s := by
  have heq := h.inode_eq hk
  have htype : (s.icache k).type = (V i).type := by rw [← heq]
  have hsize : (s.icache k).size = (V i).size := by rw [← heq]
  unfold readi
  simp only [wp_bind, wp_slot, wp_ite]
  rw [htype, hsize]
  refine ⟨fun hd => absurd hd ht, fun _ => ⟨fun hbad => ?_, fun _ => ?_⟩⟩
  · omega
  · have hclip : (if (off + n) % 2 ^ 32 > (V i).size.toNat then (V i).size.toNat - off else n)
        = m := by
      split_ifs <;> omega
    rw [hclip]
    refine (readiLoop_spec m 0 off dst s V h hk).mono ?_ fun _ _ he => (he.2 hpres).elim
    rintro dst' s' ⟨V', -, hsame, rfl⟩
    obtain ⟨rfl, -⟩ := hsame hpres
    rw [wp_pure]
    have hint : toInt32 m = m := by
      rw [toInt32, if_pos hlt]
    rw [hint]
    exact hQ

theorem readi_present (h : Core sb H s V) (hk : Loaded s k i) (ht : (V i).type ≠ T_DEV)
    (dst : Bytes) {off n : ℕ} (hle : off + n ≤ (V i).size.toNat) (hn : n < 2 ^ 31)
    (hpres : Present (refs s.disk sb V) i off n) {E : Halt → FsSt → Prop}
    (hQ : Q (n, dst.blit 0 n ((content s.disk (refs s.disk sb V) i).drop off)) s) :
    Wp (readi k dst off n) Q E s := by
  have hsz := (V i).size.toNat_lt
  exact readi_clipped h hk ht dst (by omega) (by omega) (by omega) hn hpres hQ

/-- `writei` stops only if it has to grow a file and no block is free. -/
theorem writei_exits (h : Core sb H s V) (hs : Strict s.disk sb V) (hk : Loaded s k i) (src : Bytes)
    {off n : ℕ} (hn : n < 2 ^ 32) :
    Wp (writei k src off n) (fun _ _ => True) (fun e _ => e = .panic .outOfBlocks ∧
      (V i).size.toNat < off + n) s := by
  refine (writei_core_spec h hk src off hn).mono (fun _ _ _ => trivial) ?_
  rintro e s' ⟨-, rfl, hnot⟩
  refine ⟨rfl, ?_⟩
  by_contra hle
  exact hnot (hs.present (h.inum_lt hk) (h.type_ne hk) (by omega))

/-- A file without holes is not larger than a file can be. -/
theorem Strict.size_le {d : Disk} (h : Strict d sb V) (hi : i < sb.ninodes)
    (ht : (V i).type ≠ 0) : (V i).size.toNat ≤ MAXFILE * BSIZE := by
  by_contra hlt
  refine h.filled i hi ht MAXFILE (not_le.mp hlt) ?_
  rfl

end Present

/-! ### The loops over entries -/

/-- Reading below the size of `dp` yields the entries `xs`, and changes nothing. -/
def Reads (s : FsSt) (dp : ℕ) (xs : List Slot) : Prop :=
  ∀ (e : ℕ) (x : Slot), xs[e]? = some x → ∃ de,
    readi dp Bytes.zero (DESIZE * e) DESIZE s = .ok ((DESIZE : ℤ), de) s ∧
      deInum de = x.1 ∧ deName de = x.2

theorem Core.reads {sb : Superblock} {H : List (Disk × ℕ)} {s : FsSt} {V : ℕ → Dinode} {k i : ℕ}
    (h : Core sb H s V) (hs : Strict s.disk sb V) (hk : Loaded s k i) (ht : (V i).type = T_DIR) :
    Reads s k (slotsOf (content s.disk (refs s.disk sb V) i) (V i).size.toNat) := by
  intro e x hx
  have he : e < (V i).size.toNat / DESIZE := by
    by_contra hlt
    rw [List.getElem?_eq_none (by rw [length_slotsOf]; omega)] at hx
    cases hx
  rw [getElem?_slotsOf he] at hx
  obtain rfl := Option.some.inj hx
  have hle : DESIZE * e + DESIZE ≤ (V i).size.toNat := by
    simp only [DESIZE] at *
    omega
  have hrun : Wp (readi k Bytes.zero (DESIZE * e) DESIZE) (fun r s' => r = ((DESIZE : ℤ),
      Bytes.zero.blit 0 DESIZE ((content s.disk (refs s.disk sb V) i).drop (DESIZE * e))) ∧ s' = s)
      (fun _ _ => False) s :=
    readi_present h hk (by rw [ht]; decide) _ hle (by decide)
      (hs.present (h.inum_lt hk) (h.type_ne hk) hle) ⟨rfl, rfl⟩
  obtain ⟨r, s', hok, rfl, rfl⟩ := hrun.exists_ok
  exact ⟨_, hok, congrArg Prod.fst slotAt_read, congrArg Prod.snd slotAt_read⟩

theorem deName_take (de : Bytes) : (deName de).take DIRSIZ = deName de := by
  refine List.take_of_length_le ?_
  unfold deName
  refine ((List.takeWhile_prefix _).length_le).trans ?_
  simp

theorem namecmp_eq_false {a b : List UInt8} :
    namecmp a b = false ↔ a.take DIRSIZ = b.take DIRSIZ := by
  simp [namecmp]

theorem drop_eq_cons {e : ℕ} {l xs : List Slot} {x : Slot} (h : l.drop e = x :: xs) :
    e < l.length ∧ l[e]? = some x ∧ l.drop (e + 1) = xs := by
  have hlt : e < l.length := by
    by_contra hge
    rw [List.drop_eq_nil_of_le (not_lt.mp hge)] at h
    cases h
  rw [List.drop_eq_getElem_cons hlt] at h
  obtain ⟨hx, hxs⟩ := List.cons.inj h
  exact ⟨hlt, by rw [List.getElem?_eq_getElem hlt, hx], hxs⟩

theorem drop_eq_nil {e : ℕ} {l : List Slot} (h : l.drop e = []) (he : e ≤ l.length) : e = l.length := by
  have := List.drop_eq_nil_iff.mp h
  omega

section Loops

variable {s : FsSt} {dp : ℕ} {xs : List Slot} {E : Halt → FsSt → Prop} (h : Reads s dp xs)

include h

theorem Reads.dirlookupLoop {Q : Option (ℕ × ℕ) → FsSt → Prop} (name : List UInt8) :
    ∀ (ys : List Slot) (e : ℕ), e ≤ xs.length → xs.drop e = ys →
    (match findFrom (name.take DIRSIZ) e ys with
      | none => Q none s
      | some (j, e') => Wp (iget j) (fun k s' => Q (some (k, DESIZE * e')) s') E s) →
    Wp (Fs.dirlookupLoop dp name (DESIZE * xs.length) (DESIZE * e)) Q E s := by
  intro ys
  induction ys with
  | nil =>
      intro e he hdrop hQ
      obtain rfl := drop_eq_nil hdrop he
      rw [Fs.dirlookupLoop, dif_neg (lt_irrefl _)]
      exact hQ
  | cons x ys ih =>
      intro e he hdrop hQ
      obtain ⟨hlt, hx, hdrop'⟩ := drop_eq_cons hdrop
      obtain ⟨de, hok, hin, hnm⟩ := h e x hx
      rw [Fs.dirlookupLoop, dif_pos (Nat.mul_lt_mul_of_pos_left hlt (by decide)), wp_bind]
      refine Wp.of_run hok (wp_ite.mpr ⟨fun hbad => absurd rfl hbad, fun _ => ?_⟩)
      refine wp_ite.mpr ⟨fun hmatch => ?_, fun hno => ?_⟩
      · -- the name
        rw [namecmp_eq_false, deName_take, hin, hnm] at hmatch
        rw [findFrom, if_pos ⟨hmatch.1, hmatch.2.symm⟩] at hQ
        rw [wp_bind, hin]
        exact hQ
      · rw [namecmp_eq_false, deName_take, hin, hnm] at hno
        rw [findFrom, if_neg fun hx' => hno ⟨hx'.1, hx'.2.symm⟩] at hQ
        exact ih (e + 1) hlt hdrop' hQ

theorem Reads.emptyLoop : ∀ (ys : List Slot) (e : ℕ), e ≤ xs.length → xs.drop e = ys →
    Wp (Fs.emptyLoop dp (DESIZE * xs.length) (DESIZE * e))
      (fun off s' => off = DESIZE * vacantFrom e ys ∧ s' = s) E s := by
  intro ys
  induction ys with
  | nil =>
      intro e he hdrop
      obtain rfl := drop_eq_nil hdrop he
      rw [Fs.emptyLoop, dif_neg (lt_irrefl _)]
      exact ⟨rfl, rfl⟩
  | cons x ys ih =>
      intro e he hdrop
      obtain ⟨hlt, hx, hdrop'⟩ := drop_eq_cons hdrop
      obtain ⟨de, hok, hin, -⟩ := h e x hx
      rw [Fs.emptyLoop, dif_pos (Nat.mul_lt_mul_of_pos_left hlt (by decide)), wp_bind]
      refine Wp.of_run hok (wp_ite.mpr ⟨fun hbad => absurd rfl hbad, fun _ => ?_⟩)
      rw [vacantFrom, wp_ite, hin]
      refine ⟨fun h0 => ?_, fun h0 => ?_⟩
      · rw [if_pos h0]
        exact ⟨rfl, rfl⟩
      · rw [if_neg h0]
        exact ih (e + 1) hlt hdrop'

theorem Reads.isdiremptyLoop : ∀ (ys : List Slot) (e : ℕ), e ≤ xs.length → xs.drop e = ys →
    Wp (Fs.isdiremptyLoop dp (DESIZE * xs.length) (DESIZE * e))
      (fun r s' => r = ys.all (·.1 = 0) ∧ s' = s) E s := by
  intro ys
  induction ys with
  | nil =>
      intro e he hdrop
      obtain rfl := drop_eq_nil hdrop he
      rw [Fs.isdiremptyLoop, dif_neg (lt_irrefl _)]
      exact ⟨rfl, rfl⟩
  | cons x ys ih =>
      intro e he hdrop
      obtain ⟨hlt, hx, hdrop'⟩ := drop_eq_cons hdrop
      obtain ⟨de, hok, hin, -⟩ := h e x hx
      rw [Fs.isdiremptyLoop, dif_pos (Nat.mul_lt_mul_of_pos_left hlt (by decide)), wp_bind]
      refine Wp.of_run hok (wp_ite.mpr ⟨fun hbad => absurd rfl hbad, fun _ => ?_⟩)
      rw [wp_ite, hin]
      refine ⟨fun h0 => ?_, fun h0 => ?_⟩
      · simp [h0]
      · refine (ih (e + 1) hlt hdrop').imp ?_
        rintro r s' ⟨rfl, rfl⟩
        simp [not_not.mp h0]

end Loops

/-! ### The namespace of a state -/

/-- What the caller of a program promises: that the entries of directories lead to
inodes, that the inode cache has room, that directories have vacant entries, and that an
inode is free. -/
structure Promise where
  live : Prop
  room : Prop
  vacancy : Prop
  inodes : Prop

/-- The reasons to stop: a program needs what was not promised. -/
def Excused (w : Promise) (e : Halt) (_ : FsSt) : Prop :=
  match e with
  | .panic .ilockNoType => ¬ w.live
  | .panic .igetNoInodes => ¬ w.room
  | .panic .outOfBlocks | .panic .dirlink => ¬ w.vacancy
  | .panic .iallocNoInodes => ¬ w.inodes
  | _ => False

theorem not_excused {e : Halt} {s : FsSt} : ¬ Excused ⟨True, True, True, True⟩ e s := by
  rcases e with msg | -
  · cases msg <;> simp [Excused]
  · exact id

/-- The strict state `s` has the namespace `N`; `all` lists the references to cache
entries, one for each reference, and `L` the locked entries. -/
structure Ns (sb : Superblock) (H : List (Disk × ℕ)) (all L : List ℕ) (s : FsSt) (N : Names) :
    Prop where
  inv : ∃ V, Inv sb H True s V
  counted : ∀ k, (s.icache k).ref = all.count k
  locked : ∀ k ∈ all, (s.icache k).busy = true ↔ k ∈ L
  locks_sub : ∀ k ∈ L, k ∈ all
  names : names s.disk = N

section Ns

variable {sb : Superblock} {H : List (Disk × ℕ)} {all L : List ℕ} {s s' : FsSt} {N : Names}
  {V V' : ℕ → Dinode} {k dp i e : ℕ} {w : Promise}

theorem nodeOf_type (n : Dinode) (c : Bytes) : (nodeOf n c).type = n.type := by
  unfold nodeOf
  split_ifs <;> rfl

theorem nodeOf_nlink (n : Dinode) (c : Bytes) : (nodeOf n c).nlink = n.nlink := by
  unfold nodeOf
  split_ifs <;> rfl

theorem Inv.names_eq (h : Inv sb H True s V) : names s.disk = fun i =>
    if i < sb.ninodes then nodeOf (V i) (content s.disk (refs s.disk sb V) i) else .free := by
  funext i
  unfold names
  rw [h.super, h.diskRefs_eq]
  split_ifs with hi
  · rw [(h.strict trivial).clean i hi]
  · rfl

/-- Only inode `i` changed. -/
theorem Inv.names_update (h : Inv sb H True s V) (h' : Inv sb H True s' V') (hi : i < sb.ninodes)
    (htable : ∀ j ≠ i, V' j = V j)
    (hcontent : ∀ j ≠ i, content s'.disk (refs s'.disk sb V') j
      = content s.disk (refs s.disk sb V) j) :
    names s'.disk = Function.update (names s.disk) i
      (nodeOf (V' i) (content s'.disk (refs s'.disk sb V') i)) := by
  rw [h.names_eq, h'.names_eq]
  funext j
  by_cases hji : j = i
  · subst hji
    rw [Function.update_self, if_pos hi]
  · rw [Function.update_of_ne hji, htable j hji, hcontent j hji]

theorem Ns.ref_pos (h : Ns sb H all L s N) (hk : k ∈ all) : 0 < (s.icache k).ref := by
  rw [h.counted k]
  exact_mod_cast List.count_pos_iff.mpr hk

theorem Ns.mem_of_ref (h : Ns sb H all L s N) (hk : 0 < (s.icache k).ref) : k ∈ all := by
  rw [h.counted k] at hk
  exact List.count_pos_iff.mp (by exact_mod_cast hk)

theorem Ns.inum_lt (h : Ns sb H all L s N) (hk : k ∈ all) : (s.icache k).inum < sb.ninodes := by
  obtain ⟨V, hI⟩ := h.inv
  exact hI.cache.inum_lt (h.ref_pos hk)

/-- An entry of the cache is found by its inode number. -/
theorem Ns.slot_inj (h : Ns sb H all L s N) {l : ℕ} (hk : k ∈ all) (hl : l ∈ all)
    (e : (s.icache k).inum = (s.icache l).inum) : k = l := by
  obtain ⟨V, hI⟩ := h.inv
  exact hI.cache.inj (h.ref_pos hk) (h.ref_pos hl) e

theorem Ns.loaded (h : Ns sb H all L s N) (hL : k ∈ L) :
    Loaded s k (s.icache k).inum := by
  obtain ⟨V, hI⟩ := h.inv
  have hk := h.locks_sub k hL
  exact ⟨h.ref_pos hk, hI.cache.valid (h.ref_pos hk) ((h.locked k hk).mpr hL), rfl⟩

theorem Ns.node_eq (h : Ns sb H all L s N) (hI : Inv sb H True s V) (hi : i < sb.ninodes) :
    N i = nodeOf (V i) (content s.disk (refs s.disk sb V) i) := by
  rw [← h.names, hI.names_eq]
  exact if_pos hi

theorem Ns.lt_of_type (h : Ns sb H all L s N) (ht : (N i).type ≠ 0) : i < sb.ninodes := by
  obtain ⟨V, hI⟩ := h.inv
  by_contra hi
  refine ht ?_
  rw [← h.names, hI.names_eq]
  simp only [if_neg hi]
  rfl

/-- The copy in the cache is the node. -/
theorem Ns.type_eq (h : Ns sb H all L s N) (hl : Loaded s k i) :
    (s.icache k).type = (N i).type := by
  obtain ⟨V, hI⟩ := h.inv
  rw [h.node_eq hI (hI.inum_lt hl), nodeOf_type, ← hI.inode_eq hl]

theorem Ns.nlink_eq (h : Ns sb H all L s N) (hl : Loaded s k i) :
    (s.icache k).nlink = (N i).nlink := by
  obtain ⟨V, hI⟩ := h.inv
  rw [h.node_eq hI (hI.inum_lt hl), nodeOf_nlink, ← hI.inode_eq hl]

theorem Ns.type_ne (h : Ns sb H all L s N) (hl : Loaded s k i) : (N i).type ≠ 0 := by
  obtain ⟨V, hI⟩ := h.inv
  rw [h.node_eq hI (hI.inum_lt hl), nodeOf_type]
  exact hI.type_ne hl

theorem Ns.size_eq (h : Ns sb H all L s N) (hl : Loaded s k i) (ht : (N i).type = T_DIR) :
    (s.icache k).size.toNat = (N i).size := by
  obtain ⟨V, hI⟩ := h.inv
  have hn := h.node_eq hI (hI.inum_lt hl)
  rw [hn, nodeOf_type] at ht
  rw [hn, nodeOf, if_pos ht, ← hI.inode_eq hl]

/-- A change of inodes only. -/
theorem Ns.of_sameSlots (h : Ns sb H all L s N) (hI : Inv sb H True s' V') (hs : SameSlots s s')
    {N' : Names} (hN : Fs.names s'.disk = N') : Ns sb H all L s' N' where
  inv := ⟨V', hI⟩
  counted l := by rw [hs.ref l, h.counted l]
  locked l hl := by rw [hs.busy l, h.locked l hl]
  locks_sub := h.locks_sub
  names := hN

/-- Parts of the state that the namespace does not depend on. -/
theorem Ns.congr (h : Ns sb H all L s N) (hd : s'.disk = s.disk) (hc : s'.icache = s.icache)
    (hb : s'.ballocs = s.ballocs) : Ns sb H all L s' N := by
  obtain ⟨V, hI⟩ := h.inv
  refine ⟨⟨V, hI.congr hd hc hb⟩, ?_, ?_, h.locks_sub, ?_⟩
  · exact hc ▸ h.counted
  · exact hc ▸ h.locked
  · exact hd ▸ h.names

theorem Ns.note (h : Ns sb H all L s N) (e : TxEv) : Ns sb H all L (s.note e) N :=
  h.congr rfl rfl rfl

theorem Ns.perm {all' : List ℕ} (h : Ns sb H all L s N) (hp : all.Perm all') :
    Ns sb H all' L s N where
  inv := h.inv
  counted k := by rw [h.counted k, hp.count_eq]
  locked k hk := h.locked k (hp.mem_iff.mpr hk)
  locks_sub k hk := hp.mem_iff.mp (h.locks_sub k hk)
  names := h.names

theorem Ns.swap {a b : ℕ} (h : Ns sb H (a :: b :: all) L s N) : Ns sb H (b :: a :: all) L s N :=
  h.perm (List.Perm.swap b a all)

/-- The order of the locks does not matter. -/
theorem Ns.locks {L' : List ℕ} (h : Ns sb H all L s N) (hL : ∀ k, k ∈ L ↔ k ∈ L') :
    Ns sb H all L' s N where
  inv := h.inv
  counted := h.counted
  locked k hk := (h.locked k hk).trans (hL k)
  locks_sub k hk := h.locks_sub k ((hL k).mpr hk)
  names := h.names

/-! ### Reading and writing entries -/

theorem Ns.reads (h : Ns sb H all L s N) (hl : Loaded s dp i) (ht : (N i).type = T_DIR) :
    Reads s dp (N i).slots := by
  obtain ⟨V, hI⟩ := h.inv
  have hn := h.node_eq hI (hI.inum_lt hl)
  rw [hn, nodeOf_type] at ht
  rw [hn, nodeOf, if_pos ht]
  exact hI.toCore.reads (hI.strict trivial) hl ht

/-- A written entry in the node. -/
theorem nodeOf_put {n n' : Dinode} {c de : Bytes} (ht : n.type = T_DIR)
    (hn : n' = { n with addrs := n'.addrs, size := n'.size })
    (hsize : n.size.toNat = DESIZE * (n.size.toNat / DESIZE))
    (hle : e ≤ n.size.toNat / DESIZE)
    (hsize' : n'.size.toNat = max n.size.toNat (DESIZE * e + DESIZE)) :
    nodeOf n' (c.blit (DESIZE * e) DESIZE de) = (nodeOf n c).put e (deInum de, deName de) := by
  have ht' : n'.type = T_DIR := by rw [hn, ht]
  have hl' : n'.nlink = n.nlink := by rw [hn]
  simp only [nodeOf, if_pos ht, if_pos ht', Node.put, length_slotsOf, hl']
  split_ifs with he
  · have : n'.size.toNat = n.size.toNat := by
      simp only [DESIZE] at *
      omega
    rw [this, slotsOf_set, ht, ht']
  · obtain rfl : e = n.size.toNat / DESIZE := by omega
    have : n'.size.toNat = DESIZE * (n.size.toNat / DESIZE) + DESIZE := by
      simp only [DESIZE] at *
      omega
    rw [this, slotsOf_append, ← hsize, ht, ht']

/-- Writing entry `e` of a directory, or appending it. -/
theorem Ns.write_entry (h : Ns sb H all L s N) (hl : Loaded s dp i) (ht : (N i).type = T_DIR)
    (hsize : (N i).size = DESIZE * (N i).slots.length) (he : e ≤ (N i).slots.length) {de : Bytes}
    (hde : deInum de < sb.ninodes) (hw : w.vacancy → e < (N i).slots.length) :
    Wp (writei dp de (DESIZE * e) DESIZE) (fun r s' => SameSlots s s' ∧
      (r = -1 ∧ s' = s ∧ ¬ e < (N i).slots.length ∨ r = DESIZE ∧
        Ns sb H all L s' (Function.update N i ((N i).put e (deInum de, deName de)))))
      (Excused w) s := by
  obtain ⟨V, hI⟩ := h.inv
  have hi := hI.inum_lt hl
  have hn := h.node_eq hI hi
  have ht' := ht
  rw [hn, nodeOf_type] at ht'
  have hlen : (N i).slots.length = (V i).size.toNat / DESIZE := by
    rw [hn, nodeOf, if_pos ht', length_slotsOf]
  have hsz : (N i).size = (V i).size.toNat := by rw [hn, nodeOf, if_pos ht']
  rw [hsz, hlen] at hsize
  rw [hlen] at he hw ⊢
  have hmax := (hI.strict trivial).size_le hi (hI.type_ne hl)
  have hMAX : MAXFILE * BSIZE = 71680 := rfl
  have hdir : (V i).type = T_DIR → DESIZE * e ≤ (V i).size.toNat →
      ∀ k, DESIZE * k + DESIZE ≤ max (V i).size.toNat (DESIZE * e + DESIZE) →
      ((content s.disk (refs s.disk sb V) i).blit (DESIZE * e) DESIZE de).get16 (DESIZE * k)
        < sb.ninodes := by
    intro _ _ k hk
    show (slotAt ((content s.disk (refs s.disk sb V) i).blit (DESIZE * e) DESIZE de) k).1 < _
    by_cases hke : k = e
    · rw [hke, slotAt_blit_self]
      exact hde
    · rw [slotAt_blit_of_ne hke]
      refine hI.dirs i hi ht' k ?_
      simp only [DESIZE] at *
      omega
  refine ((writei_stored_spec hI hl de (DESIZE * e) (by decide) hdir).and
    (writei_exits hI.toCore (hI.strict trivial) hl de (by decide))).mono ?_ ?_
  · rintro r s' ⟨⟨V', hI', hss, hcase⟩, -⟩
    refine ⟨hss, ?_⟩
    rcases hcase with ⟨rfl, hdev | ⟨rfl, hbad⟩⟩ | ⟨rfl, hw⟩
    · rw [ht'] at hdev
      exact absurd hdev (by decide)
    · refine Or.inl ⟨rfl, rfl, ?_⟩
      simp only [DESIZE] at *
      omega
    · refine Or.inr ⟨rfl, h.of_sameSlots hI' hss ?_⟩
      rw [hI.names_update hI' hi hw.table hw.content_of_ne, h.names, hw.content_self,
        nodeOf_put ht' hw.inode hsize he hw.size, hn]
  · rintro e' s' ⟨-, rfl, hgrow⟩
    show ¬ w.vacancy
    intro hv
    have := hw hv
    simp only [DESIZE] at *
    omega

end Ns

end Nunix.Fs
