/-
Nunix/Fs/Image.lean

The images `mkfs` makes.

Between two calls of `iappend` the inodes on disk are the table (`Built`).  `mkfs`
returns for every list of files that fits, and the image it returns is one the
kernel can run on (`Image`): the bitmap marks the blocks below the counter, the
inodes own the data blocks among them, and the directory names inodes of the disk.
-/
import Nunix.Fs.Append

namespace Nunix.Fs.Mkfs

open Bytes
open Function (update update_of_ne update_self)

/-! ### Writing inodes -/

/-- Inode `i` of the table `V` is written to disk as `n`, and the disk is the table. -/
structure Wrote (i : ℕ) (n : Dinode) (m : Img) (V : ℕ → Dinode) (m' : Img) : Prop where
  counted : Counted m' (dinode m'.disk)
  refs_eq : refs m'.disk sb (dinode m'.disk) = refs m.disk sb V
  content_eq : ∀ j, content m'.disk (refs m'.disk sb (dinode m'.disk)) j
    = content m.disk (refs m.disk sb V) j
  self : dinode m'.disk i = n
  other : ∀ j ≠ i, dinode m'.disk j = dinode m.disk j
  freeblock : m'.freeblock = m.freeblock
  freeinode : m'.freeinode = m.freeinode

section Winode

variable {m m' : Img} {V : ℕ → Dinode} {i : ℕ} {n : Dinode}

theorem winode_spec (h : Counted m V) (hi : i < ninodes)
    (htable : ∀ j < ninodes, j ≠ i → dinode m.disk j = V j)
    (hrefs : refs m.disk sb (update V i n) = refs m.disk sb V) :
    ∃ m', winode m i n = some m' ∧ Wrote i n m V m' := by
  have hib : IBLOCK i < nmeta sb := iblock_lt_nmeta hi
  have hlt : IBLOCK i < size := hib.trans (by decide)
  set d' := update m.disk (IBLOCK i) (withDinode m.disk i n) with hd'
  have hdata : ∀ b, nmeta sb ≤ b → d' b = m.disk b := fun b hb =>
    update_of_ne (hib.trans_le hb).ne' _ _
  have hself : dinode d' i = n := dinode_update_self m.disk i n
  have hother : ∀ j ≠ i, dinode d' j = dinode m.disk j := fun j hj =>
    dinode_update_of_ne hj n
  have hrefs' : refs d' sb (dinode d') = refs m.disk sb V := by
    have htab : refs d' sb (dinode d') = refs d' sb (update V i n) := by
      refine refs_congr_table fun j hj => ?_
      by_cases hji : j = i
      · rw [hji, hself, update_self]
      · rw [hother j hji, update_of_ne hji, htable j hj hji]
    rw [htab, ← hrefs]
    refine refs_congr fun j x hx => hdata x ?_
    rw [hrefs] at hx
    exact (h.ref_data hx).1
  refine ⟨wsect m (IBLOCK i) (withDinode m.disk i n), ?_,
    ⟨⟨?_, h.used, h.low, ?_, ?_⟩, hrefs', ?_, hself, hother, rfl, rfl⟩⟩
  · rw [winode, rsect, if_pos hlt]
    rfl
  · exact (superblock_update one_lt_iblock.ne').trans h.super
  · show Owns (refs d' sb (dinode d')) _ _
    rw [hrefs']
    exact h.owns
  · exact fun b hb => (hdata b (h.low.trans hb)).trans (h.zero b hb)
  · intro j
    show content d' (refs d' sb (dinode d')) j = _
    rw [hrefs']
    exact content_congr (fun p b hp => hdata b (h.ref_data hp).1) j

end Winode

/-! ### Between two calls of `iappend` -/

/-- The inodes on disk have the blocks their sizes say, inodes from the counter on are
free, and the root directory has `k` entries, each for an inode of the disk. -/
structure Built (k : ℕ) (m : Img) : Prop where
  counted : Counted m (dinode m.disk)
  sized : ∀ i < ninodes, (dinode m.disk i).type ≠ 0 →
    Sized m.disk (dinode m.disk) i (dinode m.disk i).size.toNat
  fresh : ∀ i < ninodes, m.freeinode ≤ i → (dinode m.disk i).type = 0
  root : (dinode m.disk ROOTINO).type = T_DIR
  root_size : (dinode m.disk ROOTINO).size.toNat = DESIZE * k
  dir : ∀ i < ninodes, (dinode m.disk i).type = T_DIR → i = ROOTINO
  entries : ∀ e, (content m.disk (refs m.disk sb (dinode m.disk)) ROOTINO).get16 (DESIZE * e)
    < ninodes

/-- Inode `i` has grown to `n'` bytes, on disk. -/
structure Grown (i n' : ℕ) (c : Bytes) (m m' : Img) : Prop where
  counted : Counted m' (dinode m'.disk)
  sized : Sized m'.disk (dinode m'.disk) i n'
  sized_of_ne : ∀ j ≠ i, ∀ k, Sized m.disk (dinode m.disk) j k →
    Sized m'.disk (dinode m'.disk) j k
  content_self : content m'.disk (refs m'.disk sb (dinode m'.disk)) i = c
  content_of_ne : ∀ j ≠ i, content m'.disk (refs m'.disk sb (dinode m'.disk)) j
    = content m.disk (refs m.disk sb (dinode m.disk)) j
  type : (dinode m'.disk i).type = (dinode m.disk i).type
  size : (dinode m'.disk i).size.toNat = n'
  other : ∀ j < ninodes, j ≠ i → dinode m'.disk j = dinode m.disk j
  freeblock : m'.freeblock + blocksFor (dinode m.disk i).size.toNat = m.freeblock + blocksFor n'
  freeinode : m'.freeinode = m.freeinode

section Built

variable {m m' : Img} {i k n' : ℕ} {c : Bytes} {inum j k' : ℕ}

theorem iappend_spec (h : Counted m (dinode m.disk)) (hi : i < ninodes)
    (ht : (dinode m.disk i).type ≠ 0)
    (hs : Sized m.disk (dinode m.disk) i (dinode m.disk i).size.toNat) (p : List UInt8)
    (hmax : (dinode m.disk i).size.toNat ≤ MAXFILE * BSIZE) (hle : m.freeblock ≤ Mkfs.size) :
    IfRoom (Room m (dinode m.disk i).size.toNat ((dinode m.disk i).size.toNat + p.length))
      (iappend m i p) (Grown i ((dinode m.disk i).size.toNat + p.length)
        ((content m.disk (refs m.disk sb (dinode m.disk)) i).blit (dinode m.disk i).size.toNat
          p.length fun k => p.getD k 0) m) := by
  have hib : IBLOCK i < nmeta sb := iblock_lt_nmeta hi
  have hlt : IBLOCK i < Mkfs.size := hib.trans (by decide)
  rw [iappend, rinode, rsect, if_pos hlt]
  simp only [Option.bind_eq_bind, Option.bind_some, Option.pure_def]
  refine (iappendLoop_spec (fun k => p.getD k 0) p.length hi 0 (dinode m.disk i).size.toNat m
    (dinode m.disk) h ht hs hmax hle).bind id ?_
  rintro hroom ⟨m₁, din₁, off⟩ ⟨V₁, hr, a⟩
  obtain ⟨rfl, rfl⟩ := Prod.mk.inj hr
  have htable : ∀ j < ninodes, j ≠ i → dinode m₁.disk j = V₁ j := fun j hj hji => by
    rw [a.inodes j hj, a.table j hji]
  obtain ⟨m', hw, w⟩ := winode_spec (n := { V₁ i with
    size := UInt32.ofNat ((dinode m.disk i).size.toNat + (p.length - 0)) }) a.counted hi
    htable (refs_update_same rfl rfl)
  have hrefs := w.refs_eq
  simp only [hw]
  refine .intro hroom ⟨w.counted, ?_, ?_, ?_, ?_, ?_, ?_, ?_, ?_, ?_⟩
  · exact a.sized.congr fun q => congrFun hrefs _
  · exact fun j hj l hl => (a.sized_of_ne j hj l hl).congr fun q => congrFun hrefs _
  · rw [w.content_eq, a.content_self, drop_zero, Nat.sub_zero]
  · exact fun j hj => (w.content_eq j).trans (a.content_of_ne j hj)
  · rw [w.self, a.inode]
  · rw [w.self]
    exact UInt32.toNat_ofNat_of_lt' (hroom.1.trans_lt (by decide))
  · exact fun j hj hji => (w.other j hji).trans (a.inodes j hj)
  · rw [w.freeblock]
    exact a.freeblock
  · exact w.freeinode.trans a.freeinode

theorem Grown.type_eq (g : Grown i n' c m m') (hj : j < ninodes) :
    (dinode m'.disk j).type = (dinode m.disk j).type := by
  by_cases hji : j = i
  · rw [hji, g.type]
  · rw [g.other j hj hji]

/-- A file that grows leaves the directory alone; a directory has to have good entries. -/
theorem Grown.built (g : Grown i n' c m m') (h : Built k m)
    (hroot : i = ROOTINO → n' = DESIZE * k' ∧ ∀ e, c.get16 (DESIZE * e) < ninodes)
    (hne : i ≠ ROOTINO → k' = k) : Built k' m' := by
  have hr : ROOTINO < ninodes := by decide
  refine ⟨g.counted, ?_, ?_, ?_, ?_, ?_, ?_⟩
  · intro j hj ht
    by_cases hji : j = i
    · rw [hji, g.size]
      exact g.sized
    · rw [g.type_eq hj] at ht
      rw [g.other j hj hji]
      exact g.sized_of_ne j hji _ (h.sized j hj ht)
  · intro j hj hfree
    rw [g.type_eq hj]
    exact h.fresh j hj (g.freeinode ▸ hfree)
  · exact (g.type_eq hr).trans h.root
  · by_cases hi : i = ROOTINO
    · rw [← hi, g.size]
      exact (hroot hi).1
    · rw [g.other _ hr (Ne.symm hi), hne hi]
      exact h.root_size
  · intro j hj ht
    exact h.dir j hj ((g.type_eq hj).symm.trans ht)
  · intro e
    by_cases hi : i = ROOTINO
    · rw [← hi, g.content_self]
      exact (hroot hi).2 e
    · rw [g.content_of_ne _ (Ne.symm hi)]
      exact h.entries e

/-- An entry for inode `inum` behind `k` entries. -/
theorem get16_dirent_blit {b : Bytes} {name : List UInt8} (hb : ∀ e,
    b.get16 (DESIZE * e) < ninodes) (hinum : inum < ninodes) (e : ℕ) :
    (b.blit (DESIZE * k) DESIZE (dirent inum name)).get16 (DESIZE * e) < ninodes := by
  by_cases he : e = k
  · have hlt : inum < 2 ^ 16 := hinum.trans (by decide)
    rw [he, get16_of_bytes hlt]
    · exact hinum
    · intro a ha
      rw [blit_apply_of_mem (by omega) (by simp only [DESIZE]; omega), dirent, if_pos (by omega),
        Nat.add_sub_cancel_left]
  · rw [get16_congr (c := b) (p := DESIZE * e)]
    · exact hb e
    · intro a ha
      refine blit_apply_of_notMem ?_
      simp only [DESIZE]
      omega

/-- The bytes of an entry, as `iappend` gets them. -/
theorem blit_dirent (b : Bytes) (o inum : ℕ) (name : List UInt8) :
    b.blit o ((List.range DESIZE).map (dirent inum name)).length
      (fun k => ((List.range DESIZE).map (dirent inum name)).getD k 0)
      = b.blit o DESIZE (dirent inum name) := by
  rw [List.length_map, List.length_range]
  funext x
  by_cases hx : o ≤ x ∧ x < o + DESIZE
  · have hlt : x - o < DESIZE := by omega
    rw [blit_apply_of_mem hx.1 hx.2, blit_apply_of_mem hx.1 hx.2, List.getD_eq_getElem?_getD]
    simp [hlt]
  · rw [blit_apply_of_notMem (by omega), blit_apply_of_notMem (by omega)]

theorem Built.root_ne (h : Built k m) : (dinode m.disk ROOTINO).type ≠ 0 := by
  rw [h.root]
  decide

/-- Another entry in the root directory. -/
theorem Built.addEntry (h : Built k m) (hinum : inum < ninodes) (name : List UInt8)
    (hmax : DESIZE * (k + 1) ≤ MAXFILE * BSIZE) (hle : m.freeblock ≤ Mkfs.size) :
    IfRoom (Room m (DESIZE * k) (DESIZE * (k + 1)))
      (iappend m ROOTINO ((List.range DESIZE).map (dirent inum name))) fun m' =>
      Built (k + 1) m' ∧ m'.freeinode = m.freeinode ∧
      m'.freeblock + blocksFor (DESIZE * k) = m.freeblock + blocksFor (DESIZE * (k + 1)) ∧
      Grown ROOTINO (DESIZE * (k + 1)) ((content m.disk (refs m.disk sb (dinode m.disk))
        ROOTINO).blit (DESIZE * k) DESIZE (dirent inum name)) m m' := by
  have hr : ROOTINO < ninodes := by decide
  have hlen : (dinode m.disk ROOTINO).size.toNat
      + ((List.range DESIZE).map (dirent inum name)).length = DESIZE * (k + 1) := by
    rw [h.root_size, List.length_map, List.length_range, Nat.mul_add_one]
  have happ := iappend_spec h.counted hr h.root_ne (h.sized _ hr h.root_ne)
    ((List.range DESIZE).map (dirent inum name))
    (by rw [h.root_size]; exact (Nat.mul_le_mul_left _ (Nat.le_succ k)).trans hmax) hle
  rw [hlen, blit_dirent, h.root_size] at happ
  refine happ.imp Iff.rfl fun m' g => ?_
  refine ⟨g.built h (fun _ => ⟨rfl, ?_⟩) (fun hne => absurd rfl hne), g.freeinode, ?_, g⟩
  · exact get16_dirent_blit h.entries hinum
  · rw [← h.root_size]
    exact g.freeblock

/-- Inode `i` is a file with the bytes `bs`. -/
structure FileIs (m : Img) (i : ℕ) (bs : List UInt8) : Prop where
  type : (dinode m.disk i).type = T_FILE
  size : (dinode m.disk i).size.toNat = bs.length
  content : content m.disk (refs m.disk sb (dinode m.disk)) i = fun x => bs.getD x 0

theorem FileIs.congr {bs : List UInt8} (h : FileIs m j bs) (hd : dinode m'.disk j = dinode m.disk j)
    (hc : Fs.content m'.disk (refs m'.disk sb (dinode m'.disk)) j
      = Fs.content m.disk (refs m.disk sb (dinode m.disk)) j) : FileIs m' j bs :=
  ⟨hd ▸ h.type, hd ▸ h.size, hc.trans h.content⟩

/-- Bytes appended to bytes. -/
theorem blit_getD (bs p : List UInt8) :
    Bytes.blit (fun x => bs.getD x 0) bs.length p.length (fun k => p.getD k 0)
      = fun x => (bs ++ p).getD x 0 := by
  funext x
  simp only [List.getD_eq_getElem?_getD]
  by_cases hlt : x < bs.length
  · rw [blit_apply_of_notMem (by omega), List.getElem?_append_left hlt]
  · rw [List.getElem?_append_right (by omega)]
    by_cases hx : x < bs.length + p.length
    · rw [blit_apply_of_mem (by omega) hx]
    · rw [blit_apply_of_notMem (by omega), List.getElem?_eq_none (by omega),
        List.getElem?_eq_none (by omega)]

/-- Copying a file, piece by piece, behind the bytes `bs`. -/
theorem Built.appendReads (hi : i < ninodes) : ∀ (reads : List (List UInt8)) {m : Img}
    {bs : List UInt8}, Built k m → FileIs m i bs → bs.length ≤ MAXFILE * BSIZE →
    m.freeblock ≤ Mkfs.size →
    IfRoom (Room m bs.length (bs.length + (reads.map List.length).sum))
      (reads.foldlM (fun m buf => iappend m i buf) m) fun m' => Built k m' ∧
      m'.freeinode = m.freeinode ∧ m'.freeblock + blocksFor bs.length
        = m.freeblock + blocksFor (bs.length + (reads.map List.length).sum) ∧
      FileIs m' i (bs ++ reads.flatten) ∧
      ∀ j < ninodes, j ≠ i → dinode m'.disk j = dinode m.disk j ∧
        content m'.disk (refs m'.disk sb (dinode m'.disk)) j
          = content m.disk (refs m.disk sb (dinode m.disk)) j := by
  intro reads
  induction reads with
  | nil =>
      intro m bs h hf hmax hle
      exact .intro ⟨by simpa using hmax, by simpa using hle⟩
        ⟨h, rfl, by simp, by simpa using hf, fun _ _ _ => ⟨rfl, rfl⟩⟩
  | cons buf reads ih =>
      intro m bs h hf hmax hle
      have ht0 : (dinode m.disk i).type ≠ 0 := by
        rw [hf.type]
        decide
      have hir : i ≠ ROOTINO := by
        rintro rfl
        have ht := hf.type
        rw [h.root] at ht
        exact absurd ht (by decide)
      have happ := iappend_spec h.counted hi ht0 (h.sized i hi ht0) buf (hf.size ▸ hmax) hle
      rw [hf.size, hf.content, blit_getD] at happ
      rw [List.foldlM_cons, List.map_cons, List.sum_cons, ← Nat.add_assoc]
      have hmono : blocksFor (bs.length + buf.length)
          ≤ blocksFor (bs.length + buf.length + (reads.map List.length).sum) :=
        blocksFor_mono (Nat.le_add_right _ _)
      refine happ.bind (by unfold Room; omega) fun hroom m₁ g => ?_
      have hfb := g.freeblock
      rw [hf.size] at hfb
      have hf₁ : FileIs m₁ i (bs ++ buf) :=
        ⟨g.type.trans hf.type, by rw [g.size, List.length_append], g.content_self⟩
      have hrec := ih (g.built h (fun e => absurd e hir) fun _ => rfl) hf₁
        (by rw [List.length_append]; exact hroom.1) (by have := hroom.2; omega)
      rw [List.length_append] at hrec
      refine hrec.imp (by unfold Room; omega) fun m' ⟨h', hfi, hfb', hf', hrest⟩ => ?_
      refine ⟨h', hfi.trans g.freeinode, by omega, ?_, fun j hj hji => ?_⟩
      · rw [List.flatten_cons, ← List.append_assoc]
        exact hf'
      · obtain ⟨hd, hc⟩ := hrest j hj hji
        exact ⟨hd.trans (g.other j hj hji), hc.trans (g.content_of_ne j hji)⟩

end Built

/-! ### The program -/

/-- The bytes of an input file. -/
def HostFile.size (f : HostFile) : ℕ := (f.reads.map List.length).sum

/-- What an input file holds. -/
def HostFile.bytes (f : HostFile) : List UInt8 := f.reads.flatten

/-- The name of an input file on the image. -/
def HostFile.target (f : HostFile) : List UInt8 :=
  if f.name.head? = some 95 then f.name.tail else f.name

/-- The bytes of a directory with the entries `E`. -/
def dirBytes (E : ℕ → Bytes) : Bytes := fun x => E (x / DESIZE) (x % DESIZE)

/-- The entries of a root directory that names `files`, in order. -/
def rootEntry (files : List HostFile) : ℕ → Bytes
  | 0 => dirent ROOTINO [46]
  | 1 => dirent ROOTINO [46, 46]
  | e + 2 => (files[e]?.map fun f => dirent (2 + e) f.target).getD Bytes.zero

/-- Inode `k` is the `k`-th input, counting from two, and the root directory says so. -/
structure Holds (files : List HostFile) (m : Img) : Prop where
  root : content m.disk (refs m.disk sb (dinode m.disk)) ROOTINO
    = dirBytes (rootEntry files)
  file : ∀ e f, files[e]? = some f → FileIs m (2 + e) f.bytes

theorem dirBytes_blit (E : ℕ → Bytes) (k : ℕ) (de : Bytes) :
    (dirBytes E).blit (DESIZE * k) DESIZE de = dirBytes (update E k de) := by
  funext x
  have hdm := Nat.div_add_mod x DESIZE
  have hmod : x % DESIZE < DESIZE := Nat.mod_lt _ (by decide)
  unfold dirBytes
  by_cases hx : x / DESIZE = k
  · subst hx
    rw [update_self, blit_apply_of_mem (by omega) (by omega)]
    congr 1
    omega
  · rw [update_of_ne hx, blit_apply_of_notMem]
    simp only [DESIZE] at *
    omega

theorem rootEntry_nil : update (update (fun _ => Bytes.zero) 0
    (dirent ROOTINO [46])) 1 (dirent ROOTINO [46, 46]) = rootEntry [] := by
  funext e
  match e with
  | 0 => rfl
  | 1 => rfl
  | e + 2 => rfl

theorem rootEntry_snoc (files : List HostFile) (f : HostFile) :
    update (rootEntry files) (2 + files.length) (dirent (2 + files.length) f.target)
      = rootEntry (files ++ [f]) := by
  funext e
  match e with
  | 0 => exact update_of_ne (by omega) _ _
  | 1 => exact update_of_ne (by omega) _ _
  | e + 2 =>
      by_cases he : e = files.length
      · subst he
        rw [Nat.add_comm files.length 2, update_self, Nat.add_comm 2 files.length]
        simp [rootEntry, Nat.add_comm]
      · rw [update_of_ne (by omega)]
        simp only [rootEntry]
        rw [List.getElem?_append]
        split_ifs with hlt
        · rfl
        · rw [List.getElem?_eq_none (by omega), List.getElem?_eq_none (by simp; omega)]

theorem HostFile.bytes_length (f : HostFile) : f.bytes.length = f.size := by
  rw [HostFile.bytes, List.length_flatten]
  rfl

section Program

variable {m m' : Img} {k : ℕ} {files : List HostFile}

/-- A free inode has no references, and neither has an inode without addresses. -/
theorem refs_update_fresh {d : Disk} {V : ℕ → Dinode} {i : ℕ} {n : Dinode}
    (hn : n.addrs = fun _ => 0) (ht : (V i).type = 0) :
    refs d sb (update V i n) = refs d sb V := by
  funext ⟨j, p⟩
  by_cases hj : j = i
  · have hnew : refs d sb (update V i n) (j, p) = none := by
      refine if_neg fun h => h.2.2 ?_
      rw [hj, update_self]
      cases p <;> simp [Dinode.addrAt, hn]
    have hold : refs d sb V (j, p) = none := if_neg fun h => h.2.1 (by rw [hj, ht])
    rw [hnew, hold]
  · refine refs_congr_at ?_ ?_ <;> rw [update_of_ne hj]

/-- `ialloc` takes the next inode, which has no blocks. -/
theorem ialloc_spec (type : Int16) (h : Counted m (dinode m.disk)) (hi : m.freeinode < ninodes)
    (hfree : (dinode m.disk m.freeinode).type = 0) :
    ∃ m', ialloc m type = some (m', m.freeinode) ∧
      Wrote m.freeinode { Dinode.zero with type := type, nlink := 1 }
        { m with freeinode := m.freeinode + 1 } (dinode m.disk) m' ∧
      Sized m'.disk (dinode m'.disk) m.freeinode 0 := by
  have h' : Counted { m with freeinode := m.freeinode + 1 } (dinode m.disk) :=
    ⟨h.super, h.used, h.low, h.owns, h.zero⟩
  have hnone : ∀ p, refs m.disk sb (dinode m.disk) (m.freeinode, p) = none := fun p =>
    if_neg fun hp => hp.2.1 hfree
  obtain ⟨m', hm', w⟩ := winode_spec
    (n := { Dinode.zero with type := type, nlink := 1 }) h' hi (fun _ _ _ => rfl)
    (refs_update_fresh rfl hfree)
  have hrefs : ∀ p, refs m'.disk sb (dinode m'.disk) (m.freeinode, p) = none := fun p =>
    (congrFun w.refs_eq _).trans (hnone p)
  refine ⟨m', ?_, w, ⟨fun bn => ?_, ?_⟩⟩
  · rw [ialloc]
    simp only [hm', Option.bind_eq_bind, Option.bind_some]
    rfl
  · simp only [blockOf, hrefs]
    rcases posOf bn with - | q <;> simp
  · simp [hrefs]

/-- The next inode becomes a file. -/
theorem Built.alloc (h : Built k m) (hi : m.freeinode < ninodes) :
    ∃ m', ialloc m T_FILE = some (m', m.freeinode) ∧ Built k m' ∧
      m'.freeinode = m.freeinode + 1 ∧ m'.freeblock = m.freeblock ∧ FileIs m' m.freeinode [] ∧
      ∀ j ≠ m.freeinode, dinode m'.disk j = dinode m.disk j ∧
        content m'.disk (refs m'.disk sb (dinode m'.disk)) j
          = content m.disk (refs m.disk sb (dinode m.disk)) j := by
  have hr : ROOTINO < ninodes := by decide
  obtain ⟨m', hm', w, hs⟩ := ialloc_spec T_FILE h.counted hi (h.fresh _ hi le_rfl)
  have hne : ROOTINO ≠ m.freeinode := by
    intro e
    have := h.fresh _ hi le_rfl
    rw [← e, h.root] at this
    exact absurd this (by decide)
  -- the new file has no blocks, so it reads as zeros
  have hnew : FileIs m' m.freeinode [] := by
    refine ⟨by rw [w.self], by rw [w.self]; rfl, funext fun x => content_of_none ?_⟩
    by_contra hne
    exact absurd ((hs.blocks _).mp hne) (Nat.not_lt_zero _)
  refine ⟨m', hm', ⟨w.counted, ?_, ?_, ?_, ?_, ?_, ?_⟩, w.freeinode, w.freeblock, hnew,
    fun j hj => ⟨w.other j hj, w.content_eq j⟩⟩
  · intro j hj ht
    by_cases hji : j = m.freeinode
    · rw [hji, w.self]
      exact hs
    · rw [w.other j hji] at ht ⊢
      exact (h.sized j hj ht).congr fun p => congrFun w.refs_eq _
  · intro j hj hfree
    rw [w.freeinode] at hfree
    have hfree' : m.freeinode + 1 ≤ j := hfree
    rw [w.other j (by omega)]
    exact h.fresh j hj (by omega)
  · rw [w.other _ hne]
    exact h.root
  · rw [w.other _ hne]
    exact h.root_size
  · intro j hj ht
    by_cases hji : j = m.freeinode
    · rw [hji, w.self] at ht
      exact absurd ht (by decide)
    · rw [w.other j hji] at ht
      exact h.dir j hj ht
  · intro e
    rw [w.content_eq]
    exact h.entries e

/-- `addFile` adds an entry and a file. -/
theorem Built.addFile (h : Built (2 + files.length) m) (hH : Holds files m)
    (hk : m.freeinode = 2 + files.length) (hi : 2 + files.length < ninodes)
    (hle : m.freeblock ≤ Mkfs.size) {f : HostFile} (hname : slash ∉ f.name) :
    IfRoom (f.size ≤ MAXFILE * BSIZE ∧
        m.freeblock + blocksFor (DESIZE * (2 + files.length + 1)) + blocksFor f.size
          ≤ Mkfs.size + blocksFor (DESIZE * (2 + files.length)))
      (addFile m f) fun m' => Built (2 + files.length + 1) m' ∧ Holds (files ++ [f]) m' ∧
        m'.freeinode = 2 + files.length + 1 ∧
        m'.freeblock + blocksFor (DESIZE * (2 + files.length))
          = m.freeblock + blocksFor (DESIZE * (2 + files.length + 1)) + blocksFor f.size := by
  set k := 2 + files.length with hk'
  obtain ⟨m₁, hm₁, h₁, hfi₁, hfb₁, hnew, hrest₁⟩ := h.alloc (hk ▸ hi)
  rw [hk] at hm₁ hnew hrest₁
  have hdir : DESIZE * (k + 1) ≤ MAXFILE * BSIZE := by
    simp only [DESIZE, MAXFILE, NDIRECT, NINDIRECT, BSIZE, ninodes] at hi ⊢
    omega
  rw [Mkfs.addFile, if_neg hname]
  simp only [hm₁, Option.bind_eq_bind, Option.bind_some]
  refine (h₁.addEntry hi f.target hdir (hfb₁ ▸ hle)).bind (by unfold Room; omega) ?_
  rintro hroom m₂ ⟨h₂, hfi₂, hfb₂, g⟩
  have hne : k ≠ ROOTINO := by
    have : ROOTINO = 1 := rfl
    omega
  have hnew₂ : FileIs m₂ k [] := hnew.congr (g.other k hi hne) (g.content_of_ne k hne)
  have h0 : blocksFor 0 = 0 := rfl
  have hreads := Built.appendReads hi f.reads h₂ hnew₂ (Nat.zero_le _)
    (by have := hroom.2; omega)
  rw [List.length_nil, Nat.zero_add, h0] at hreads
  change IfRoom (Room m₂ 0 f.size) _ _ at hreads
  refine hreads.imp (by unfold Room; omega) ?_
  rintro m' ⟨h', hfi', hfb', hf', hrest⟩
  have hfb'' : m'.freeblock + 0 = m₂.freeblock + blocksFor f.size := hfb'
  refine ⟨h', ⟨?_, fun e f' he => ?_⟩, by omega, by omega⟩
  · rw [(hrest ROOTINO (by decide) hne.symm).2, g.content_self, (hrest₁ ROOTINO hne.symm).2, hH.root,
      dirBytes_blit, rootEntry_snoc]
  · -- the files that were there, and the new one
    rcases lt_or_ge e files.length with hlt | hge
    · rw [List.getElem?_append_left hlt] at he
      have hek : 2 + e ≠ k := by omega
      have her : 2 + e ≠ ROOTINO := by
        have : ROOTINO = 1 := rfl
        omega
      have hen : 2 + e < ninodes := by omega
      have hold := (hH.file e f' he).congr (hrest₁ _ hek).1 (hrest₁ _ hek).2
      have hold₂ := hold.congr (g.other _ hen her) (g.content_of_ne _ her)
      exact hold₂.congr (hrest _ hen hek).1 (hrest _ hen hek).2
    · rw [List.getElem?_append_right hge] at he
      obtain ⟨hz, rfl⟩ : e - files.length = 0 ∧ f = f' := by
        rcases hz : e - files.length with - | z <;> rw [hz] at he
        · exact ⟨rfl, by simpa using he⟩
        · simp at he
      have hek : 2 + e = k := by omega
      rw [hek]
      exact hf'

/-- The blocks of the root directory, with `k` entries before the files, and of the
files. -/
def dataBlocks (k : ℕ) (files : List HostFile) : ℕ :=
  blocksFor (DESIZE * (k + files.length)) + (files.map fun f => blocksFor f.size).sum

/-- The names, the sizes and the number of the files are in the bounds of the format. -/
structure Fits (files : List HostFile) : Prop where
  name : ∀ f ∈ files, slash ∉ f.name
  size : ∀ f ∈ files, f.size ≤ MAXFILE * BSIZE
  inodes : files.length + 2 ≤ ninodes
  blocks : dataBlocks 2 files ≤ nblocks

theorem Built.addFiles : ∀ (files : List HostFile) {pre : List HostFile} {m : Img},
    Built (2 + pre.length) m → Holds pre m → m.freeinode = 2 + pre.length →
    2 + pre.length + files.length ≤ ninodes → m.freeblock ≤ Mkfs.size →
    (∀ f ∈ files, slash ∉ f.name) →
    IfRoom ((∀ f ∈ files, f.size ≤ MAXFILE * BSIZE) ∧
        m.freeblock + dataBlocks (2 + pre.length) files
          ≤ Mkfs.size + blocksFor (DESIZE * (2 + pre.length)))
      (files.foldlM Mkfs.addFile m) fun m' => Built (2 + pre.length + files.length) m' ∧
        Holds (pre ++ files) m' ∧ m'.freeblock + blocksFor (DESIZE * (2 + pre.length))
          = m.freeblock + dataBlocks (2 + pre.length) files := by
  intro files
  induction files with
  | nil =>
      intro pre m h hH _ _ hle _
      exact .intro ⟨nofun, by simpa [dataBlocks] using hle⟩
        ⟨h, by simpa using hH, by simp [dataBlocks]⟩
  | cons f files ih =>
      intro pre m h hH hk hlen hle hname
      simp only [dataBlocks, List.length_cons, List.map_cons, List.sum_cons,
        List.forall_mem_cons] at hlen hname ⊢
      have hmono : blocksFor (DESIZE * (2 + pre.length + 1))
          ≤ blocksFor (DESIZE * (2 + pre.length + (files.length + 1))) :=
        blocksFor_mono (Nat.mul_le_mul_left _ (by omega))
      rw [List.foldlM_cons]
      refine (h.addFile hH hk (by omega) hle hname.1).bind (fun hr => ⟨hr.1.1, by omega⟩) ?_
      rintro hroom m₁ ⟨h₁, hH₁, hfi₁, hfb₁⟩
      have hsnoc : 2 + (pre ++ [f]).length = 2 + pre.length + 1 := by
        rw [List.length_append, List.length_singleton]
        omega
      have hassoc : 2 + pre.length + 1 + files.length = 2 + pre.length + (files.length + 1) := by
        omega
      rw [← hsnoc] at h₁ hfi₁
      have hrec := ih h₁ hH₁ hfi₁ (by omega) (by omega) hname.2
      rw [dataBlocks, hsnoc, hassoc, List.append_assoc] at hrec
      refine hrec.imp ⟨fun hr => ⟨⟨hroom.1, hr.1⟩, by omega⟩, fun hr => ⟨hr.1.2, by omega⟩⟩ ?_
      exact fun m' ⟨h', hH', hfb'⟩ => ⟨h', hH', by omega⟩

/-- An image of zeros but for the superblock: no inode has a block. -/
theorem counted_empty (hsuper : superblock m.disk = sb) (hfree : m.freeblock = nmeta sb)
    (hused : m.usedblocks = m.freeblock) (hzero : ∀ b ≠ 1, m.disk b = Bytes.zero) :
    Counted m (dinode m.disk) ∧ ∀ i, (dinode m.disk i).type = 0 := by
  have htype : ∀ i, (dinode m.disk i).type = 0 := by
    intro i
    rw [dinode, hzero _ one_lt_iblock.ne']
    rfl
  have hnone : ∀ p b, refs m.disk sb (dinode m.disk) p ≠ some b := by
    intro p b hp
    exact (refs_eq_some.mp hp).2.1 (htype _)
  refine ⟨⟨hsuper, hused, hfree.ge, ⟨?_, ?_, ?_, ?_⟩, ?_⟩, htype⟩
  · intro b hb
    show b < m.freeblock
    rw [hfree]
    exact hb
  · exact fun hp => absurd hp (hnone _ _)
  · exact fun hp => absurd hp (hnone _ _)
  · exact fun hp => absurd hp (hnone _ _)
  · intro b hb
    have hmeta : 1 < nmeta sb := one_lt_nmeta
    exact hzero b (by omega)

/-- A root directory without entries. -/
theorem Wrote.built (w : Wrote ROOTINO { Dinode.zero with type := T_DIR, nlink := 1 } m
    (dinode m.disk) m') (hs : Sized m'.disk (dinode m'.disk) ROOTINO 0)
    (htype : ∀ i, (dinode m.disk i).type = 0) (hfree : ROOTINO < m'.freeinode) : Built 0 m' := by
  have htype' : ∀ i ≠ ROOTINO, (dinode m'.disk i).type = 0 := fun i hi => by
    rw [w.other i hi]
    exact htype i
  refine ⟨w.counted, ?_, ?_, ?_, ?_, ?_, ?_⟩
  · intro i _ ht
    have hi : i = ROOTINO := by
      by_contra hi
      exact ht (htype' i hi)
    rw [hi, w.self]
    exact hs
  · exact fun i _ hi => htype' i (hfree.trans_le hi).ne'
  · rw [w.self]
  · rw [w.self]
    rfl
  · intro i _ ht
    by_contra hi
    rw [htype' i hi] at ht
    exact absurd ht (by decide)
  · intro e
    have hzero : content m.disk (refs m.disk sb (dinode m.disk)) ROOTINO = Bytes.zero := by
      funext x
      refine content_of_none ?_
      rcases e : posOf (x / BSIZE) with - | q
      · rw [blockOf, e]
        rfl
      · rw [blockOf, e]
        exact if_neg fun h => h.2.1 (htype _)
    rw [w.content_eq, hzero, get16_zero]
    decide

theorem start_spec : ∃ m, start = some m ∧ Built 2 m ∧ Holds [] m ∧ m.freeinode = 2 ∧
    m.freeblock = nmeta sb + blocksFor (DESIZE * 2) := by
  set m₀ : Img := wsect ⟨fun _ => Bytes.zero, 1, nmeta sb, nmeta sb⟩ 1
    ((((Bytes.zero.put32 0 size).put32 4 nblocks).put32 8 ninodes).put32 12 LOGSIZE) with hm₀
  obtain ⟨hc, htype⟩ := counted_empty (m := m₀) rfl rfl rfl fun b hb => update_of_ne hb _ _
  obtain ⟨m₁, hm₁, w, hs⟩ := ialloc_spec T_DIR hc (by decide) (htype _)
  have hfi : m₁.freeinode = 2 := w.freeinode
  have hfb : m₁.freeblock = nmeta sb := w.freeblock
  have h₁ : Built 0 m₁ := Wrote.built w hs htype (by rw [hfi]; decide)
  have hzero : content m₁.disk (refs m₁.disk sb (dinode m₁.disk)) ROOTINO
      = dirBytes fun _ => Bytes.zero := by
    refine funext fun x => content_of_none ?_
    by_contra hne
    exact absurd ((hs.blocks _).mp hne) (Nat.not_lt_zero _)
  have hr : ROOTINO < ninodes := by decide
  have hle : m₁.freeblock ≤ Mkfs.size := by
    rw [hfb]
    decide
  obtain ⟨m₂, hm₂, h₂, hfi₂, hfb₂, g₂⟩ := (h₁.addEntry hr [46] (by decide) hle).returns
    ⟨by decide, by rw [hfb]; decide⟩
  have h0 : blocksFor (DESIZE * 0) = 0 := rfl
  have hsize : nmeta sb + blocksFor (DESIZE * (0 + 1 + 1)) ≤ Mkfs.size := by decide
  have hmono : blocksFor (DESIZE * (0 + 1)) ≤ blocksFor (DESIZE * (0 + 1 + 1)) := by decide
  obtain ⟨m₃, hm₃, h₃, hfi₃, hfb₃, g₃⟩ := (h₂.addEntry hr [46, 46] (by decide) (by omega)).returns
    ⟨by decide, by omega⟩
  have hfree : m₃.freeblock = nmeta sb + blocksFor (DESIZE * (0 + 1 + 1)) := by omega
  have hH : Holds [] m₃ := by
    refine ⟨?_, nofun⟩
    rw [g₃.content_self, g₂.content_self, hzero, dirBytes_blit, dirBytes_blit]
    exact congrArg dirBytes rootEntry_nil
  refine ⟨m₃, ?_, h₃, hH, by omega, hfree⟩
  rw [start, if_neg (by decide)]
  have hm₁' : ialloc m₀ T_DIR = some (m₁, ROOTINO) := hm₁
  have hne : ¬ ROOTINO ≠ ROOTINO := fun h => h rfl
  simp only [Option.bind_eq_bind]
  show (ialloc m₀ T_DIR).bind _ = _
  simp only [hm₁', Option.bind_some, if_neg hne, hm₂]
  exact hm₃

/-! ### The bitmap -/

theorem getBit_bitmap (used b : ℕ) : (bitmap used).getBit b = decide (b < used) := by
  induction used with
  | zero => simp [bitmap]
  | succ used ih =>
      rw [bitmap, List.range_succ, List.foldl_append]
      show ((bitmap used).setBit used).getBit b = _
      rw [getBit_setBit, ih]
      by_cases hb : b = used
      · simp [hb]
      · rw [if_neg hb, decide_eq_decide]
        omega

/-- An image of `mkfs` for `files`. -/
structure Image (files : List HostFile) (m : Img) : Prop where
  counted : Counted m (dinode m.disk)
  bits : ∀ b < Mkfs.size, bit m.disk ninodes b = decide (b < m.freeblock)
  dirs : DirOk m.disk sb (dinode m.disk)
  root : (dinode m.disk ROOTINO).type = T_DIR
  root_size : (dinode m.disk ROOTINO).size.toNat
    = (DESIZE * (2 + files.length) / BSIZE + 1) * BSIZE
  root_blocks : Sized m.disk (dinode m.disk) ROOTINO (DESIZE * (2 + files.length))
  freeblock : m.freeblock = nmeta sb + dataBlocks 2 files

/-- Every inode but the root has the blocks its size says. -/
def Filled (m : Img) : Prop := ∀ i < ninodes, i ≠ ROOTINO → (dinode m.disk i).type ≠ 0 →
  Sized m.disk (dinode m.disk) i (dinode m.disk i).size.toNat

/-- The end of `mkfs`. -/
theorem Built.finish (h : Built (2 + files.length) m) (hH : Holds files m)
    (hlen : files.length + 2 ≤ ninodes) (hfb : m.freeblock = nmeta sb + dataBlocks 2 files)
    (hroom : m.freeblock < BSIZE * 8) :
    ∃ m', finish m = some m' ∧ Image files m' ∧ Holds files m' ∧ Filled m' := by
  have hr : ROOTINO < ninodes := by decide
  set off := (DESIZE * (2 + files.length) / BSIZE + 1) * BSIZE with hoff
  have hoff' : (UInt32.ofNat off).toNat = off := by
    refine UInt32.toNat_ofNat_of_lt' ?_
    simp only [hoff, DESIZE, BSIZE, ninodes, UInt32.size] at hlen ⊢
    omega
  obtain ⟨m₁, hm₁, w⟩ := winode_spec
    (n := { dinode m.disk ROOTINO with size := UInt32.ofNat off }) h.counted hr
    (fun _ _ _ => rfl) (refs_update_same rfl rfl)
  set d' := update m₁.disk (ninodes / IPB + 3) (bitmap m₁.usedblocks) with hd'
  have hblk : ninodes / IPB + 3 < nmeta sb := by decide
  have hdin : ∀ j < ninodes, dinode d' j = dinode m₁.disk j := fun j hj => by
    have hlt : IBLOCK j < BBLOCK 0 sb.ninodes := iblock_lt_bblock hj
    exact dinode_update_block hlt.ne
  have hdata : ∀ b, nmeta sb ≤ b → d' b = m₁.disk b := fun b hb =>
    update_of_ne (hblk.trans_le hb).ne' _ _
  have hrefs : refs d' sb (dinode d') = refs m₁.disk sb (dinode m₁.disk) := by
    rw [refs_congr_table hdin]
    exact refs_congr fun j x hx => hdata x (w.counted.ref_data hx).1
  have hcontent : ∀ j, content d' (refs d' sb (dinode d')) j
      = content m.disk (refs m.disk sb (dinode m.disk)) j := by
    intro j
    rw [hrefs, content_congr (fun p b hp => hdata b (w.counted.ref_data hp).1), w.content_eq]
  refine ⟨wsect m₁ (ninodes / IPB + 3) (bitmap m₁.usedblocks), ?_,
    ⟨⟨?_, w.counted.used, w.counted.low, ?_, ?_⟩, ?_, ?_, ?_, ?_, ?_, ?_⟩,
    ⟨(hcontent _).trans hH.root, fun e f he => ?_⟩, fun i hi hne ht => ?_⟩
  · have hlt : IBLOCK ROOTINO < Mkfs.size := by decide
    rw [Mkfs.finish, rinode, rsect, if_pos hlt]
    simp only [Option.bind_eq_bind, Option.bind_some, Option.pure_def]
    show (winode m ROOTINO { dinode m.disk ROOTINO with
      size := UInt32.ofNat (((dinode m.disk ROOTINO).size.toNat / BSIZE + 1) * BSIZE) }).bind balloc
        = _
    rw [h.root_size, ← hoff, hm₁, Option.bind_some, balloc, if_pos]
    rw [w.counted.used, w.freeblock]
    exact hroom
  · exact (superblock_update (by decide)).trans w.counted.super
  · show Owns (refs d' sb (dinode d')) _ _
    rw [hrefs]
    exact w.counted.owns
  · exact fun b hb => (hdata b (w.counted.low.trans hb)).trans (w.counted.zero b hb)
  · intro b hb
    have hb' : b < 1024 := hb
    have hbb : BBLOCK b ninodes = ninodes / IPB + 3 := by
      simp only [BBLOCK, BPB, BSIZE]
      omega
    have hmod : b % BPB = b := Nat.mod_eq_of_lt (hb'.trans (by decide))
    show bit d' ninodes b = decide (b < m₁.freeblock)
    rw [bit, hbb, hd', update_self, getBit_bitmap, hmod, w.counted.used]
  · intro i hi ht e _
    show (content d' (refs d' sb (dinode d')) i).get16 (DESIZE * e) < ninodes
    have hroot : i = ROOTINO := by
      have ht' : (dinode d' i).type = T_DIR := ht
      rw [hdin i hi] at ht'
      by_contra hne
      rw [w.other i hne] at ht'
      exact hne (h.dir i hi ht')
    rw [hroot, hcontent]
    exact h.entries e
  · show (dinode d' ROOTINO).type = T_DIR
    rw [hdin _ hr, w.self]
    exact h.root
  · show (dinode d' ROOTINO).size.toNat = off
    rw [hdin _ hr, w.self]
    exact hoff'
  · have hs := h.sized _ hr (by rw [h.root]; decide)
    rw [h.root_size] at hs
    exact hs.congr fun p => (congrFun hrefs _).trans (congrFun w.refs_eq _)
  · exact w.freeblock.trans hfb
  · have hlt : e < files.length := (List.getElem?_eq_some_iff.mp he).1
    refine (hH.file e f he).congr ((hdin _ (by omega)).trans (w.other _ ?_)) (hcontent _)
    have : ROOTINO = 1 := rfl
    omega
  · have hd : dinode d' i = dinode m.disk i := (hdin i hi).trans (w.other i hne)
    show Sized d' (dinode d') i (dinode d' i).size.toNat
    have ht' : (dinode m.disk i).type ≠ 0 := fun h0 => ht ((congrArg Dinode.type hd).trans h0)
    rw [hd]
    exact (h.sized i hi ht').congr fun p => (congrFun hrefs _).trans (congrFun w.refs_eq _)

theorem slash_notMem_of_addFiles {files : List HostFile} {m m' : Img}
    (h : files.foldlM addFile m = some m') : ∀ f ∈ files, slash ∉ f.name := by
  induction files generalizing m with
  | nil => exact nofun
  | cons f files ih =>
      rw [List.foldlM_cons] at h
      obtain ⟨m₁, hm₁, h⟩ := Option.bind_eq_some_iff.mp h
      intro g hg
      rcases List.mem_cons.mp hg with rfl | hg
      · intro hslash
        rw [addFile, if_pos hslash] at hm₁
        cases hm₁
      · exact ih h g hg

/-- `mkfs` returns if the blocks of the files are within the image. -/
theorem mkfs_image (hname : ∀ f ∈ files, slash ∉ f.name) (hinodes : files.length + 2 ≤ ninodes) :
    IfRoom ((∀ f ∈ files, f.size ≤ MAXFILE * BSIZE) ∧ nmeta sb + dataBlocks 2 files ≤ Mkfs.size)
      (mkfs files) fun m => Image files m ∧ Holds files m ∧ Filled m := by
  have hsize : Mkfs.size < BSIZE * 8 := by decide
  have hstart : nmeta sb + blocksFor (DESIZE * 2) ≤ Mkfs.size := by decide
  obtain ⟨m₀, hm₀, h₀, hH₀, hfi₀, hfb₀⟩ := start_spec
  have hall := @Built.addFiles files [] m₀ h₀ hH₀ hfi₀ (by rw [List.length_nil]; omega) (by omega)
    hname
  rw [List.length_nil, Nat.add_zero] at hall
  rw [mkfs, hm₀]
  refine hall.bind (fun hr => ⟨hr.1, by omega⟩) fun hroom m₁ ⟨h₁, hH₁, hfb₁⟩ => ?_
  obtain ⟨m, hm, him⟩ := h₁.finish hH₁ hinodes (by omega) (by omega)
  rw [hm]
  exact .intro ⟨hroom.1, by omega⟩ him

/-- **`mkfs` makes an image** of every list of files that fits. -/
theorem mkfs_spec (h : Fits files) :
    ∃ m, mkfs files = some m ∧ Image files m ∧ Holds files m ∧ Filled m := by
  have hmeta : nmeta sb + nblocks + LOGSIZE = Mkfs.size := by decide
  have hblocks := h.blocks
  exact (mkfs_image h.name h.inodes).returns ⟨h.size, by omega⟩

end Program

end Nunix.Fs.Mkfs
