/-
Nunix/Fs/DirMap.lean

A directory is a finite map from names to inode numbers (`dirlookup` and `dirlink`, and the
clearing of an entry in `sys_unlink`).

A name is what counts of a string: its first DIRSIZ bytes.  The map of a directory is
`Node.find`, the first entry in use with the name.  `Node.put` of a vacant entry extends the
map at one name, and clearing an entry removes one, because no name is there twice.
`dirlookup` computes the map in every state whose blocks are accounted for, whatever inode
numbers the entries have; it can fail only where `iget` finds the inode cache full.
-/
import Nunix.Fs.Paths
import Nunix.Fs.Sys

namespace Nunix.Fs

open Bytes Hoare Runs

/-! ### Lists of entries -/

section Slots

variable {name : List UInt8} {e v : ℕ} {xs : List Slot} {y : Slot}

theorem findFrom_of_none (h : ∀ x ∈ xs, x.1 ≠ 0 → x.2 ≠ name) : findFrom name e xs = none := by
  induction xs generalizing e with
  | nil => rfl
  | cons x xs ih =>
      rw [findFrom, if_neg fun hx => h x List.mem_cons_self hx.1 hx.2]
      exact ih fun x hx => h x (List.mem_cons_of_mem _ hx)

/-- An entry with another name takes the place of an entry with another name. -/
theorem findFrom_set (hold : ∀ x, xs[v]? = some x → x.1 ≠ 0 → x.2 ≠ name)
    (hy : y.1 ≠ 0 → y.2 ≠ name) : findFrom name e (xs.set v y) = findFrom name e xs := by
  induction xs generalizing e v with
  | nil => rfl
  | cons x xs ih =>
      cases v with
      | zero =>
          have hx := hold x rfl
          rw [List.set_cons_zero, findFrom, findFrom, if_neg fun h => hy h.1 h.2,
            if_neg fun h => hx h.1 h.2]
      | succ v =>
          rw [List.set_cons_succ, findFrom, findFrom, ih fun x hx => hold x hx]

theorem findFrom_set_self (hnone : findFrom name e xs = none) (hv : v < xs.length) (h0 : y.1 ≠ 0)
    (hy : y.2 = name) : findFrom name e (xs.set v y) = some (y.1, e + v) := by
  induction xs generalizing e v with
  | nil => cases hv
  | cons x xs ih =>
      rw [findFrom] at hnone
      split_ifs at hnone with hx
      cases v with
      | zero => rw [List.set_cons_zero, findFrom, if_pos ⟨h0, hy⟩, Nat.add_zero]
      | succ v =>
          rw [List.set_cons_succ, findFrom, if_neg hx, ih hnone (Nat.lt_of_succ_lt_succ hv)]
          congr 2
          omega

theorem findFrom_append : findFrom name e (xs ++ [y]) = (findFrom name e xs).or
    (if y.1 ≠ 0 ∧ y.2 = name then some (y.1, e + xs.length) else none) := by
  induction xs generalizing e with
  | nil => simp [findFrom]
  | cons x xs ih =>
      rw [List.cons_append, findFrom, findFrom, ih, List.length_cons, Nat.add_assoc, Nat.add_comm 1]
      by_cases hx : x.1 ≠ 0 ∧ x.2 = name
      · rw [if_pos hx, if_pos hx, Option.some_or]
      · rw [if_neg hx, if_neg hx]

/-- The entries before the vacant one are in use. -/
theorem vacantFrom_used : ∀ m < vacantFrom e xs - e, ∃ x, xs[m]? = some x ∧ x.1 ≠ 0 := by
  induction xs generalizing e with
  | nil =>
      intro m hm
      rw [vacantFrom, Nat.sub_self] at hm
      cases hm
  | cons x xs ih =>
      intro m hm
      rw [vacantFrom] at hm
      split_ifs at hm with hx
      · omega
      · cases m with
        | zero => exact ⟨x, rfl, hx⟩
        | succ m => exact ih (e := e + 1) m (by omega)

end Slots

/-- No two entries in use have one name. -/
def Node.Distinct (n : Node) : Prop :=
  ∀ (e e' : ℕ) (x x' : Slot), n.slots[e]? = some x → n.slots[e']? = some x' → x.1 ≠ 0 → x'.1 ≠ 0 →
    x.2 = x'.2 → e = e'

section Map

variable {n : Node} {name nm : List UInt8} {v j e : ℕ} {y : Slot}

theorem Node.find_put
    (hold : ∀ x, n.slots[v]? = some x → x.1 ≠ 0 → x.2 ≠ nm.take DIRSIZ)
    (hy : y.1 ≠ 0 → y.2 ≠ nm.take DIRSIZ) : (n.put v y).find nm = n.find nm := by
  unfold Node.put Node.find
  split_ifs with hlt
  · exact findFrom_set hold hy
  · rw [findFrom_append, if_neg fun h => hy h.1 h.2, Option.or_none]

theorem Node.find_put_self (hnone : n.find nm = none) (hv : v ≤ n.slots.length) (h0 : y.1 ≠ 0)
    (hy : y.2 = nm.take DIRSIZ) : (n.put v y).find nm = some (y.1, v) := by
  unfold Node.find at hnone
  unfold Node.put Node.find
  split_ifs with hlt
  · rw [findFrom_set_self hnone hlt h0 hy, Nat.zero_add]
  · rw [findFrom_append, hnone, if_pos ⟨h0, hy⟩, Option.none_or, Nat.zero_add,
      show v = n.slots.length by omega]

/-- **An entry is added**: the map is extended at its name. -/
theorem Node.find_add (hnone : n.find name = none) (hj : j ≠ 0) :
    (n.put n.vacant (j, name.take DIRSIZ)).find nm =
      if nm.take DIRSIZ = name.take DIRSIZ then some (j, n.vacant) else n.find nm := by
  split_ifs with hnm
  · refine Node.find_put_self ?_ Node.vacant_le hj hnm.symm
    rwa [Node.find, hnm]
  · exact Node.find_put (fun x hx h0 => absurd (Node.vacant_empty hx) h0)
      fun _ h => hnm h.symm

/-- **An entry is cleared**: its name is gone. -/
theorem Node.find_clear (hd : n.Distinct) (h : n.find name = some (j, e)) :
    (n.put e (0, [])).find nm =
      if nm.take DIRSIZ = name.take DIRSIZ then none else n.find nm := by
  obtain ⟨hget, hj⟩ := Node.find_eq_some h
  obtain ⟨hlt, -⟩ := List.getElem?_eq_some_iff.mp hget
  split_ifs with hnm
  · -- every other entry has another name
    unfold Node.put Node.find
    rw [if_pos hlt, hnm]
    refine findFrom_of_none fun x hx h0 hname => ?_
    obtain ⟨m, hm⟩ := List.getElem?_of_mem hx
    rw [List.getElem?_set] at hm
    split_ifs at hm with hem
    · obtain rfl := Option.some.inj hm
      exact h0 rfl
    · exact hem (hd e m _ x hget hm hj h0 hname.symm)
  · refine Node.find_put (fun x hx _ => ?_) fun h0 => absurd rfl h0
    obtain rfl := Option.some.inj (hget.symm.trans hx)
    exact fun h => hnm h.symm

end Map

/-! ### Directories in the cache -/

/-- The directory `i` is in cache entry `dp`; the blocks of the disk are accounted for. -/
structure Directory (s : FsSt) (dp i : ℕ) : Prop where
  formed : Formed s
  loaded : Loaded s dp i
  type : (dinode s.disk i).type = T_DIR
  size : DESIZE ∣ (dinode s.disk i).size.toNat

/-- What `dirlookup` finds, with the offset of the entry. -/
def lookup (d : Disk) (i : ℕ) (name : List UInt8) : Option (ℕ × ℕ) :=
  ((names d i).find name).map fun p => (p.1, DESIZE * p.2)

/-- `dirlookup` finds `r`, an inode number and an offset, and leaves the disk alone.  It stops
only if the name is there and no entry of the inode cache is free. -/
def Yields (s : FsSt) (dp : ℕ) (name : List UInt8) (r : Option (ℕ × ℕ)) : Prop :=
  Wp (dirlookup dp name)
    (fun x s' => x.map (fun p => ((s'.icache p.1).inum, p.2)) = r ∧ s'.disk = s.disk)
    (fun e _ => e = .panic .igetNoInodes ∧ r ≠ none) s

section Directory

variable {s : FsSt} {dp i e : ℕ}

theorem iget_inum (s : FsSt) (j : ℕ) : Wp (iget j) (fun k s' => (s'.icache k).inum = j ∧
    s'.disk = s.disk) (fun e _ => e = .panic .igetNoInodes) s := by
  refine wp_iget (fun k _ hinum => ?_) (fun k _ _ _ => ?_) fun _ _ => rfl
  · rw [setSlot_self]
    exact ⟨hinum, rfl⟩
  · rw [setSlot_self]
    exact ⟨rfl, rfl⟩

/-- An inode that was just looked up is let go: nothing in use has changed. -/
theorem iget_iput (s : FsSt) (j : ℕ) : Wp (iget j) (fun k => Wp (iput k) (fun _ s' =>
    s'.disk = s.disk ∧ ∀ l, 0 < (s.icache l).ref → s'.icache l = s.icache l) fun _ _ => False)
      (fun e _ => e = .panic .igetNoInodes) s := by
  refine wp_iget (fun k hk _ => ?_) (fun k _ hk _ => ?_) fun _ _ => rfl
  · -- the entry has another reference
    simp only [iput, wp_bind, wp_modifySlot, wp_pure, wp_note, wp_slot, wp_ite, FsSt.note,
      setSlot_self]
    refine ⟨fun hlast => absurd hlast.1 (by omega), fun _ => ⟨rfl, fun l _ => ?_⟩⟩
    by_cases hl : l = k
    · subst hl
      simp
    · rw [setSlot_of_ne hl]
      exact setSlot_of_ne hl _
  · -- the entry was free, and has not been read
    simp only [iput, wp_bind, wp_modifySlot, wp_pure, wp_note, wp_slot, wp_ite, FsSt.note,
      setSlot_self]
    refine ⟨fun hlast => absurd hlast.2.1 (by simp), fun _ => ⟨rfl, fun l hl => ?_⟩⟩
    have hlk : l ≠ k := by
      rintro rfl
      omega
    simp [FsSt.setSlot, hlk]

namespace Directory

variable (h : Directory s dp i)

include h

theorem node : names s.disk i =
    nodeOf (dinode s.disk i) (content s.disk (diskRefs s.disk) i) :=
  if_pos (h.formed.core.inum_lt h.loaded)

theorem node_size : (names s.disk i).size = (dinode s.disk i).size.toNat ∧
    (dinode s.disk i).size.toNat = DESIZE * (names s.disk i).slots.length := by
  rw [h.node, nodeOf, if_pos h.type, length_slotsOf]
  exact ⟨rfl, (Nat.mul_div_cancel' h.size).symm⟩

theorem reads : Reads s dp (names s.disk i).slots := by
  rw [h.node, nodeOf, if_pos h.type]
  exact h.formed.core.reads h.formed.strict h.loaded h.type

theorem slot_size : (s.icache dp).type = T_DIR ∧
    (s.icache dp).size.toNat = DESIZE * (names s.disk i).slots.length := by
  have heq := h.formed.core.inode_eq h.loaded
  rw [← h.node_size.2, ← h.type, ← heq]
  exact ⟨rfl, rfl⟩

/-- `dirlookup` computes the map. -/
theorem yields (name : List UInt8) : Yields s dp name (lookup s.disk i name) := by
  unfold Yields dirlookup lookup
  simp only [wp_bind, wp_slot, wp_ite, h.slot_size]
  refine ⟨fun hbad => absurd rfl hbad, fun _ => h.reads.dirlookupLoop name _ 0 (Nat.zero_le _) rfl ?_⟩
  rw [List.drop_zero, ← Node.find]
  rcases (names s.disk i).find name with - | ⟨j, e'⟩
  · exact ⟨rfl, rfl⟩
  · refine (iget_inum s j).mono ?_ fun _ _ he => ⟨he, by simp⟩
    rintro k s' ⟨rfl, hd⟩
    exact ⟨rfl, hd⟩

/-- Writing an entry, or one at the end. -/
theorem write (he : e ≤ (names s.disk i).slots.length) (de : Bytes) :
    Wp (writei dp de (DESIZE * e) DESIZE) (fun r s' =>
      r = -1 ∧ e = (names s.disk i).slots.length ∨ r = DESIZE ∧ Directory s' dp i ∧
        names s'.disk i = (names s.disk i).put e (deInum de, deName de))
      (fun x _ => x = .panic .outOfBlocks ∧ e = (names s.disk i).slots.length) s := by
  have hc := h.formed.core
  have hs := h.formed.strict
  have hi := hc.inum_lt h.loaded
  have hsize := h.node_size.2
  have hmax := hs.size_le hi (hc.type_ne h.loaded)
  have hMAX : MAXFILE * BSIZE = 71680 := rfl
  have hdiv : (names s.disk i).slots.length = (dinode s.disk i).size.toNat / DESIZE := by
    rw [h.node, nodeOf, if_pos h.type, length_slotsOf]
  refine ((writei_core_spec hc h.loaded de (DESIZE * e) (by decide)).and
    (writei_exits hc hs h.loaded de (by decide))).mono ?_ ?_
  · rintro r s' ⟨⟨V', hc', hss, -, hst, ⟨-, hdev | ⟨rfl, hbad⟩⟩ | ⟨rfl, w⟩⟩, -⟩
    · rw [h.type] at hdev
      cases hdev
    · refine Or.inl ⟨rfl, ?_⟩
      simp only [DESIZE] at *
      omega
    · have hs' := hst hs
      have hclean : dinode s'.disk i = V' i := hs'.clean i hi
      refine Or.inr ⟨rfl, ⟨hc'.formed hs', hss.loaded h.loaded, ?_, ?_⟩, ?_⟩
      · rw [hclean, w.inode]
        exact h.type
      · rw [hclean, w.size, hsize]
        rcases max_cases (DESIZE * (names s.disk i).slots.length) (DESIZE * e + DESIZE) with hm | hm <;>
          rw [hm.1]
        · exact dvd_mul_right ..
        · exact Dvd.dvd.add (dvd_mul_right ..) dvd_rfl
      · have hnode : names s'.disk i
            = nodeOf (V' i) (content s'.disk (refs s'.disk (superblock s.disk) V') i) := by
          rw [names, hc'.super, hc'.diskRefs_eq hs', hclean]
          exact if_pos hi
        rw [hnode, w.content_self, h.node]
        exact nodeOf_put h.type w.inode (hsize.trans (by rw [hdiv])) (hdiv ▸ he) w.size
  · rintro x s' ⟨-, rfl, hgrow⟩
    refine ⟨rfl, ?_⟩
    rw [hsize] at hgrow
    simp only [DESIZE] at *
    omega

/-- The reasons for which `dirlink` stops: the name is there and no entry of the inode cache
is free, or the directory is full and cannot grow. -/
def Stuck (s : FsSt) (i : ℕ) (name : List UInt8) (e : Halt) : Prop :=
  e = .panic .igetNoInodes ∧ lookup s.disk i name ≠ none ∨
    (e = .panic .outOfBlocks ∨ e = .panic .dirlink) ∧ lookup s.disk i name = none ∧
      (names s.disk i).vacant = (names s.disk i).slots.length

/-- `dirlink` adds an entry, unless the name is there. -/
theorem dirlink (name : CStr) {inum : ℕ} (h16 : inum < 2 ^ 16) :
    Wp (Fs.dirlink dp name.bytes inum) (fun r s' =>
      r = -1 ∧ lookup s.disk i name.bytes ≠ none ∧ s'.disk = s.disk ∧ s'.icache dp = s.icache dp ∨
      r = 0 ∧ lookup s.disk i name.bytes = none ∧ Directory s' dp i ∧
        names s'.disk i = (names s.disk i).put (names s.disk i).vacant
          (inum, name.bytes.take DIRSIZ))
      (fun e _ => Stuck s i name.bytes e) s := by
  unfold Fs.dirlink dirlookup lookup Stuck lookup
  simp only [wp_bind, wp_slot, wp_ite, h.slot_size]
  refine ⟨fun hbad => absurd rfl hbad, fun _ => h.reads.dirlookupLoop _ _ 0 (Nat.zero_le _) rfl ?_⟩
  rw [List.drop_zero, ← Node.find]
  rcases (names s.disk i).find name.bytes with - | ⟨j, e'⟩
  · -- the name is new
    simp only [wp_bind, wp_slot, h.slot_size]
    refine (h.reads.emptyLoop _ 0 (Nat.zero_le _) rfl).imp ?_
    rintro off s₁ ⟨rfl, rfl⟩
    rw [List.drop_zero, ← Node.vacant]
    refine wp_bind.mpr ((h.write Node.vacant_le _).mono ?_ ?_)
    · rintro r s' (⟨rfl, hfull⟩ | ⟨rfl, hdir, hput⟩)
      · exact wp_ite.mpr ⟨fun _ => Or.inr ⟨Or.inr rfl, rfl, hfull⟩, fun hbad => absurd hbad (by decide)⟩
      · refine wp_ite.mpr ⟨fun hbad => absurd rfl hbad, fun _ => Or.inr ⟨rfl, rfl, hdir, ?_⟩⟩
        rw [hput, deInum_dirent h16, deName_dirent]
        congr 2
        exact takeWhile_ne_zero fun h0 => name.noNul (List.mem_of_mem_take h0)
    · rintro e s' ⟨rfl, hfull⟩
      exact Or.inr ⟨Or.inl rfl, rfl, hfull⟩
  · -- it is there already
    refine (iget_iput s j).mono ?_ fun _ _ he => Or.inl ⟨he, nofun⟩
    intro k s₁ hput
    refine wp_bind.mpr (hput.mono ?_ fun _ _ he => he.elim)
    rintro - s' ⟨hd, hsame⟩
    exact Or.inl ⟨rfl, nofun, hd, hsame dp h.loaded.ref⟩

end Directory

/-- **Directories are finite maps.**  Let the directory `i` be in cache entry `dp`: any mix of
entries, no name twice.  `dirlookup` computes its map (`lookup`).  `dirlink` returns -1 exactly
if the name is in the map, and then changes nothing; else it returns 0, the map is extended at
this name only, in the first vacant entry or in one appended.  Clearing the entry `dirlookup`
has found removes its name from the map and no other. -/
theorem directory_finite_map (h : Directory s dp i) (hd : (names s.disk i).Distinct) (name : CStr)
    {inum : ℕ} (h0 : inum ≠ 0) (h16 : inum < 2 ^ 16) :
    (∀ nm : CStr, Yields s dp nm.bytes (lookup s.disk i nm.bytes)) ∧
    Wp (dirlink dp name.bytes inum) (fun r s' =>
      (r = -1 ∧ lookup s.disk i name.bytes ≠ none ∧ s'.disk = s.disk ∧
          s'.icache dp = s.icache dp) ∨
      (r = 0 ∧ lookup s.disk i name.bytes = none ∧
        (∀ nm : CStr, Yields s' dp nm.bytes
          (if nm.bytes.take DIRSIZ = name.bytes.take DIRSIZ
            then some (inum, DESIZE * (names s.disk i).vacant) else lookup s.disk i nm.bytes)) ∧
        (∀ e < (names s.disk i).vacant, ∃ x, (names s.disk i).slots[e]? = some x ∧ x.1 ≠ 0) ∧
        ((∃ x, (names s.disk i).slots[(names s.disk i).vacant]? = some x ∧ x.1 = 0 ∧
            (dinode s'.disk i).size = (dinode s.disk i).size) ∨
          (names s.disk i).vacant = (names s.disk i).slots.length ∧
            (dinode s'.disk i).size.toNat = (dinode s.disk i).size.toNat + DESIZE)))
      (fun e _ => Directory.Stuck s i name.bytes e) s ∧
    ∀ j off, lookup s.disk i name.bytes = some (j, off) →
      Wp (writei dp Bytes.zero off DESIZE) (fun r s' => r = DESIZE ∧ ∀ nm : CStr, Yields s' dp nm.bytes
        (if nm.bytes.take DIRSIZ = name.bytes.take DIRSIZ then none else lookup s.disk i nm.bytes))
        (fun _ _ => False) s := by
  refine ⟨fun nm => h.yields nm.bytes, (h.dirlink name h16).imp ?_, fun j off hfind => ?_⟩
  · rintro r s' (hthere | ⟨rfl, hnone, hdir, hput⟩)
    · exact Or.inl hthere
    refine Or.inr ⟨rfl, hnone, fun nm => ?_, vacantFrom_used (e := 0), ?_⟩
    · have hy := hdir.yields nm.bytes
      rw [lookup, hput, Node.find_add (Option.map_eq_none_iff.mp hnone) h0] at hy
      split_ifs at hy ⊢
      · exact hy
      · exact hy
    · -- the size is that of the entries
      have hsize := h.node_size
      have hsize' := hdir.node_size
      rw [hput] at hsize'
      unfold Node.put at hsize'
      split_ifs at hsize' with hlt
      · refine Or.inl ⟨_, List.getElem?_eq_getElem hlt, Node.vacant_empty (List.getElem?_eq_getElem hlt), ?_⟩
        exact UInt32.toNat_inj.mp (hsize'.1.symm.trans hsize.1)
      · refine Or.inr ⟨?_, by rw [← hsize'.1, ← hsize.1]⟩
        have := Node.vacant_le (n := names s.disk i)
        omega
  · obtain ⟨⟨j', e'⟩, hf, hp⟩ := Option.map_eq_some_iff.mp hfind
    obtain ⟨rfl, rfl⟩ := Prod.mk.inj hp
    obtain ⟨hlt, -⟩ := List.getElem?_eq_some_iff.mp (Node.find_eq_some hf).1
    refine (h.write hlt.le Bytes.zero).mono ?_ ?_
    · rintro r s' (⟨-, hfull⟩ | ⟨rfl, hdir, hput⟩)
      · omega
      refine ⟨rfl, fun nm => ?_⟩
      have hy := hdir.yields nm.bytes
      rw [lookup, hput, show (deInum Bytes.zero, deName Bytes.zero) = ((0, []) : Slot) from rfl,
        Node.find_clear hd hf] at hy
      split_ifs at hy ⊢
      · exact hy
      · exact hy
    · rintro x s' ⟨-, hfull⟩
      omega

end Directory

/-- The name "c" is entered in the root directory of the small disk, after "a" and "b". -/
theorem rootDir_map : ∃ t : FsSt × List ℕ,
    run fsStep (tiny 1, []) [.create [98] T_FILE 0 0] = some t ∧
      ∃ s', dirlink 0 [99] 7 t.1 = .ok 0 s' ∧ Yields s' 0 [99] (some (7, 32)) ∧
        Yields s' 0 [98] (some (2, 16)) ∧ Yields s' 0 [100] none := by
  have hev : (run fsStep (tiny 1, []) [.create [98] T_FILE 0 0]).map (fun t : FsSt × List ℕ =>
      decide ((0 < (t.1.icache 0).ref ∧ (t.1.icache 0).valid = true ∧ (t.1.icache 0).inum = 1) ∧
        (dinode t.1.disk 1).type = T_DIR ∧ (dinode t.1.disk 1).size = 32 ∧
        (names t.1.disk 1).slots = [(1, [97]), (2, [98])]) &&
        match dirlink 0 [99] 7 t.1 with
        | .ok r _ => r == 0
        | .error _ _ => false)
      = some true := by
    decide +kernel
  obtain ⟨t, ht, hdata⟩ := Option.map_eq_some_iff.mp hev
  simp only [Bool.and_eq_true, decide_eq_true_eq] at hdata
  obtain ⟨⟨hloaded, htype, hsize, hslots⟩, hlink⟩ := hdata
  obtain ⟨V, hI⟩ := (good_run ⟨⟨_, tiny_wellFormed.inv⟩, mounted_refs⟩ ht).inv
  have hdir : Directory t.1 0 1 :=
    ⟨hI.wellFormed.formed, ⟨hloaded.1, hloaded.2.1, hloaded.2.2⟩, htype, by rw [hsize]; decide⟩
  have hdist : (names t.1.disk 1).Distinct := by
    intro e e' x x' hx hx' _ _ hname
    rw [hslots] at hx hx'
    rcases e with - | - | e <;> rcases e' with - | - | e' <;>
      simp only [List.getElem?_cons_succ, List.getElem?_cons_zero, List.getElem?_nil,
        Option.some.injEq, reduceCtorEq] at hx hx' <;> subst hx hx' <;>
        first | rfl | exact absurd hname (by decide)
  have hlookup : ∀ nm, lookup t.1.disk 1 nm =
      (findFrom (nm.take DIRSIZ) 0 [(1, [97]), (2, [98])]).map fun p => (p.1, DESIZE * p.2) := by
    intro nm
    rw [lookup, Node.find, hslots]
  have hmap := (@directory_finite_map t.1 0 1 hdir hdist ⟨[99], by decide⟩ 7 (by decide)
    (by decide)).2.1
  rcases e : dirlink 0 [99] 7 t.1 with ⟨r, s'⟩ | ⟨x, s'⟩ <;> rw [e] at hlink
  · obtain rfl := beq_iff_eq.mp hlink
    rcases hmap.of_ok e with ⟨hbad, -⟩ | ⟨-, -, hall, -⟩
    · cases hbad
    have hvac : (names t.1.disk 1).vacant = 2 := by
      rw [Node.vacant, hslots]
      rfl
    rw [hvac] at hall
    simp only [hlookup] at hall
    exact ⟨t, ht, s', e, hall ⟨[99], by decide⟩, hall ⟨[98], by decide⟩, hall ⟨[100], by decide⟩⟩
  · cases hlink

end Nunix.Fs
