/-
Nunix/Fs/Names.lean

The namespace on a disk.

`names d` is what the directories of disk `d` say: for every inode its type and link
count, and for a directory its size and its entries.  The first part reads it off the
disk; the second gives the operations of directories and paths their meaning on it:
looking a name up (`find`), the entry `dirlink` fills (`vacant`), and following a path
(`resolve`).  The last part says what the calls do to the nodes.
-/
import Nunix.Fs.WellFormed

namespace Nunix.Fs

open Bytes Hoare
open Function (update update_of_ne update_self)

/-! ### Nodes -/

/-- An entry of a directory: an inode number, 0 if the entry is not in use, and a
name. -/
abbrev Slot := ℕ × List UInt8

/-- What the namespace knows of an inode. -/
structure Node where
  type : Int16
  nlink : Int16
  size : ℕ
  slots : List Slot
  deriving DecidableEq

/-- An inode that was freed. -/
def Node.free : Node := ⟨0, 0, 0, []⟩

/-- The nodes by inode number. -/
abbrev Names := ℕ → Node

/-- Entry `e` of a directory with content `c`. -/
def slotAt (c : Bytes) (e : ℕ) : Slot := (c.get16 (DESIZE * e), deName (c.drop (DESIZE * e)))

/-- The entries of a directory of `size` bytes. -/
def slotsOf (c : Bytes) (size : ℕ) : List Slot := (List.range (size / DESIZE)).map (slotAt c)

/-- The node of inode `n` with content `c`. -/
def nodeOf (n : Dinode) (c : Bytes) : Node :=
  if n.type = T_DIR then ⟨n.type, n.nlink, n.size.toNat, slotsOf c n.size.toNat⟩
  else ⟨n.type, n.nlink, 0, []⟩

/-- The namespace on disk `d`. -/
def names (d : Disk) : Names := fun i =>
  if i < (superblock d).ninodes then nodeOf (dinode d i) (content d (diskRefs d) i) else .free

section Slots

variable {b c de : Bytes} {e e' size : ℕ}

theorem deName_congr (h : ∀ a < DIRSIZ, b (2 + a) = c (2 + a)) : deName b = deName c := by
  unfold deName
  congr 1
  exact List.map_congr_left fun a ha => h a (List.mem_range.mp ha)

theorem slotAt_congr (h : ∀ a < DESIZE, b (DESIZE * e + a) = c (DESIZE * e + a)) :
    slotAt b e = slotAt c e := by
  refine Prod.ext ?_ ?_
  · exact get16_congr fun a ha => h a (ha.trans (by decide))
  · refine deName_congr fun a ha => h (2 + a) ?_
    simp only [DIRSIZ, DESIZE] at *
    omega

theorem slotAt_blit_self : slotAt (c.blit (DESIZE * e) DESIZE de) e = (deInum de, deName de) := by
  have hbyte : ∀ a < DESIZE, c.blit (DESIZE * e) DESIZE de (DESIZE * e + a) = de a := by
    intro a ha
    rw [blit_apply_of_mem (by omega) (by omega)]
    congr 1
    omega
  refine Prod.ext ?_ ?_
  · refine get16_congr fun a ha => ?_
    rw [hbyte a (ha.trans (by decide)), Nat.zero_add]
  · refine deName_congr fun a ha => hbyte (2 + a) ?_
    simp only [DIRSIZ, DESIZE] at *
    omega

theorem slotAt_blit_of_ne (h : e' ≠ e) : slotAt (c.blit (DESIZE * e) DESIZE de) e' = slotAt c e' := by
  refine slotAt_congr fun a ha => blit_apply_of_notMem ?_
  simp only [DESIZE] at *
  omega

/-- Entry `e`, read into a buffer. -/
theorem slotAt_read : (deInum (Bytes.zero.blit 0 DESIZE (c.drop (DESIZE * e))),
    deName (Bytes.zero.blit 0 DESIZE (c.drop (DESIZE * e)))) = slotAt c e := by
  refine Prod.ext (get16_congr fun a ha => ?_) (deName_congr fun a ha => ?_)
  · rw [Nat.zero_add, blit_apply_of_mem (Nat.zero_le _) (by simp only [DESIZE]; omega), Bytes.drop,
      Nat.sub_zero]
  · rw [blit_apply_of_mem (Nat.zero_le _) (by simp only [DESIZE, DIRSIZ] at *; omega), Nat.sub_zero]

@[simp] theorem length_slotsOf : (slotsOf c size).length = size / DESIZE := by
  simp [slotsOf]

theorem getElem?_slotsOf (h : e < size / DESIZE) : (slotsOf c size)[e]? = some (slotAt c e) := by
  simp [slotsOf, h]

/-- An entry is overwritten. -/
theorem slotsOf_set : slotsOf (c.blit (DESIZE * e) DESIZE de) size
    = (slotsOf c size).set e (deInum de, deName de) := by
  refine List.ext_getElem? fun k => ?_
  rw [List.getElem?_set]
  by_cases hk : k < size / DESIZE
  · rw [getElem?_slotsOf hk, length_slotsOf]
    by_cases hke : e = k
    · subst hke
      rw [if_pos rfl, if_pos hk, slotAt_blit_self]
    · rw [if_neg hke, getElem?_slotsOf hk, slotAt_blit_of_ne (Ne.symm hke)]
  · rw [List.getElem?_eq_none (by rw [length_slotsOf]; omega), length_slotsOf,
      List.getElem?_eq_none (by rw [length_slotsOf]; omega)]
    split_ifs with h1 h2
    · exact absurd h2 (by omega)
    · rfl
    · rfl

/-- An entry is appended. -/
theorem slotsOf_append : slotsOf (c.blit (DESIZE * e) DESIZE de) (DESIZE * e + DESIZE)
    = slotsOf c (DESIZE * e) ++ [(deInum de, deName de)] := by
  have hlen : (DESIZE * e + DESIZE) / DESIZE = e + 1 := by
    simp only [DESIZE]
    omega
  have hlen' : DESIZE * e / DESIZE = e := by
    simp only [DESIZE]
    omega
  simp only [slotsOf, hlen, hlen', List.range_succ, List.map_append, List.map_cons, List.map_nil,
    slotAt_blit_self]
  congr 1
  exact List.map_congr_left fun k hk => slotAt_blit_of_ne (List.mem_range.mp hk).ne

theorem deInum_dirent {inum : ℕ} (h : inum < 2 ^ 16) (name : List UInt8) :
    deInum (dirent inum name) = inum :=
  get16_of_bytes h fun a ha => by rw [dirent, if_pos (by omega), Nat.zero_add]

/-- The name comes back from an entry, up to its first NUL byte. -/
theorem deName_dirent (inum : ℕ) (name : List UInt8) :
    deName (dirent inum name) = (name.take DIRSIZ).takeWhile (· ≠ 0) := by
  have hbytes : (List.range DIRSIZ).map (fun i => dirent inum name (2 + i))
      = (List.range DIRSIZ).map fun i => (name.take DIRSIZ).getD i 0 :=
    List.map_congr_left fun i _ => by
      rw [dirent, if_neg (by omega), Nat.add_sub_cancel_left]
  unfold deName
  rw [hbytes]
  -- the name, padded with NUL bytes
  have hpad : (List.range DIRSIZ).map (fun i => (name.take DIRSIZ).getD i 0)
      = name.take DIRSIZ ++ List.replicate (DIRSIZ - (name.take DIRSIZ).length) 0 := by
    have hlen : (name.take DIRSIZ).length ≤ DIRSIZ := List.length_take_le ..
    refine List.ext_getElem (by simp) fun i h1 h2 => ?_
    rw [List.getElem_map, List.getElem_range, List.getElem_append, List.getD_eq_getElem?_getD]
    split_ifs with hi
    · rw [List.getElem?_eq_getElem hi, Option.getD_some]
    · rw [List.getElem?_eq_none (by omega), List.getElem_replicate, Option.getD_none]
  rw [hpad, List.takeWhile_append]
  split_ifs with hall
  · rw [List.takeWhile_replicate]
    simp only [ne_eq, not_true_eq_false, decide_false, Bool.false_eq_true, if_false,
      List.append_nil]
    exact (List.takeWhile_prefix _).eq_of_length hall |>.symm
  · rfl

end Slots

/-! ### Directories -/

/-- The first entry in use with the name `name`: its inode number and its position, the
first entry being number `e`. -/
def findFrom (name : List UInt8) : ℕ → List Slot → Option (ℕ × ℕ)
  | _, [] => none
  | e, x :: xs => if x.1 ≠ 0 ∧ x.2 = name then some (x.1, e) else findFrom name (e + 1) xs

/-- What `dirlookup` finds. -/
def Node.find (n : Node) (name : List UInt8) : Option (ℕ × ℕ) :=
  findFrom (name.take DIRSIZ) 0 n.slots

/-- The first entry not in use, or the end, the first entry being number `e`. -/
def vacantFrom : ℕ → List Slot → ℕ
  | e, [] => e
  | e, x :: xs => if x.1 = 0 then e else vacantFrom (e + 1) xs

/-- The entry `dirlink` fills. -/
def Node.vacant (n : Node) : ℕ := vacantFrom 0 n.slots

/-- The node with entry `e` replaced, or appended at the end. -/
def Node.put (n : Node) (e : ℕ) (x : Slot) : Node :=
  if e < n.slots.length then { n with slots := n.slots.set e x }
  else { n with slots := n.slots ++ [x], size := n.size + DESIZE }

/-- The entries besides the first two. -/
def Node.rest (n : Node) : List Slot := n.slots.drop 2

/-- The directory named by the second entry. -/
def Node.up (n : Node) : ℕ := (n.slots.getD 1 (0, [])).1

/-- What `isdirempty` says. -/
def Node.isEmpty (n : Node) : Bool := n.rest.all (·.1 = 0)

section Find

variable {name : List UInt8} {xs : List Slot} {e i k : ℕ}

theorem findFrom_eq_some : ∀ {e : ℕ} {xs : List Slot}, findFrom name e xs = some (i, k) →
    e ≤ k ∧ xs[k - e]? = some (i, name) ∧ i ≠ 0 := by
  intro e xs
  induction xs generalizing e with
  | nil => exact fun h => nomatch h
  | cons x xs ih =>
      intro h
      rw [findFrom] at h
      split_ifs at h with hx
      · obtain ⟨rfl, rfl⟩ := Prod.mk.inj (Option.some.inj h)
        refine ⟨le_rfl, ?_, hx.1⟩
        rw [Nat.sub_self, ← hx.2]
        rfl
      · obtain ⟨hle, hget, hi⟩ := ih h
        refine ⟨by omega, ?_, hi⟩
        rw [show k - e = k - (e + 1) + 1 by omega]
        exact hget

theorem findFrom_eq_none : ∀ {e : ℕ} {xs : List Slot}, findFrom name e xs = none →
    ∀ x ∈ xs, x.1 ≠ 0 → x.2 ≠ name := by
  intro e xs
  induction xs generalizing e with
  | nil => exact fun _ x hx => nomatch hx
  | cons x xs ih =>
      intro h y hy
      rw [findFrom] at h
      split_ifs at h with hx
      rcases List.mem_cons.mp hy with rfl | hy
      · exact fun h0 hn => hx ⟨h0, hn⟩
      · exact ih h y hy

theorem vacantFrom_spec (e : ℕ) (xs : List Slot) : e ≤ vacantFrom e xs ∧
    vacantFrom e xs ≤ e + xs.length ∧
      ∀ x, xs[vacantFrom e xs - e]? = some x → x.1 = 0 := by
  induction xs generalizing e with
  | nil =>
      refine ⟨le_rfl, le_rfl, fun x hx => ?_⟩
      simp at hx
  | cons x xs ih =>
      rw [vacantFrom]
      split_ifs with hx
      · refine ⟨le_rfl, Nat.le_add_right .., fun y hy => ?_⟩
        rw [Nat.sub_self] at hy
        obtain rfl := Option.some.inj hy
        exact hx
      · obtain ⟨hle, hlen, hempty⟩ := ih (e + 1)
        refine ⟨by omega, by rw [List.length_cons]; omega, fun y hy => hempty y ?_⟩
        rw [show vacantFrom (e + 1) xs - e = vacantFrom (e + 1) xs - (e + 1) + 1 by omega] at hy
        exact hy

end Find

section Node

variable {n : Node} {name : List UInt8} {e i j : ℕ} {x : Slot}

theorem Node.find_eq_some (h : n.find name = some (i, e)) :
    n.slots[e]? = some (i, name.take DIRSIZ) ∧ i ≠ 0 := (findFrom_eq_some h).2

theorem Node.find_eq_none (h : n.find name = none) :
    ∀ x ∈ n.slots, x.1 ≠ 0 → x.2 ≠ name.take DIRSIZ := findFrom_eq_none h

theorem Node.vacant_le : n.vacant ≤ n.slots.length := by
  simpa [Node.vacant] using (vacantFrom_spec 0 n.slots).2.1

theorem Node.vacant_empty (h : n.slots[n.vacant]? = some x) : x.1 = 0 :=
  (vacantFrom_spec 0 n.slots).2.2 x h

@[simp] theorem Node.put_type : (n.put e x).type = n.type := by
  unfold Node.put
  split_ifs <;> rfl

@[simp] theorem Node.put_nlink : (n.put e x).nlink = n.nlink := by
  unfold Node.put
  split_ifs <;> rfl

theorem Node.getElem?_rest : n.rest[e]? = n.slots[e + 2]? := by
  rw [Node.rest, List.getElem?_drop, Nat.add_comm]

end Node

/-- The names "." and "..". -/
def dot : List UInt8 := [46]

@[inherit_doc dot]
def dotdot : List UInt8 := [46, 46]

/-! ### Paths -/

/-- The components of a path: its runs of bytes other than '/', cut to DIRSIZ bytes. -/
def components (path : List UInt8) : List (List UInt8) :=
  ((path.splitOn slash).filter (· ≠ [])).map (·.take DIRSIZ)

/-- The inode that directory `i` has under a name. -/
def look (N : Names) (i : ℕ) (name : List UInt8) : Option ℕ :=
  if (N i).type = T_DIR then ((N i).find name).map Prod.fst else none

/-- Names are looked up one after another. -/
def resolve (N : Names) (i : ℕ) (cs : List (List UInt8)) : Option ℕ := cs.foldlM (look N) i

/-- All names but the last lead to a directory. -/
def resolveParent (N : Names) (i : ℕ) (cs : List (List UInt8)) : Option (ℕ × List UInt8) :=
  cs.getLast?.bind fun name => (resolve N i cs.dropLast).bind fun p =>
    if (N p).type = T_DIR then some (p, name) else none

section Components

variable {a b path rest name : List UInt8}

/-- Where the slashes are does not matter. -/
theorem components_append : components (a ++ slash :: b) = components a ++ components b := by
  rw [components, List.splitOn_append_cons_self, List.filter_append, List.map_append]
  rfl

@[simp] theorem components_nil : components [] = [] := by
  simp [components]

theorem components_of_notMem (ha : a ≠ []) (h : slash ∉ a) : components a = [a.take DIRSIZ] := by
  rw [components, List.splitOn_eq_singleton h]
  simp [ha]

theorem components_dropWhile : components (path.dropWhile (· = slash)) = components path := by
  induction path with
  | nil => rfl
  | cons c cs ih =>
      by_cases hc : c = slash
      · rw [List.dropWhile_cons_of_pos (by simpa using hc), ih, hc]
        exact (components_append (a := [])).symm
      · rw [List.dropWhile_cons_of_neg (by simpa using hc)]

theorem components_skipelem_none (h : skipelem path = none) : components path = [] := by
  unfold skipelem at h
  split at h
  · rename_i e
    rw [← components_dropWhile, e, components_nil]
  · cases h

/-- `skipelem` takes the first component off. -/
theorem components_skipelem (h : skipelem path = some (rest, name)) :
    components path = name :: components rest := by
  unfold skipelem at h
  split at h
  · cases h
  · rename_i c cs e
    obtain ⟨rfl, rfl⟩ := Prod.mk.inj (Option.some.inj h)
    have hc : c ≠ slash := by
      have := List.head?_dropWhile_not (· = slash) path
      rw [e] at this
      simpa using this
    have hne : (c :: cs).takeWhile (· ≠ slash) ≠ [] := by
      rw [List.takeWhile_cons_of_pos (by simpa using hc)]
      exact List.cons_ne_nil _ _
    have helem : components ((c :: cs).takeWhile (· ≠ slash))
        = [((c :: cs).takeWhile (· ≠ slash)).take DIRSIZ] :=
      components_of_notMem hne fun hm => by
        simpa using List.all_eq_true.mp List.all_takeWhile _ hm
    rw [components_dropWhile, ← components_dropWhile, e]
    -- the element ends at a slash or at the end
    rcases hrest : (c :: cs).dropWhile (· ≠ slash) with - | ⟨d, ds⟩
    · have hall := List.takeWhile_append_dropWhile (p := (· ≠ slash)) (l := c :: cs)
      rw [hrest, List.append_nil] at hall
      rw [components_nil, ← helem, hall]
    · have hd : d = slash := by
        have := List.head?_dropWhile_not (· ≠ slash) (c :: cs)
        rw [hrest] at this
        simpa using this
      have hall := List.takeWhile_append_dropWhile (p := (· ≠ slash)) (l := c :: cs)
      rw [hrest, hd] at hall
      have hds : components (slash :: ds) = components ds := components_append (a := [])
      have hsplit := components_append (a := (c :: cs).takeWhile (· ≠ slash)) (b := ds)
      rw [hall, helem] at hsplit
      rw [hd, hds, hsplit]
      rfl

/-- The rest of a path has no leading slash. -/
theorem skipelem_rest (h : skipelem path = some (rest, name)) : rest = [] ↔ components rest = [] := by
  refine ⟨fun h0 => by rw [h0, components_nil], fun h0 => ?_⟩
  unfold skipelem at h
  split at h
  · cases h
  · rename_i d ds _
    obtain ⟨rfl, -⟩ := Prod.mk.inj (Option.some.inj h)
    rcases e : ((d :: ds).dropWhile (· ≠ slash)).dropWhile (· = slash) with - | ⟨c, cs⟩
    · rfl
    · have hc : c ≠ slash := by
        have := List.head?_dropWhile_not (· = slash) ((d :: ds).dropWhile (· ≠ slash))
        rw [e] at this
        simpa using this
      obtain ⟨q, hskip⟩ : ∃ q, skipelem (c :: cs) = some q := by
        rw [skipelem, List.dropWhile_cons_of_neg (by simpa using hc)]
        exact ⟨_, rfl⟩
      rw [e, components_skipelem hskip] at h0
      cases h0

end Components

section Resolve

variable {N N' : Names} {i p : ℕ} {c : List UInt8} {cs : List (List UInt8)}

@[simp] theorem resolve_nil : resolve N i [] = some i := rfl

theorem resolve_cons : resolve N i (c :: cs) = (look N i c).bind fun j => resolve N j cs := by
  rw [resolve, List.foldlM_cons]
  rfl

theorem resolve_append {ds : List (List UInt8)} :
    resolve N i (cs ++ ds) = (resolve N i cs).bind fun j => resolve N j ds := by
  rw [resolve, List.foldlM_append]
  rfl

theorem resolve_concat : resolve N i (cs ++ [c]) = (resolve N i cs).bind fun j => look N j c := by
  rw [resolve_append]
  congr 1
  funext j
  rw [resolve_cons]
  exact Option.bind_fun_some _

theorem look_eq_some {j : ℕ} : look N i c = some j ↔
    (N i).type = T_DIR ∧ ∃ e, (N i).find c = some (j, e) := by
  unfold look
  split_ifs with ht
  · rw [Option.map_eq_some_iff]
    constructor
    · rintro ⟨⟨j, e⟩, h, rfl⟩
      exact ⟨ht, e, h⟩
    · rintro ⟨-, e, h⟩
      exact ⟨(j, e), h, rfl⟩
  · exact ⟨nofun, fun h => absurd h.1 ht⟩

theorem resolveParent_eq_some {name : List UInt8} :
    resolveParent N i cs = some (p, name) ↔
      ∃ ds, cs = ds ++ [name] ∧ resolve N i ds = some p ∧ (N p).type = T_DIR := by
  unfold resolveParent
  constructor
  · intro h
    obtain ⟨nm, hlast, h⟩ := Option.bind_eq_some_iff.mp h
    obtain ⟨q, hq, h⟩ := Option.bind_eq_some_iff.mp h
    split_ifs at h with ht
    obtain ⟨rfl, rfl⟩ := Prod.mk.inj (Option.some.inj h)
    refine ⟨cs.dropLast, ?_, hq, ht⟩
    obtain ⟨ds, rfl⟩ := List.getLast?_eq_some_iff.mp hlast
    rw [List.dropLast_concat]
  · rintro ⟨ds, rfl, hds, ht⟩
    rw [List.getLast?_concat, List.dropLast_concat, Option.bind_some, hds, Option.bind_some,
      if_pos ht]

theorem resolveParent_single :
    resolveParent N i [c] = if (N i).type = T_DIR then some (i, c) else none := rfl

theorem resolveParent_cons (h : cs ≠ []) :
    resolveParent N i (c :: cs) = (look N i c).bind fun j => resolveParent N j cs := by
  obtain ⟨ds, d, rfl⟩ := (List.eq_nil_or_concat' cs).resolve_left h
  unfold resolveParent
  rw [← List.cons_append, List.getLast?_concat, List.getLast?_concat, List.dropLast_concat,
    List.dropLast_concat, resolve_cons]
  simp only [Option.bind_some]
  rw [Option.bind_assoc]

end Resolve

/-! ### The changes -/

/-- A new inode `i` of the given type, entered in directory `p`. -/
def Names.make (N : Names) (p i : ℕ) (type : Int16) (name : List UInt8) : Names :=
  if type = T_DIR then
    update
      (update N i ⟨type, 1, 2 * DESIZE, [(i, dot), (p, dotdot)]⟩) p
      ({ N p with nlink := (N p).nlink + 1 }.put (N p).vacant (i, name))
  else update (update N i ⟨type, 1, 0, []⟩) p ((N p).put (N p).vacant (i, name))

/-- A new name for inode `i` in directory `p`. -/
def Names.addName (N : Names) (p i : ℕ) (name : List UInt8) : Names :=
  update (update N i { N i with nlink := (N i).nlink + 1 }) p
    ((N p).put (N p).vacant (i, name))

/-- Entry `e` of directory `p`, which names inode `i`, is cleared. -/
def Names.removeName (N : Names) (p e i : ℕ) : Names :=
  if (N i).type = T_DIR then
    update (update N p
      { (N p).put e (0, []) with nlink := (N p).nlink - 1 }) i { N i with nlink := (N i).nlink - 1 }
  else
    update (update N p ((N p).put e (0, []))) i
      { N i with nlink := (N i).nlink - 1 }

/-- Some inodes without links are freed. -/
def Names.Frees (N N' : Names) : Prop := ∀ i, N' i = N i ∨ N' i = .free ∧ (N i).nlink = 0

section Frees

variable {N N' N'' : Names} {i : ℕ}

theorem Names.Frees.refl : N.Frees N := fun _ => Or.inl rfl

theorem Names.Frees.trans (h : N.Frees N') (h' : N'.Frees N'') : N.Frees N'' := by
  intro i
  rcases h' i with heq | ⟨hfree, h0⟩
  · rw [heq]
    exact h i
  · rcases h i with heq | ⟨-, h0'⟩
    · exact Or.inr ⟨hfree, heq ▸ h0⟩
    · exact Or.inr ⟨hfree, h0'⟩

theorem Names.Frees.update (h : N.Frees N') (m : Node) :
    Names.Frees (Function.update N i m) (Function.update N' i m) := by
  intro j
  by_cases hj : j = i
  · rw [hj, update_self, update_self]
    exact Or.inl rfl
  · rw [update_of_ne hj, update_of_ne hj]
    exact h j

/-- An inode that is still there was not freed. -/
theorem Names.Frees.eq_of_type (h : N.Frees N') (ht : (N' i).type ≠ 0) : N' i = N i := by
  rcases h i with heq | ⟨hfree, -⟩
  · exact heq
  · rw [hfree] at ht
    exact absurd rfl ht

theorem Names.Frees.eq_of_nlink (h : N.Frees N') (hl : (N i).nlink ≠ 0) : N' i = N i :=
  (h i).resolve_right fun h0 => hl h0.2

theorem Names.frees_free (h0 : (N i).nlink = 0) : N.Frees (Function.update N i .free) := by
  intro j
  by_cases hj : j = i
  · rw [hj, update_self]
    exact Or.inr ⟨rfl, h0⟩
  · rw [update_of_ne hj]
    exact Or.inl rfl

end Frees

end Nunix.Fs
