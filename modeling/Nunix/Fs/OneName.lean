/-
Nunix/Fs/OneName.lean

The directory calls change one name (`create`, `sys_mkdir`, `sys_mknod`, `sys_link` and
`sys_unlink`).

`Names.Tree` says that the directories reached from the root form a tree, and that the link
counts cover the entries.  Then nothing that is reached without the changed entry is freed:
every such inode has an entry that still counts.  So a path that does not pass the entry leads
where it led before.
-/
import Nunix.Fs.NameCalls
import Nunix.Fs.DirMap

namespace Nunix.Fs

open Bytes Hoare
open Function (update update_of_ne update_self)

/-! ### Trees -/

/-- Inode `j` is reached from the root directory. -/
def Names.Reach (N : Names) (j : ℕ) : Prop := ∃ cs, resolve N ROOTINO cs = some j

/-- The path `cs` from the root directory does not look up `name` in directory `p`. -/
def Avoids (N : Names) (p : ℕ) (name : List UInt8) (cs : List (List UInt8)) : Prop :=
  ∀ a c b, cs = a ++ c :: b → resolve N ROOTINO a = some p → c.take DIRSIZ ≠ name.take DIRSIZ

/-- The directories reached from the root form a tree: they begin with "." and "..", their names
are distinct, their entries lead to inodes, and a directory is entered in its parent only.
Number 0 is no inode. -/
structure Names.Shaped (N : Names) : Prop where
  zero : (N 0).type = 0
  root : (N ROOTINO).type = T_DIR
  root_up : (N ROOTINO).up = ROOTINO
  live : ∀ {j}, N.Reach j → (N j).type ≠ 0
  dots : ∀ {d}, N.Reach d → (N d).type = T_DIR →
    (N d).slots[0]? = some (d, dot) ∧ (N d).slots[1]? = some ((N d).up, dotdot)
  distinct : ∀ {d}, N.Reach d → (N d).type = T_DIR → (N d).Distinct
  child : ∀ {d e j nm}, N.Reach d → (N d).type = T_DIR → 2 ≤ e →
    (N d).slots[e]? = some (j, nm) → (N j).type = T_DIR → j ≠ ROOTINO ∧ (N j).up = d

/-- An inode has at least as many links as it has entries there, those named "." apart. -/
structure Names.Tree (N : Names) : Prop extends Names.Shaped N where
  links : ∀ {j} (E : Finset (ℕ × ℕ)), (∀ x ∈ E, N.Reach x.1 ∧ (N x.1).type = T_DIR ∧ 1 ≤ x.2 ∧
    ∃ nm, (N x.1).slots[x.2]? = some (j, nm)) → (E.card : ℤ) ≤ (N j).nlink.toInt

/-- Inode `j` is reached from the root by names that `P` allows. -/
inductive Via (N : Names) (P : ℕ → List UInt8 → Prop) : ℕ → Prop
  | root : Via N P ROOTINO
  | step {d j : ℕ} {c : List UInt8} (hd : Via N P d) (hc : P d c) (hj : look N d c = some j) :
      Via N P j

/-- The same along entries behind "." and "..". -/
inductive Down (N : Names) (P : ℕ → List UInt8 → Prop) : ℕ → Prop
  | root : Down N P ROOTINO
  | step {d e j : ℕ} {nm : List UInt8} (hd : Down N P d) (hr : N.Reach d) (hc : P d nm)
      (ht : (N d).type = T_DIR) (he : 2 ≤ e) (hget : (N d).slots[e]? = some (j, nm)) (hj : j ≠ 0)
      (hnm : nm.take DIRSIZ = nm) : Down N P j

section Tree

variable {N N' : Names} {p e i j d : ℕ} {name : List UInt8} {cs : List (List UInt8)}
  {P : ℕ → List UInt8 → Prop} {type : Int16}

theorem Names.reach_root : N.Reach ROOTINO := ⟨[], rfl⟩

theorem Names.Reach.resolve (h : N.Reach d) (hr : Fs.resolve N d cs = some j) : N.Reach j := by
  obtain ⟨as, has⟩ := h
  exact ⟨as ++ cs, by rw [resolve_append, has, Option.bind_some, hr]⟩

theorem Names.Reach.look {c : List UInt8} (h : N.Reach d) (hj : Fs.look N d c = some j) :
    N.Reach j := h.resolve (by rw [resolve_cons, hj]; exact resolve_nil)

theorem Via.reach (h : Via N P j) : N.Reach j := by
  induction h with
  | root => exact Names.reach_root
  | step _ _ hj ih => exact ih.look hj

theorem via_of_resolve (h : ∀ a c b, cs = a ++ c :: b → ∀ d, resolve N ROOTINO a = some d → P d c)
    (hr : resolve N ROOTINO cs = some j) : Via N P j := by
  induction cs using List.reverseRecOn generalizing j with
  | nil =>
      obtain rfl := Option.some.inj hr
      exact .root
  | append_singleton cs c ih =>
      rw [resolve_concat] at hr
      obtain ⟨d, hd, hj⟩ := Option.bind_eq_some_iff.mp hr
      refine .step (ih (fun a c' b hcs => h a c' (b ++ [c]) (by rw [hcs]; simp)) hd) ?_ hj
      exact h cs c [] rfl d hd

theorem Via.path (h : Via N P j) : ∃ cs, resolve N ROOTINO cs = some j ∧
    ∀ a c b, cs = a ++ c :: b → ∀ d, resolve N ROOTINO a = some d → P d c := by
  induction h with
  | root => exact ⟨[], rfl, fun a c b hcs => by simp at hcs⟩
  | @step d j c _ hc hj ih =>
      obtain ⟨cs, hcs, hall⟩ := ih
      refine ⟨cs ++ [c], by rw [resolve_concat, hcs, Option.bind_some, hj], fun a c' b heq d' hd' => ?_⟩
      rcases List.eq_nil_or_concat' b with rfl | ⟨b, x, rfl⟩
      · obtain ⟨rfl, hlast⟩ := List.append_inj' heq rfl
        obtain rfl := (List.cons.inj hlast).1
        obtain rfl := Option.some.inj (hcs.symm.trans hd')
        exact hc
      · rw [← List.cons_append, ← List.append_assoc] at heq
        exact hall a c' b (List.append_inj' heq rfl).1 d' hd'

/-- The steps that avoid an entry. -/
def without (p : ℕ) (name : List UInt8) (d : ℕ) (c : List UInt8) : Prop :=
  d = p → c.take DIRSIZ ≠ name.take DIRSIZ

theorem Avoids.without (h : Avoids N p name cs) : ∀ a c b, cs = a ++ c :: b →
    ∀ d, resolve N ROOTINO a = some d → without p name d c := fun a c b hcs _ hd hdp =>
  h a c b hcs (hdp ▸ hd)

/-- A path leads where it led if nothing on it has changed. -/
theorem Avoids.resolve_eq (hsame : ∀ {d c}, Via N (Fs.without p name) d → Fs.without p name d c →
    look N' d c = look N d c) (h : Avoids N p name cs) :
    resolve N' ROOTINO cs = resolve N ROOTINO cs := by
  induction cs using List.reverseRecOn with
  | nil => rfl
  | append_singleton cs c ih =>
      have hcs : Avoids N p name cs := fun a c' b heq => h a c' (b ++ [c]) (by rw [heq]; simp)
      rw [resolve_concat, resolve_concat, ih hcs]
      rcases hd : resolve N ROOTINO cs with - | d
      · rfl
      · exact hsame (via_of_resolve hcs.without hd) (h.without cs c [] rfl d hd)

section Links

variable (h : N.Tree)

include h

/-- A way through "." and ".." can be cut short. -/
theorem Via.down (hP : ∀ {d c}, P d c → P d (c.take DIRSIZ)) (hj : Via N P j) : Down N P j := by
  induction hj with
  | root => exact .root
  | @step d j c hd hc hlook ih =>
      obtain ⟨ht, e, hfind⟩ := look_eq_some.mp hlook
      obtain ⟨hget, hj⟩ := Node.find_eq_some hfind
      obtain ⟨hdot, hdotdot⟩ := h.dots hd.reach ht
      rcases e with - | - | e
      · rw [hdot] at hget
        exact (Prod.mk.inj (Option.some.inj hget)).1 ▸ ih
      · rw [hdotdot] at hget
        obtain rfl := (Prod.mk.inj (Option.some.inj hget)).1
        cases ih with
        | root =>
            rw [h.root_up]
            exact .root
        | step hd₀ hr₀ _ ht₀ he₀ hget₀ _ _ =>
            rw [(h.child hr₀ ht₀ he₀ hget₀ ht).2]
            exact hd₀
      · exact .step ih hd.reach (hP hc) ht (by omega) hget hj
          (by rw [List.take_take, Nat.min_self])

/-- What is reached has an entry that counts. -/
theorem Names.Tree.entry (hj : Down N P j) : ∃ d e nm, N.Reach d ∧ (N d).type = T_DIR ∧
    (N d).slots[e]? = some (j, nm) ∧ (2 ≤ e ∧ P d nm ∧ nm.take DIRSIZ = nm ∨
      d = ROOTINO ∧ j = ROOTINO ∧ e = 1) := by
  cases hj with
  | root =>
      refine ⟨ROOTINO, 1, dotdot, Names.reach_root, h.root, ?_, Or.inr ⟨rfl, rfl, rfl⟩⟩
      rw [(h.dots Names.reach_root h.root).2, h.root_up]
  | step _ hr hc ht he hget _ hnm => exact ⟨_, _, _, hr, ht, hget, Or.inl ⟨he, hc, hnm⟩⟩

theorem Names.Tree.down (hj : N.Reach j) : Down N (fun _ _ => True) j := by
  obtain ⟨cs, hcs⟩ := hj
  exact Via.down h id (via_of_resolve (fun _ _ _ _ _ _ => trivial) hcs)

/-- What is reached has a link. -/
theorem Names.Tree.one_le (hj : N.Reach j) : 1 ≤ (N j).nlink.toInt := by
  obtain ⟨d, e, nm, hr, ht, hget, he⟩ := h.entry (h.down hj)
  refine h.links {(d, e)} fun x hx => ?_
  obtain rfl := Finset.mem_singleton.mp hx
  exact ⟨hr, ht, by omega, nm, hget⟩

theorem Names.Tree.nlink_ne (hj : N.Reach j) : (N j).nlink ≠ 0 := by
  intro h0
  have := h.one_le hj
  rw [h0] at this
  exact absurd this (by decide)

theorem Names.Tree.succ_ne (hj : N.Reach j) : (N j).nlink + 1 ≠ 0 := by
  intro h0
  have h1 := h.one_le hj
  have h2 := (N j).nlink.toInt_lt
  have h3 : ((N j).nlink + 1).toInt = 0 := by rw [h0]; rfl
  rw [Int16.toInt_add] at h3
  simp only [Int16.toInt_one, Int.bmod] at h3
  omega

/-- Two entries make two links. -/
theorem Names.Tree.pred_ne {d' e' : ℕ} {nm nm' : List UInt8} (hne : (d, e) ≠ (d', e'))
    (hr : N.Reach d) (ht : (N d).type = T_DIR) (he : 1 ≤ e) (hget : (N d).slots[e]? = some (j, nm))
    (hr' : N.Reach d') (ht' : (N d').type = T_DIR) (he' : 1 ≤ e')
    (hget' : (N d').slots[e']? = some (j, nm')) : (N j).nlink - 1 ≠ 0 := by
  have h2 : (2 : ℤ) ≤ (N j).nlink.toInt := by
    rw [← Nat.cast_ofNat, ← Finset.card_pair hne]
    refine h.links _ fun x hx => ?_
    rcases Finset.mem_insert.mp hx with rfl | hx
    · exact ⟨hr, ht, he, nm, hget⟩
    · obtain rfl := Finset.mem_singleton.mp hx
      exact ⟨hr', ht', he', nm', hget'⟩
  intro h0
  have h3 := (N j).nlink.toInt_lt
  have h4 : ((N j).nlink - 1).toInt = 0 := by rw [h0]; rfl
  rw [Int16.toInt_sub] at h4
  simp only [Int16.toInt_one, Int.bmod] at h4
  omega

/-- The entry with a name is the one that is found. -/
theorem Names.Tree.find_eq {nm : List UInt8} (hr : N.Reach d) (ht : (N d).type = T_DIR)
    (hget : (N d).slots[e]? = some (j, nm)) (hj : j ≠ 0) (hnm : nm.take DIRSIZ = nm) :
    (N d).find nm = some (j, e) := by
  rcases hfind : (N d).find nm with - | ⟨j', e'⟩
  · exact absurd hnm.symm (Node.find_eq_none hfind _ (List.mem_of_getElem? hget) hj)
  · obtain ⟨hget', hj'⟩ := Node.find_eq_some hfind
    obtain rfl := h.distinct hr ht e e' _ _ hget hget' hj hj' hnm.symm
    obtain rfl := (Prod.mk.inj (Option.some.inj (hget.symm.trans hget'))).1
    rfl

end Links

/-! ### One name -/

/-- Paths from the root that do not look up `name` in directory `p` lead where they led. -/
def OneName (N N' : Names) (p : ℕ) (name : List UInt8) : Prop :=
  ∀ cs, Avoids N p name cs → resolve N' ROOTINO cs = resolve N ROOTINO cs

theorem look_congr {c : List UInt8} (ht : (N' d).type = (N d).type)
    (hf : (N' d).find c = (N d).find c) : look N' d c = look N d c := by
  unfold look
  rw [ht, hf]

/-- A path through directories that have not changed. -/
theorem resolve_keep (hsame : ∀ {d c j}, N.Reach d → look N d c = some j → look N' d c = some j) :
    ∀ {cs : List (List UInt8)} {d j : ℕ}, N.Reach d → resolve N d cs = some j →
      resolve N' d cs = some j := by
  intro cs
  induction cs with
  | nil => exact fun _ hr => hr
  | cons c cs ih =>
      intro d j hd hr
      rw [resolve_cons] at hr ⊢
      obtain ⟨k, hk, hr⟩ := Option.bind_eq_some_iff.mp hr
      rw [hsame hd hk]
      exact ih (hd.look hk) hr

/-- A name was entered in directory `p`; everything else that is reached is as it was. -/
structure Entered (N N' : Names) (p i : ℕ) (name : List UInt8) : Prop where
  type : (N' p).type = (N p).type
  slots : (N' p).slots = ((N p).put (N p).vacant (i, name.take DIRSIZ)).slots
  other : ∀ {d}, N.Reach d → d ≠ p → (N' d).type = (N d).type ∧ (N' d).slots = (N d).slots

/-- The name is in the map, and nothing else has changed. -/
theorem Entered.one_name (h : Entered N N' p i name) (hi : i ≠ 0) (hp : (N p).type = T_DIR)
    (hfind : (N p).find name = none) :
    OneName N N' p name ∧ look N' p name = some i ∧
      ∀ {d c j}, N.Reach d → look N d c = some j → look N' d c = some j := by
  have hput : ∀ c, (N' p).find c = if c.take DIRSIZ = name.take DIRSIZ
      then some (i, (N p).vacant) else (N p).find c := fun c => by
    rw [Node.find, h.slots]
    exact Node.find_add hfind hi
  have hsame : ∀ {d c}, N.Reach d → (d = p → c.take DIRSIZ ≠ name.take DIRSIZ) →
      look N' d c = look N d c := by
    intro d c hd hc
    by_cases hdp : d = p
    · subst hdp
      exact look_congr h.type (by rw [hput, if_neg (hc rfl)])
    · obtain ⟨ht, hs⟩ := h.other hd hdp
      exact look_congr ht (by rw [Node.find, hs, Node.find])
  refine ⟨fun cs hcs => hcs.resolve_eq fun hd hc => hsame hd.reach hc, ?_, fun {d c j} hd hj => ?_⟩
  · rw [look, h.type, if_pos hp, hput, if_pos rfl]
    rfl
  · rw [hsame hd, hj]
    rintro rfl hc
    obtain ⟨-, e, hfc⟩ := look_eq_some.mp hj
    rw [Node.find, hc, ← Node.find, hfind] at hfc
    cases hfc

/-- The nodes after an inode was made. -/
theorem Created.entered (h : N.Tree) (hp : N.Reach p)
    (hi : (N i).type = 0 ∨ (N i).nlink = 0)
    (hfr : (N.make p i type (name.take DIRSIZ)).Frees N') :
    Entered N N' p i name ∧ ¬ N.Reach i := by
  have hnr : ¬ N.Reach i := fun hr => hi.elim (h.live hr) (h.nlink_ne hr)
  have hparent : N' p = N.make p i type (name.take DIRSIZ) p := by
    refine hfr.eq_of_nlink ?_
    unfold Names.make
    split_ifs
    · rw [update_self, Node.put_nlink]
      exact h.succ_ne hp
    · rw [update_self, Node.put_nlink]
      exact h.nlink_ne hp
  have hput : (N.make p i type (name.take DIRSIZ) p).type = (N p).type ∧
      (N.make p i type (name.take DIRSIZ) p).slots
        = ((N p).put (N p).vacant (i, name.take DIRSIZ)).slots := by
    unfold Names.make
    split_ifs
    · rw [update_self, Node.put_type]
      refine ⟨rfl, ?_⟩
      unfold Node.put
      split_ifs <;> rfl
    · rw [update_self, Node.put_type]
      exact ⟨rfl, rfl⟩
  refine ⟨⟨hparent ▸ hput.1, hparent ▸ hput.2, fun {d} hd hdp => ?_⟩, hnr⟩
  have hdi : d ≠ i := fun heq => hnr (heq ▸ hd)
  have hother : N.make p i type (name.take DIRSIZ) d = N d := by
    unfold Names.make
    split_ifs
    · rw [update_of_ne hdp, update_of_ne hdi]
    · rw [update_of_ne hdp, update_of_ne hdi]
  have heq : N' d = N d := (hfr.eq_of_nlink (by rw [hother]; exact h.nlink_ne hd)).trans hother
  exact ⟨by rw [heq], by rw [heq]⟩

/-- The nodes after a link was made. -/
theorem Names.Tree.entered (h : N.Tree) (hp : N.Reach p) (ht : (N p).type = T_DIR)
    (hnd : (N i).type ≠ T_DIR) (hfr : (N.addName p i (name.take DIRSIZ)).Frees N') :
    Entered N N' p i name := by
  have hpi : p ≠ i := by
    rintro rfl
    exact hnd ht
  have hparent : N' p = (N p).put (N p).vacant (i, name.take DIRSIZ) := by
    have hput : N.addName p i (name.take DIRSIZ) p = _ := update_self ..
    rw [← hput]
    refine hfr.eq_of_nlink ?_
    rw [hput, Node.put_nlink]
    exact h.nlink_ne hp
  refine ⟨by rw [hparent, Node.put_type], by rw [hparent], fun {d} hd hdp => ?_⟩
  by_cases hdi : d = i
  · subst hdi
    have hnode : N.addName p d (name.take DIRSIZ) d = { N d with nlink := (N d).nlink + 1 } := by
      rw [Names.addName, update_of_ne hdp, update_self]
    have heq : N' d = _ := (hfr.eq_of_nlink (by rw [hnode]; exact h.succ_ne hd)).trans hnode
    rw [heq]
    exact ⟨rfl, rfl⟩
  · have hnode : N.addName p i (name.take DIRSIZ) d = N d := by
      rw [Names.addName, update_of_ne hdp, update_of_ne hdi]
    have heq : N' d = N d := (hfr.eq_of_nlink (by rw [hnode]; exact h.nlink_ne hd)).trans hnode
    rw [heq]
    exact ⟨rfl, rfl⟩

/-! ### Removing a name -/

theorem Names.removeName_type : (N.removeName p e i d).type = (N d).type := by
  unfold Names.removeName
  by_cases hd : d = i
  · subst hd
    split_ifs <;> rw [update_self]
  · by_cases hdp : d = p
    · subst hdp
      split_ifs <;> rw [update_of_ne hd, update_self] <;> exact Node.put_type
    · split_ifs <;> rw [update_of_ne hd, update_of_ne hdp]

theorem Names.removeName_slots (hpi : p ≠ i) : (N.removeName p e i d).slots
    = if d = p then ((N p).put e (0, [])).slots else (N d).slots := by
  unfold Names.removeName
  by_cases hd : d = i
  · subst hd
    rw [if_neg (Ne.symm hpi)]
    split_ifs <;> rw [update_self]
  · by_cases hdp : d = p
    · subst hdp
      rw [if_pos rfl]
      split_ifs <;> rw [update_of_ne hd, update_self]
    · rw [if_neg hdp]
      split_ifs <;> rw [update_of_ne hd, update_of_ne hdp]

section Remove

variable (h : N.Tree) (hp : N.Reach p) (ht : (N p).type = T_DIR)
  (hfind : (N p).find name = some (i, e)) (he : 2 ≤ e) (hpi : p ≠ i)

include h hp ht hfind he hpi

/-- Whatever is reached without the entry keeps a link. -/
theorem Names.Tree.removeName_nlink (hj : Down N (without p name) j) (hr : N.Reach j) :
    (N.removeName p e i j).nlink ≠ 0 := by
  obtain ⟨hget, hi0⟩ := Node.find_eq_some hfind
  obtain ⟨d, e', nm, hd, htd, hget', hcase⟩ := h.entry hj
  have he' : 1 ≤ e' := by omega
  have hri : N.Reach i := hp.look (look_eq_some.mpr ⟨ht, e, hfind⟩)
  unfold Names.removeName
  by_cases hji : j = i
  · -- another entry for the inode
    subst hji
    have hne : (d, e') ≠ (p, e) := by
      rintro ⟨⟩
      rcases hcase with ⟨-, hP, hnm⟩ | ⟨-, -, rfl⟩
      · have hname := (Prod.mk.inj (Option.some.inj (hget'.symm.trans hget))).2
        exact hP rfl (hnm.trans hname)
      · omega
    have hkeep := h.pred_ne hne hd htd he' hget' hp ht (by omega) hget
    split_ifs <;> rwa [update_self]
  · by_cases hjp : j = p
    · subst hjp
      split_ifs with hdir
      · -- the link from ".." is not the only one
        obtain ⟨hroot, hup⟩ := h.child hp ht he hget hdir
        have hdd := (h.dots hri hdir).2
        rw [hup] at hdd
        have hne : (d, e') ≠ (i, 1) := by
          rintro ⟨⟩
          rcases hcase with ⟨hbad, -⟩ | ⟨hbad, -⟩
          · omega
          · exact hroot hbad
        rw [update_of_ne hji, update_self]
        exact h.pred_ne hne hd htd he' hget' hri hdir le_rfl hdd
      · rw [update_of_ne hji, update_self, Node.put_nlink]
        exact h.nlink_ne hr
    · split_ifs <;> rw [update_of_ne hji, update_of_ne hjp] <;> exact h.nlink_ne hr

variable (hfr : (N.removeName p e i).Frees N')

include hfr

/-- Nothing else has changed, and nothing else is out of reach. -/
theorem Names.Tree.removed : OneName N N' p name ∧
    (∀ {start : ℕ} {cs : List (List UInt8)}, resolve N start cs = some p →
      resolve N' start (cs ++ [name]) = none) ∧
    (((N i).type = T_DIR → (N i).isEmpty = true) → ∀ j, N.Reach j → j ≠ i → N'.Reach j) := by
  obtain ⟨hget, -⟩ := Node.find_eq_some hfind
  have hclear : ∀ d c, (N.removeName p e i d).find c = if d = p ∧ c.take DIRSIZ = name.take DIRSIZ
      then none else (N d).find c := fun d c => by
    rw [Node.find, Names.removeName_slots hpi]
    by_cases hd : d = p
    · subst hd
      rw [if_pos rfl]
      refine (Node.find_clear (h.distinct hp ht) hfind).trans ?_
      simp
    · rw [if_neg hd, if_neg fun hbad => hd hbad.1]
      rfl
  have hstep : ∀ d c, look (N.removeName p e i) d c
      = if d = p ∧ c.take DIRSIZ = name.take DIRSIZ then none else look N d c := fun d c => by
    unfold look
    rw [Names.removeName_type, hclear]
    split_ifs <;> rfl
  have hone : OneName N N' p name := fun cs hcs => hcs.resolve_eq fun {d c} hd hc => by
    have hdown := Via.down h (fun {d c} hP hdp => by rw [List.take_take, Nat.min_self]; exact hP hdp) hd
    have heq := hfr.eq_of_nlink (h.removeName_nlink hp ht hfind he hpi hdown hd.reach)
    rw [look, heq, ← look, hstep, if_neg fun hbad => hc hbad.1 hbad.2]
  refine ⟨hone, fun {start cs} hcs => ?_, fun hempty j hj hji => ?_⟩
  · have hsub : ∀ {d c j}, look N' d c = some j → look N d c = some j := fun {d c j} hj => by
      have hj := hfr.look hj
      rw [hstep] at hj
      split_ifs at hj
      exact hj
    rcases hr : resolve N' start (cs ++ [name]) with - | x
    · rfl
    · rw [resolve_concat] at hr
      obtain ⟨q, hq, hx⟩ := Option.bind_eq_some_iff.mp hr
      obtain rfl := Option.some.inj (hcs.symm.trans (resolve_mono hsub hq))
      have hx := hfr.look hx
      rw [hstep, if_pos ⟨rfl, rfl⟩] at hx
      cases hx
  · -- the way down the tree does not pass an empty directory
    have hvia : ∀ {j}, Down N (fun _ _ => True) j → j ≠ i → Via N (without p name) j := by
      intro j hdown
      induction hdown with
      | root => exact fun _ => .root
      | @step d e' j nm hd hr _ htd he' hget' hj0 hnm ih =>
          intro hji
          have hdi : d ≠ i := by
            rintro rfl
            have hmem : (j, nm) ∈ (N d).rest := List.mem_of_getElem? (i := e' - 2)
              (by rw [Node.getElem?_rest, Nat.sub_add_cancel he', hget'])
            exact hj0 (by simpa using List.all_eq_true.mp (hempty htd) _ hmem)
          have hfd := h.find_eq hr htd hget' hj0 hnm
          refine .step (ih hdi) (fun hdp hname => hji ?_) (look_eq_some.mpr ⟨htd, e', hfd⟩)
          subst hdp
          rw [Node.find, hname, ← Node.find, hfind] at hfd
          exact (Prod.mk.inj (Option.some.inj hfd)).1.symm
    obtain ⟨cs, hcs, hall⟩ := (hvia (h.down hj) hji).path
    exact ⟨cs, (hone cs fun a c b heq hp => hall a c b heq p hp rfl).trans hcs⟩

end Remove

end Tree

/-! ### The calls -/

/-- A path leads to inode `i`; only its last name has changed. -/
def Adds (N N' : Names) (start : ℕ) (cs : List (List UInt8)) (i : ℕ) : Prop :=
  ∃ p name, resolveParent N start cs = some (p, name) ∧ OneName N N' p name ∧
    resolve N' start cs = some i

/-- A path leads nowhere; only its last name has changed, and no inode but the one it named is
out of reach. -/
def Removes (N N' : Names) (start : ℕ) (cs : List (List UInt8)) (i : ℕ) : Prop :=
  ∃ p name, resolveParent N start cs = some (p, name) ∧ OneName N N' p name ∧
    resolve N start cs = some i ∧ resolve N' start cs = none ∧
    (∀ j, N.Reach j → j ≠ i → N'.Reach j) ∧ ((N i).type = T_DIR → (N i).isEmpty = true)

section Calls

variable {N N' : Names} {p i start : ℕ} {name : List UInt8} {cs : List (List UInt8)} {type : Int16}

theorem Entered.adds (h : Entered N N' p i name) (hi : i ≠ 0) (hstart : N.Reach start)
    (hpar : resolveParent N start cs = some (p, name)) (hfind : (N p).find name = none) :
    Adds N N' start cs i := by
  obtain ⟨ds, hds, hres, ht⟩ := resolveParent_eq_some.mp hpar
  obtain ⟨hone, hnew, hkeep⟩ := h.one_name hi ht hfind
  refine ⟨p, name, hpar, hone, ?_⟩
  rw [hds, resolve_concat, resolve_keep hkeep hstart hres, Option.bind_some, hnew]

theorem Created.adds (h : N.Tree) (hstart : N.Reach start)
    (hpar : resolveParent N start cs = some (p, name)) (hc : Created N N' p i name type) :
    Adds N N' start cs i ∧
      (resolve N start cs = some i ∨ resolve N start cs = none ∧ ¬ N.Reach i) := by
  obtain ⟨ds, hds, hres, ht⟩ := resolveParent_eq_some.mp hpar
  have hp := hstart.resolve hres
  have hend : resolve N start cs = look N p name := by
    rw [hds, resolve_concat, hres, Option.bind_some]
  rcases hc with ⟨⟨e, hfind⟩, hfr⟩ | ⟨hfind, hi0, hfree, hfr⟩
  · have hlook : look N p name = some i := look_eq_some.mpr ⟨ht, e, hfind⟩
    have hsame : ∀ {d c}, N.Reach d → look N' d c = look N d c := fun {d c} hd => by
      rw [look, hfr.eq_of_nlink (h.nlink_ne hd)]
      rfl
    refine ⟨⟨p, name, hpar, fun ds hds => hds.resolve_eq fun hd _ => hsame hd.reach, ?_⟩,
      Or.inl (hend.trans hlook)⟩
    exact resolve_keep (fun hd hj => (hsame hd).trans hj) hstart (hend.trans hlook)
  · obtain ⟨hent, hnr⟩ := Created.entered h hp hfree hfr
    refine ⟨hent.adds hi0 hstart hpar hfind, Or.inr ⟨?_, hnr⟩⟩
    rw [hend, look, if_pos ht, hfind]
    rfl

variable {sb : Superblock} {H : List (Disk × ℕ)} {all : List ℕ} {s : FsSt}

end Calls

/-! ### Two directories -/

/-- A disk with the directories "/a", which has `links` links, and "/a/b". -/
def twoDirs (links : Int16) : Disk := fun x =>
  let dir (nlink : Int16) (size b : UInt32) : Bytes := Dinode.encode
    { Dinode.zero with
      type := T_DIR, nlink := nlink, size := size, addrs := fun l => if l.1 = 0 then b else 0 }
  let dots (i p : ℕ) : Bytes := (dirent i [46]).blit 16 16 (dirent p [46, 46])
  if x = 1 then ((Bytes.zero.put32 0 64).put32 4 29).put32 8 8
  else if x = 2 then ((Bytes.zero.blit 64 64 (dir 2 48 5)).blit 128 64 (dir links 48 6)).blit 192 64
    (dir 1 32 7)
  else if x = 4 then fun k => if k = 0 then 255 else 0
  else if x = 5 then (dots 1 1).blit 32 16 (dirent 2 [97])
  else if x = 6 then (dots 2 1).blit 32 16 (dirent 3 [98])
  else if x = 7 then dots 3 2
  else Bytes.zero

/-- The nodes on it. -/
def twoNames (links : Int16) : Names := fun i =>
  if i = 1 then ⟨T_DIR, 2, 48, [(1, dot), (1, dotdot), (2, [97])]⟩
  else if i = 2 then ⟨T_DIR, links, 48, [(2, dot), (1, dotdot), (3, [98])]⟩
  else if i = 3 then ⟨T_DIR, 1, 32, [(3, dot), (2, dotdot)]⟩
  else .free

/-- The kernel booted from it. -/
def twoBoot (links : Int16) : FsSt := mounted (twoDirs links) fun _ => (0, Bytes.zero)

section Two

variable {links : Int16}

theorem two_names (h : links = 1 ∨ links = 2) : names (twoDirs links) = twoNames links := by
  funext i
  rcases Nat.lt_or_ge i 8 with hi | hi
  · rcases h with rfl | rfl <;> interval_cases i <;> decide +kernel
  · unfold twoNames
    rw [if_neg (by omega), if_neg (by omega), if_neg (by omega)]
    exact if_neg (not_lt.mpr (by rcases h with rfl | rfl <;> exact hi))

theorem two_ns (h : links = 1 ∨ links = 2) :
    Ns (superblock (twoDirs links)) [] [0] [] (twoBoot links) (twoNames links) := by
  rw [← two_names h]
  refine WellFormed.ns (wellFormed_of_check ?_ ?_ _) <;>
    rcases h with rfl | rfl <;> decide +kernel

theorem two_cases {i : ℕ} (h : (twoNames links i).type ≠ 0) : i = 1 ∨ i = 2 ∨ i = 3 := by
  by_contra hno
  simp only [not_or] at hno
  exact h (by rw [twoNames, if_neg hno.1, if_neg hno.2.1, if_neg hno.2.2]; rfl)

theorem two_whole : (twoNames links).Whole := by
  intro i hi
  obtain rfl | rfl | rfl := two_cases (i := i) (by rw [hi]; decide) <;> rfl

theorem Node.distinct_of_nodup {n : Node} (h : (n.slots.map Prod.snd).Nodup) : n.Distinct := by
  intro e e' x x' hx hx' _ _ hname
  obtain ⟨hlt, -⟩ := List.getElem?_eq_some_iff.mp hx
  refine (List.getElem?_inj (by simpa using hlt) h).mp ?_
  rw [List.getElem?_map, List.getElem?_map, hx, hx', Option.map_some, Option.map_some, hname]

/-- The entries of the three directories. -/
theorem two_slots {d e j : ℕ} {nm : List UInt8} (h : (twoNames links d).slots[e]? = some (j, nm)) :
    (d, e, j) ∈ [(1, 0, 1), (1, 1, 1), (1, 2, 2), (2, 0, 2), (2, 1, 1), (2, 2, 3), (3, 0, 3),
      (3, 1, 2)] := by
  have hd : d = 1 ∨ d = 2 ∨ d = 3 := by
    by_contra hno
    simp only [not_or] at hno
    rw [twoNames, if_neg hno.1, if_neg hno.2.1, if_neg hno.2.2] at h
    simp [Node.free] at h
  obtain ⟨hlt, hget⟩ := List.getElem?_eq_some_iff.mp h
  obtain rfl | rfl | rfl := hd
  · have hlt : e < 3 := hlt
    interval_cases e <;> obtain rfl := (Prod.mk.inj hget).1 <;> decide
  · have hlt : e < 3 := hlt
    interval_cases e <;> obtain rfl := (Prod.mk.inj hget).1 <;> decide
  · have hlt : e < 2 := hlt
    interval_cases e <;> obtain rfl := (Prod.mk.inj hget).1 <;> decide

theorem two_reach {j : ℕ} (h : (twoNames links).Reach j) : (twoNames links j).type = T_DIR := by
  obtain ⟨cs, hcs⟩ := h
  induction cs using List.reverseRecOn generalizing j with
  | nil =>
      obtain rfl := Option.some.inj hcs
      rfl
  | append_singleton cs c ih =>
      rw [resolve_concat] at hcs
      obtain ⟨d, -, hj⟩ := Option.bind_eq_some_iff.mp hcs
      obtain ⟨-, e, hfind⟩ := look_eq_some.mp hj
      have hmem := two_slots (Node.find_eq_some hfind).1
      have hcases : j = 1 ∨ j = 2 ∨ j = 3 := by
        simp at hmem
        omega
      obtain rfl | rfl | rfl := hcases <;> rfl

/-- They form a tree. -/
theorem two_shaped : (twoNames links).Shaped where
  zero := rfl
  root := rfl
  root_up := rfl
  live h := by
    rw [two_reach h]
    decide
  dots {d} _ ht := by
    obtain rfl | rfl | rfl := two_cases (i := d) (by rw [ht]; decide) <;> exact ⟨rfl, rfl⟩
  distinct {d} _ ht := by
    obtain rfl | rfl | rfl := two_cases (i := d) (by rw [ht]; decide)
    · exact Node.distinct_of_nodup (show [dot, dotdot, [97]].Nodup by decide)
    · exact Node.distinct_of_nodup (show [dot, dotdot, [98]].Nodup by decide)
    · exact Node.distinct_of_nodup (show [dot, dotdot].Nodup by decide)
  child {d e j nm} _ _ he hget _ := by
    have hmem := two_slots hget
    have hcases : d = 1 ∧ j = 2 ∨ d = 2 ∧ j = 3 := by
      simp at hmem
      omega
    obtain ⟨rfl, rfl⟩ | ⟨rfl, rfl⟩ := hcases <;> exact ⟨by decide, rfl⟩

theorem two_tree : (twoNames 2).Tree where
  toShaped := two_shaped
  links {j} E hE := by
    have hsub : E ⊆ (if j = 1 then {(1, 1), (2, 1)} else if j = 2 then {(1, 2), (3, 1)}
        else if j = 3 then {(2, 2)} else ∅) := by
      rintro ⟨d, e⟩ hx
      obtain ⟨-, -, he, nm, hget⟩ := hE _ hx
      have hmem := two_slots hget
      simp at hmem he
      rcases hmem with h | h | h | h | h | h | h | h <;> obtain ⟨rfl, rfl, rfl⟩ := h <;>
        simp at he ⊢
    refine le_trans (Nat.cast_le.mpr (Finset.card_le_card hsub)) ?_
    by_cases h1 : j = 1
    · subst h1
      decide
    · by_cases h2 : j = 2
      · subst h2
        decide
      · by_cases h3 : j = 3
        · subst h3
          decide
        · rw [twoNames, if_neg h1, if_neg h2, if_neg h3, if_neg h1, if_neg h2, if_neg h3]
          decide

theorem one_unlinked : (match sysUnlink [47, 97, 47, 98] (twoBoot 1) with
    | .ok r s' => decide (r = 0 ∧ resolve (names s'.disk) 1 [[97], [46]] = none)
    | .error _ _ => false) = true := by
  decide +kernel

end Two

end Nunix.Fs
