/-
Nunix/Fs/NameCalls.lean

The directory calls on the namespace.

What `create`, `sys_link` and `sys_unlink` have done when they return with success: a name was
entered in the directory that `nameiparent` finds, or taken from it, as `Names.make`,
`Names.addName` and `Names.removeName` say.  Inodes without links may have been freed on the
way (`Names.Frees`); nothing is said about calls that fail or stop.
-/
import Nunix.Fs.Paths

namespace Nunix.Fs

open Bytes Hoare
open Function (update update_comm update_idem update_of_ne update_self)

/-- The caller promises nothing. -/
def lax : Promise := ⟨False, False, False, False⟩

/-! ### Paths and changes -/

section Nodes

variable {N N' : Names} {p i : ℕ} {type : Int16} {name path : List UInt8} {c rest : List UInt8}

theorem skipelem_notMem {a : UInt8} (h : skipelem path = some (rest, name)) (ha : a ∉ path) :
    a ∉ rest ∧ a ∉ name := by
  unfold skipelem at h
  split at h
  · cases h
  · rename_i c cs e
    obtain ⟨rfl, rfl⟩ := Prod.mk.inj (Option.some.inj h)
    have hcs : a ∉ c :: cs := fun hm => ha ((e ▸ List.dropWhile_sublist _).subset hm)
    constructor
    · exact fun hm => hcs ((List.dropWhile_sublist _).subset
        ((List.dropWhile_sublist _).subset hm))
    · exact fun hm => hcs ((List.takeWhile_sublist _).subset (List.mem_of_mem_take hm))

theorem components_notMem {a : UInt8} : ∀ {path : List UInt8}, a ∉ path →
    ∀ c ∈ components path, a ∉ c := by
  intro path
  induction hM : path.length using Nat.strong_induction_on generalizing path with
  | _ M ih =>
    intro ha c hc
    rcases e : skipelem path with - | ⟨rest, name⟩
    · rw [components_skipelem_none e] at hc
      cases hc
    · obtain ⟨hrest, hname⟩ := skipelem_notMem e ha
      rw [components_skipelem e] at hc
      rcases List.mem_cons.mp hc with rfl | hc
      · exact hname
      · exact ih _ (hM ▸ skipelem_length e) rfl hrest c hc

/-- The parent of a path is a directory, and the name has no NUL byte. -/
theorem parent_spec {j : ℕ} (h : resolveParent N j (components path) = some (p, name)) :
    (N p).type = T_DIR ∧ ((0 : UInt8) ∉ path → (0 : UInt8) ∉ name) := by
  obtain ⟨cs, hcs, -, ht⟩ := resolveParent_eq_some.mp h
  exact ⟨ht, fun h0 => components_notMem h0 name (by rw [hcs]; simp)⟩

/-- What is found among fewer directories is found. -/
theorem resolve_mono (h : ∀ {d c j}, look N' d c = some j → look N d c = some j) :
    ∀ {cs : List (List UInt8)} {d j : ℕ}, resolve N' d cs = some j → resolve N d cs = some j := by
  intro cs
  induction cs with
  | nil => exact id
  | cons c cs ih =>
      intro d j hr
      rw [resolve_cons] at hr ⊢
      obtain ⟨k, hk, hr⟩ := Option.bind_eq_some_iff.mp hr
      rw [h hk]
      exact ih hr

theorem Names.Frees.look (h : N.Frees N') {d j : ℕ} (hlook : Fs.look N' d c = some j) :
    Fs.look N d c = some j := by
  rw [look_eq_some] at hlook ⊢
  rwa [← h.eq_of_type (i := d) (by rw [hlook.1]; decide)]

/-- The link counts do not matter. -/
theorem look_links {m : Int16} {d : ℕ} :
    look (update N i { N i with nlink := m }) d c = look N d c := by
  by_cases hd : d = i
  · subst hd
    rw [look, update_self]
    rfl
  · rw [look, update_of_ne hd]
    rfl

theorem Names.make_frees (h : N.Frees N') (hp : N' p = N p) :
    (N.make p i type name).Frees (N'.make p i type name) := by
  unfold Names.make
  rw [hp]
  split_ifs
  · exact (h.update _).update _
  · exact (h.update _).update _

theorem Names.removeName_frees {e : ℕ} (h : N.Frees N') (hp : N' p = N p) (hi : N' i = N i) :
    (N.removeName p e i).Frees (N'.removeName p e i) := by
  unfold Names.removeName
  rw [hp, hi]
  split_ifs
  · exact (h.update _).update _
  · exact (h.update _).update _

end Nodes

section Calls

variable {sb : Superblock} {H : List (Disk × ℕ)} {all L : List ℕ} {s s' : FsSt} {N N' : Names}
  {k ip dp i p : ℕ} {name path : List UInt8} {type : Int16}

theorem Ns.loaded_of (h : Ns sb H all L s N) (hL : k ∈ L) (hi : (s.icache k).inum = i) :
    Loaded s k i := hi ▸ h.loaded hL

theorem Ns.beginOp (h : Ns sb H all L s N) : Ns sb H all L s.beginOp N := h.congr rfl rfl rfl

theorem Ns.endOp (h : Ns sb H all L s N) : Ns sb H all L s.endOp N := h.congr rfl rfl rfl

theorem Frame.startOf (h : Frame all s s') (hcwd : s.cwd ∈ all) (path : List UInt8) :
    startOf s' path = startOf s path := by
  rw [Fs.startOf, Fs.startOf, h.cwd, h.inum _ hcwd]

/-! ### create -/

/-- The end of `create`: enter the new inode in its directory. -/
theorem create_link_ns (h : Ns sb H (ip :: dp :: all) [ip, dp] s N) (hne : ip ≠ dp)
    (hip : (s.icache ip).inum = i) (hdp : (s.icache dp).inum = p) (ht : (N p).type = T_DIR)
    (hsize : (N p).size = DESIZE * (N p).slots.length) (hname : (0 : UInt8) ∉ name)
    (hi : i < sb.ninodes) (h16 : i < 2 ^ 16) :
    Wp (do
      if (← dirlink dp name (← slot ip).inum) < 0 then panic .createDirlink
      iunlockput dp
      return some ip) (fun r s' => r = some ip ∧ Frame (ip :: all) s s' ∧ ∃ N',
        Ns sb H (ip :: all) [ip] s' N' ∧ Names.Frees (update N p
          ((N p).put (N p).vacant (i, name.take DIRSIZ))) N') (fun _ _ => True) s := by
  rw [wp_bind, wp_slot, hip]
  refine (dirlink_ns (w := lax) h (h.loaded_of (by simp) hdp) ht hsize (fun hr => hr.elim)
    (fun hv => hv.elim) hname hi h16).lax.seq ?_
  rintro r s₁ (⟨rfl, -⟩ | ⟨rfl, -, hf₁, hn₁⟩)
  · exact wp_ite.mpr ⟨fun _ => trivial, fun hbad => absurd (by decide) hbad⟩
  refine wp_ite.mpr ⟨fun hbad => absurd hbad (by decide), fun _ => ?_⟩
  refine (iunlockput_ns (hn₁.swap.locks fun k => by simp [or_comm])
    (show dp ∉ [ip] by simpa using Ne.symm hne)).seq ?_
  rintro - s₂ ⟨N', hn₂, hf₂, hfrees, -⟩
  have hf₁' : Frame (ip :: all) s s₁ := hf₁.mono fun k hk => by
    rcases List.mem_cons.mp hk with rfl | hk <;> simp [*]
  exact ⟨rfl, hf₁'.trans hf₂, N', hn₂, hfrees⟩

/-- The part of `create` that makes the inode. -/
theorem create_new_ns (h : Ns sb H (dp :: all) [dp] s N) (hsmall : sb.ninodes ≤ 2 ^ 16)
    (hdp : (s.icache dp).inum = p) (ht : (N p).type = T_DIR)
    (hsize : (N p).size = DESIZE * (N p).slots.length) (hname : (0 : UInt8) ∉ name)
    (h0 : type ≠ 0) (major minor : Int16) :
    Wp (do
      let ip ← ialloc type
      ilock ip
      modifySlot ip fun i => { i with major := major, minor := minor, nlink := 1 }
      iupdate ip
      if type = T_DIR then
        modifySlot dp fun i => { i with nlink := i.nlink + 1 }
        iupdate dp
        if (← dirlink ip [46] (← slot ip).inum) < 0 then panic .createDots
        if (← dirlink ip [46, 46] (← slot dp).inum) < 0 then panic .createDots
      if (← dirlink dp name (← slot ip).inum) < 0 then panic .createDirlink
      iunlockput dp
      return some ip) (fun r s' => ∃ k N', r = some k ∧ Frame all s s' ∧
        (N (s'.icache k).inum).type = 0 ∧ (s'.icache k).inum ≠ 0 ∧ Ns sb H (k :: all) [k] s' N' ∧
        (N.make p (s'.icache k).inum type (name.take DIRSIZ)).Frees N') (fun _ _ => True) s := by
  have hp0 : (N p).type ≠ 0 := by
    rw [ht]
    decide
  refine (ialloc_ns (w := lax) h type (fun hr => hr.elim) id).lax.seq ?_
  rintro ip s₁ ⟨i, hfresh, hn₁, hf₁, hip₁⟩
  have hmem := List.mem_range'_1.mp (List.mem_of_find?_eq_some hfresh)
  have hi0 : i ≠ 0 := by omega
  have hin : i < sb.ninodes := by omega
  have hfree : (N i).type = 0 := by simpa using List.find?_some hfresh
  have hip : i ≠ p := by
    rintro rfl
    exact hp0 hfree
  have hdp₁ := (hf₁.inum dp List.mem_cons_self).trans hdp
  have hne : ip ≠ dp := by
    rintro rfl
    exact hip (hip₁.symm.trans hdp₁)
  refine (ilock_ns (w := lax) hn₁ List.mem_cons_self (by simpa using hne) fun hl => hl.elim).lax.seq ?_
  rintro - s₂ ⟨hn₂, hf₂, hl₂⟩
  rw [hip₁] at hl₂
  refine (setLinks_ns hn₂ hl₂ rfl rfl rfl rfl).seq fun _ _ hupd => hupd.seq ?_
  rintro - s₃ ⟨hn₃, hss₃⟩
  have hf₃ : Frame (dp :: all) s s₃ := hf₁.trans (hf₂.tail.trans (hss₃.frame _))
  have hip₃ := (hss₃.inum ip).trans hl₂.inum
  have hdp₃ := (hf₃.inum dp List.mem_cons_self).trans hdp
  have hN₃ : update (update N i (⟨type, 0, 0, []⟩ : Node)) i
      { update N i (⟨type, 0, 0, []⟩ : Node) i with nlink := 1 }
      = update N i ⟨type, 1, 0, []⟩ := by
    rw [update_self, update_idem]
  rw [hN₃] at hn₃
  have hp₃ : update N i (⟨type, 1, 0, []⟩ : Node) p = N p :=
    update_of_ne hip.symm _ _
  rw [wp_ite]
  refine ⟨fun hd => ?_, fun hd => ?_⟩
  · -- a directory: the link from "..", and the entries "." and ".."
    have hldp := hn₃.loaded_of (k := dp) (by simp) hdp₃
    refine (setLinks_ns hn₃ hldp rfl rfl rfl rfl).seq fun _ _ hupd => hupd.seq ?_
    rintro - s₄ ⟨hn₄, hss₄⟩
    have hip₄ := (hss₄.inum ip).trans hip₃
    have hdp₄ := (hss₄.inum dp).trans hdp₃
    subst hd
    rw [show (s₃.icache dp).nlink = (N p).nlink by rw [hn₃.nlink_eq hldp, hp₃], hp₃] at hn₄
    -- the new directory with the entries `xs`
    have hi₄ : ∀ m : Node, update (update N i m) p { N p with nlink := (N p).nlink + 1 } i = m := by
      intro m
      rw [update_of_ne hip, update_self]
    rw [wp_bind, wp_slot, hip₄]
    refine (dirlink_ns (w := lax) hn₄ (hn₄.loaded_of (by simp) hip₄) (by rw [hi₄])
      (by rw [hi₄]; rfl) (fun hr => hr.elim) (fun hv => hv.elim) (by decide) hin
      (hin.trans_le hsmall)).lax.seq ?_
    rintro r s₅ (⟨rfl, -⟩ | ⟨rfl, -, hf₅, hn₅⟩)
    · exact wp_ite.mpr ⟨fun _ => trivial, fun hbad => absurd (by decide) hbad⟩
    refine wp_ite.mpr ⟨fun hbad => absurd hbad (by decide), fun _ => ?_⟩
    have hip₅ := (hf₅.inum ip (by simp)).trans hip₄
    have hdp₅ := (hf₅.inum dp (by simp)).trans hdp₄
    have hdot : (⟨T_DIR, 1, 0, []⟩ : Node).put (⟨T_DIR, 1, 0, []⟩ : Node).vacant
        (i, List.take DIRSIZ [46]) = ⟨T_DIR, 1, DESIZE, [(i, dot)]⟩ := rfl
    rw [hi₄, update_comm hip.symm, update_idem, hdot] at hn₅
    have hvacant : (⟨T_DIR, 1, DESIZE, [(i, dot)]⟩ : Node).vacant = 1 := by
      simp [Node.vacant, vacantFrom, hi0]
    rw [wp_bind, wp_slot, hdp₅]
    refine (dirlink_ns (w := lax) hn₅ (hn₅.loaded_of (by simp) hip₅) (by rw [hi₄])
      (by rw [hi₄]; rfl) (fun hr => hr.elim) (fun hv => hv.elim) (by decide)
      (h.lt_of_type hp0) ((h.lt_of_type hp0).trans_le hsmall)).lax.seq ?_
    rintro r s₆ (⟨rfl, -⟩ | ⟨rfl, -, hf₆, hn₆⟩)
    · exact wp_ite.mpr ⟨fun _ => trivial, fun hbad => absurd (by decide) hbad⟩
    refine wp_ite.mpr ⟨fun hbad => absurd hbad (by decide), fun _ => ?_⟩
    have hip₆ := (hf₆.inum ip (by simp)).trans hip₅
    have hdp₆ := (hf₆.inum dp (by simp)).trans hdp₅
    rw [hi₄, hvacant, update_comm hip.symm, update_idem] at hn₆
    have hp₆ : ∀ m : Node, update (update N i m) p
        { N p with nlink := (N p).nlink + 1 } p = { N p with nlink := (N p).nlink + 1 } :=
      fun m => update_self ..
    refine (create_link_ns hn₆ hne hip₆ hdp₆ (by rw [hp₆]; exact ht) (by rw [hp₆]; exact hsize) hname
      hin (hin.trans_le hsmall)).imp ?_
    rintro r s₇ ⟨rfl, hf₇, N', hn₇, hfrees⟩
    have hip₇ := (hf₇.inum ip (by simp)).trans hip₆
    refine ⟨ip, N', rfl, ?_, by rwa [hip₇], by rwa [hip₇], hn₇, ?_⟩
    · exact (hf₃.trans ((hss₄.frame _).trans (hf₅.tail.trans hf₆.tail))).tail.trans hf₇.tail
    · rw [hp₆, update_idem] at hfrees
      rw [hip₇, Names.make, if_pos rfl]
      exact hfrees
  · refine (create_link_ns hn₃ hne hip₃ hdp₃ (by rw [hp₃]; exact ht) (by rw [hp₃]; exact hsize) hname
      hin (hin.trans_le hsmall)).imp ?_
    rintro r s₄ ⟨rfl, hf₄, N', hn₄, hfrees⟩
    have hip₄ := (hf₄.inum ip (by simp)).trans hip₃
    refine ⟨ip, N', rfl, hf₃.tail.trans hf₄.tail, by rwa [hip₄], by rwa [hip₄], hn₄, ?_⟩
    rw [hp₃] at hfrees
    rw [hip₄, Names.make, if_neg hd]
    exact hfrees

/-- `create` has found the inode `i`, or made it. -/
def Created (N N' : Names) (p i : ℕ) (name : List UInt8) (type : Int16) : Prop :=
  (∃ e, (N p).find name = some (i, e)) ∧ N.Frees N' ∨
    (N p).find name = none ∧ i ≠ 0 ∧ ((N i).type = 0 ∨ (N i).nlink = 0) ∧
      (N.make p i type (name.take DIRSIZ)).Frees N'

section State

variable (h : Ns sb H all [] s N) (hwhole : N.Whole) (hcwd : s.cwd ∈ all)
  (hroot : ROOTINO < sb.ninodes)

include h hwhole hcwd hroot

theorem create_ns (hsmall : sb.ninodes ≤ 2 ^ 16) (hpath : (0 : UInt8) ∉ path) (h0 : type ≠ 0)
    (major minor : Int16) :
    Wp (create path type major minor) (fun r s' => ∀ k, r = some k → ∃ p name N',
      resolveParent N (startOf s path) (components path) = some (p, name) ∧
      Ns sb H (k :: all) [k] s' N' ∧ Created N N' p (s'.icache k).inum name type)
      (fun _ _ => True) s := by
  unfold create nameiparent
  refine (namex_ns (w := lax) h hwhole hcwd hroot path (fun hl => hl.elim) (fun hr => hr.elim)
    true).lax.seq ?_
  rintro (- | ⟨dp, name⟩) s₁ ⟨hf₁, hleads, N₁, hfr₁, -, hn₁⟩
  · exact fun k hk => nomatch hk
  have hleads : resolveParent N (startOf s path) (components path)
      = some ((s₁.icache dp).inum, name) := hleads.symm
  obtain ⟨ht, hname⟩ := parent_spec hleads
  set p := (s₁.icache dp).inum with hp
  refine (ilock_ns (w := lax) hn₁ List.mem_cons_self List.not_mem_nil fun hl => hl.elim).lax.seq ?_
  rintro - s₂ ⟨hn₂, hf₂, hl₂⟩
  have hNp : N₁ p = N p := hfr₁.eq_of_type (hn₂.type_ne hl₂)
  refine (dirlookup_ns (w := lax) hn₂ hl₂ (by rw [hNp, ht]) (by rw [hNp]; exact hwhole p ht)
    (fun hr => hr.elim) name).lax.seq ?_
  rw [hNp]
  rcases hfind : (N p).find name with - | ⟨j, off⟩
  · -- a new inode
    rintro r s₃ ⟨rfl, rfl⟩
    refine (create_new_ns hn₂ hsmall hl₂.inum (by rw [hNp, ht]) (by rw [hNp]; exact hwhole p ht)
      (hname hpath) h0 major minor).imp ?_
    rintro r s₄ ⟨k, N', rfl, hf₄, hfree, hi0, hn₄, hfrees⟩ k' hk'
    obtain rfl := Option.some.inj hk'
    refine ⟨p, name, N', hleads, hn₄, Or.inr ⟨hfind, hi0, ?_,
      (Names.make_frees hfr₁ hNp).trans hfrees⟩⟩
    rcases hfr₁ (s₄.icache k).inum with heq | ⟨-, hl⟩
    · exact Or.inl (heq ▸ hfree)
    · exact Or.inr hl
  · -- the name is there
    rintro r s₃ ⟨ip, rfl, hn₃, hf₃, hip₃⟩
    refine (iunlockput_ns hn₃.swap List.not_mem_nil).seq ?_
    rintro - s₄ ⟨N₄, hn₄, hf₄, hfr₄, -⟩
    have hip₄ := (hf₄.inum ip List.mem_cons_self).trans hip₃
    refine (ilock_ns (w := lax) hn₄ List.mem_cons_self List.not_mem_nil fun hl => hl.elim).lax.seq ?_
    rintro - s₅ ⟨hn₅, hf₅, hl₅⟩
    rw [wp_bind, wp_slot, wp_ite]
    refine ⟨fun _ k hk => ?_, fun _ => wp_any.seq fun _ _ _ k hk => nomatch hk⟩
    obtain rfl := Option.some.inj hk
    refine ⟨p, name, N₄, hleads, hn₅, Or.inl ⟨⟨off, ?_⟩, hfr₁.trans hfr₄⟩⟩
    rw [hfind, hl₅.inum, hip₄]

/-! ### sys_link -/

theorem sysLink_ns (hsmall : sb.ninodes ≤ 2 ^ 16) {old new : List UInt8}
    (hnew : (0 : UInt8) ∉ new) :
    Wp (sysLink old new) (fun r s' => r = 0 → ∃ i p name N',
      resolve N (startOf s old) (components old) = some i ∧ (N i).type ≠ 0 ∧
      (N i).type ≠ T_DIR ∧
      resolveParent N (startOf s new) (components new) = some (p, name) ∧
      (N p).find name = none ∧ Ns sb H all [] s' N' ∧
      (N.addName p i (name.take DIRSIZ)).Frees N') (fun _ _ => True) s := by
  have hbad : ∀ {ip : ℕ} {s : FsSt} {P : FsSt → Prop},
      Wp (sysLinkBad ip) (fun r s' => r = 0 → P s') (fun _ _ => True) s := fun {_ _ _} =>
    wp_any.seq fun _ _ _ => wp_any.seq fun _ _ _ => wp_any.seq fun _ _ _ => wp_any.seq fun _ _ _ =>
      wp_any.seq fun _ _ _ h0 => absurd h0 (by decide)
  unfold sysLink namei
  rw [wp_bind, wp_beginOp, wp_bind, wp_bind]
  refine (namex_ns (w := lax) h.beginOp hwhole hcwd hroot old (fun hl => hl.elim)
    (fun hr => hr.elim) false).lax.imp ?_
  rintro (- | ⟨ip, nm⟩) s₁ ⟨hf₁, hleads, N₁, hfr₁, -, hn₁⟩
  · rw [wp_pure]
    exact wp_any.seq fun _ _ _ h0 => absurd h0 (by decide)
  have hf₁ : Frame all s s₁ := ⟨hf₁.inum, hf₁.valid, hf₁.cwd⟩
  have hold : resolve N (startOf s old) (components old) = some (s₁.icache ip).inum := hleads.symm
  set i := (s₁.icache ip).inum with hi
  refine (ilock_ns (w := lax) hn₁ List.mem_cons_self List.not_mem_nil fun hl => hl.elim).lax.seq ?_
  rintro - s₂ ⟨hn₂, hf₂, hl₂⟩
  have hNi : N₁ i = N i := hfr₁.eq_of_type (hn₂.type_ne hl₂)
  have hit : (N i).type ≠ 0 := hNi ▸ hn₂.type_ne hl₂
  rw [wp_bind, wp_slot, wp_ite, hn₂.type_eq hl₂, hNi]
  refine ⟨fun _ => wp_any.seq fun _ _ _ => wp_any.seq fun _ _ _ h0 => absurd h0 (by decide),
    fun hnd => ?_⟩
  refine (setLinks_ns hn₂ hl₂ rfl rfl rfl rfl).seq fun _ _ hupd => hupd.seq ?_
  rintro - s₃ ⟨hn₃, hss₃⟩
  rw [show (s₂.icache ip).nlink + 1 = (N i).nlink + 1 by rw [hn₂.nlink_eq hl₂, hNi], hNi] at hn₃
  have hl₃ := hss₃.loaded hl₂
  refine (iunlock_ns hn₃ List.not_mem_nil).seq ?_
  rintro - s₄ ⟨hn₄, hf₄, -⟩
  have hip₄ := (hf₄.inum ip List.mem_cons_self).trans hl₃.inum
  have hf₄ := (hf₁.trans (hf₂.tail.trans (hss₃.frame all))).trans hf₄.tail
  -- the path to the new name, with the link counted
  set N₂ := update N₁ i { N i with nlink := (N i).nlink + 1 } with hN₂
  have hN₂_eq : N₂ = update N₁ i { N₁ i with nlink := (N i).nlink + 1 } := by rw [hN₂, hNi]
  have hother : ∀ d, d ≠ i → N₂ d = N₁ d := fun d hd => update_of_ne hd _ _
  have hlook : ∀ {d c j}, look N₂ d c = some j → look N d c = some j := fun {d c j} hj => by
    rw [hN₂_eq, look_links] at hj
    exact hfr₁.look hj
  have hdir : ∀ {d}, (N₂ d).type = T_DIR → d ≠ i ∧ N₂ d = N d := fun {d} hd => by
    have hne : d ≠ i := by
      rintro rfl
      rw [hN₂, update_self] at hd
      exact hnd hd
    rw [hother d hne] at hd ⊢
    exact ⟨hne, hfr₁.eq_of_type (by rw [hd]; decide)⟩
  have hcwd₄ : s₄.cwd ∈ ip :: all := by
    rw [hf₄.cwd]
    exact List.mem_cons_of_mem ip hcwd
  refine (namex_ns (w := lax) hn₄ (fun d hd => ?_) hcwd₄ hroot new (fun hl => hl.elim)
    (fun hr => hr.elim) true).lax.seq ?_
  · have hN₂d := (hdir hd).2
    rw [hN₂d] at hd ⊢
    exact hwhole d hd
  rintro (- | ⟨dp, name⟩) s₅ ⟨hf₅, hleads, N₃, hfr₃, -, hn₅⟩
  · exact hbad
  obtain ⟨cs, hcs, hres, ht⟩ := resolveParent_eq_some.mp hleads.symm
  set p := (s₅.icache dp).inum with hp
  rw [hf₄.startOf hcwd] at hres
  obtain ⟨hpi, hN₂p⟩ := hdir ht
  rw [hN₂p] at ht
  have hparent : resolveParent N (startOf s new) (components new) = some (p, name) :=
    resolveParent_eq_some.mpr ⟨cs, hcs, resolve_mono hlook hres, ht⟩
  refine (ilock_ns (w := lax) hn₅ List.mem_cons_self List.not_mem_nil fun hl => hl.elim).lax.seq ?_
  rintro - s₆ ⟨hn₆, hf₆, hl₆⟩
  have hN₃p : N₃ p = N p := (hfr₃.eq_of_type (hn₆.type_ne hl₆)).trans hN₂p
  have hip₆ : (s₆.icache ip).inum = i :=
    (hf₆.inum ip (by simp)).trans ((hf₅.inum ip List.mem_cons_self).trans hip₄)
  have hilt := h.lt_of_type hit
  rw [wp_bind, wp_slot, hip₆]
  refine (dirlink_ns (w := lax) hn₆ hl₆ (by rw [hN₃p, ht]) (by rw [hN₃p]; exact hwhole p ht)
    (fun hr => hr.elim) (fun hv => hv.elim) ((parent_spec hparent).2 hnew) hilt
    (hilt.trans_le hsmall)).lax.seq ?_
  rintro r s₇ (⟨rfl, -⟩ | ⟨rfl, hfind, -, hn₇⟩)
  · exact wp_ite.mpr ⟨fun _ => wp_any.seq fun _ _ _ => hbad, fun hno => absurd (by decide) hno⟩
  rw [hN₃p] at hfind hn₇
  refine wp_ite.mpr ⟨fun hno => absurd hno (by decide), fun _ => ?_⟩
  refine (iunlockput_ns hn₇ List.not_mem_nil).seq ?_
  rintro - s₈ ⟨N₄, hn₈, -, hfr₄, -⟩
  refine (iput_ns hn₈ (fun hk => nomatch hk)).seq ?_
  rintro - s₉ ⟨N', hn₉, -, hfr', -⟩
  rw [wp_bind, wp_endOp, wp_pure]
  refine fun _ => ⟨i, p, name, N', hold, hit, hnd, hparent, hfind, hn₉.endOp,
    Names.Frees.trans (Names.Frees.update ?_ _) (hfr₄.trans hfr')⟩
  exact (hfr₁.update _).trans hfr₃

/-! ### sys_unlink -/

omit h hwhole hcwd hroot in
/-- The end of `sys_unlink`, after the entry was cleared: the inode loses its link, and the
references are given up. -/
theorem sysUnlink_end_ns (h : Ns sb H (ip :: dp :: all) [ip, dp] s N) (hne : ip ≠ dp)
    (hip : (s.icache ip).inum = i) :
    Wp (sysUnlinkEnd dp ip) (fun _ s' => ∃ N', Ns sb H all [] s' N' ∧
        Names.Frees (update N i { N i with nlink := (N i).nlink - 1 }) N') (fun _ _ => True) s := by
  refine (iunlockput_ns (h.swap.locks fun k => by simp [or_comm])
    (show dp ∉ [ip] by simpa using Ne.symm hne)).seq ?_
  rintro - s₁ ⟨N₁, hn₁, hf₁, hfr₁, -⟩
  have hip₁ := (hf₁.inum ip List.mem_cons_self).trans hip
  have hl₁ := hn₁.loaded_of List.mem_cons_self hip₁
  have hN₁i : N₁ i = N i := hfr₁.eq_of_type (hn₁.type_ne hl₁)
  refine (setLinks_ns hn₁ hl₁ rfl rfl rfl rfl).seq fun _ _ hupd => hupd.seq ?_
  rintro - s₂ ⟨hn₂, hss₂⟩
  rw [show (s₁.icache ip).nlink - 1 = (N i).nlink - 1 by rw [hn₁.nlink_eq hl₁, hN₁i], hN₁i] at hn₂
  refine (iunlockput_ns hn₂ List.not_mem_nil).seq ?_
  rintro - s₃ ⟨N₃, hn₃, -, hfr₃, -⟩
  rw [wp_bind, wp_endOp, wp_pure]
  exact ⟨N₃, hn₃.endOp, (hfr₁.update _).trans hfr₃⟩

omit h hwhole hcwd hroot in
/-- The part of `sys_unlink` that clears the entry. -/
theorem sysUnlink_clear_ns (h : Ns sb H (ip :: dp :: all) [ip, dp] s N) (hne : ip ≠ dp)
    (hip : (s.icache ip).inum = i) (hdp : (s.icache dp).inum = p) (hpi : p ≠ i)
    (ht : (N p).type = T_DIR) (hsize : (N p).size = DESIZE * (N p).slots.length) {e : ℕ}
    (he : e < (N p).slots.length) :
    Wp (sysUnlinkClear dp ip (DESIZE * e)) (fun _ s' => ∃ N', Ns sb H all [] s' N' ∧ (N.removeName p e i).Frees N')
      (fun _ _ => True) s := by
  have hldp := h.loaded_of (k := dp) (by simp) hdp
  have hzero : deInum Bytes.zero = 0 := get16_zero 0
  have hname : deName Bytes.zero = [] := by decide
  have h0 : deInum Bytes.zero < sb.ninodes := by
    rw [hzero]
    exact Nat.zero_lt_of_lt (h.inum_lt List.mem_cons_self)
  refine (h.write_entry (w := lax) hldp ht hsize he.le h0 fun _ => he).lax.seq ?_
  rintro r s₁ ⟨hss₁, ⟨-, -, hbad⟩ | ⟨rfl, hn₁⟩⟩
  · exact absurd he hbad
  rw [hzero, hname] at hn₁
  have hip₁ := (hss₁.inum ip).trans hip
  have hdp₁ := (hss₁.inum dp).trans hdp
  have hlip₁ := hn₁.loaded_of (k := ip) (by simp) hip₁
  have hldp₁ := hn₁.loaded_of (k := dp) (by simp) hdp₁
  have hN₁i : update N p ((N p).put e (0, [])) i = N i := update_of_ne hpi.symm _ _
  refine wp_ite.mpr ⟨fun hbad => absurd rfl hbad, fun _ => ?_⟩
  rw [wp_bind, wp_slot, wp_ite, hn₁.type_eq hlip₁, hN₁i]
  refine ⟨fun hd => ?_, fun hd => ?_⟩
  · refine (setLinks_ns hn₁ hldp₁ rfl rfl rfl rfl).seq fun _ _ hupd => hupd.seq ?_
    rintro - s₂ ⟨hn₂, hss₂⟩
    have hnlink : (s₁.icache dp).nlink - 1 = (N p).nlink - 1 := by
      rw [hn₁.nlink_eq hldp₁, update_self, Node.put_nlink]
    rw [hnlink, update_self, update_idem] at hn₂
    refine (sysUnlink_end_ns hn₂ hne ((hss₂.inum ip).trans hip₁)).imp ?_
    rintro r s' ⟨N', hn', hfrees⟩
    rw [update_of_ne hpi.symm] at hfrees
    exact ⟨N', hn', by rwa [Names.removeName, if_pos hd]⟩
  · refine (sysUnlink_end_ns hn₁ hne hip₁).imp ?_
    rintro r s' ⟨N', hn', hfrees⟩
    rw [hN₁i] at hfrees
    exact ⟨N', hn', by rwa [Names.removeName, if_neg hd]⟩

theorem sysUnlink_ns :
    Wp (sysUnlink path) (fun r s' => r = 0 → ∃ p name e i N',
      resolveParent N (startOf s path) (components path) = some (p, name) ∧
      (N p).find name = some (i, e) ∧ namecmp name [46] = true ∧ namecmp name [46, 46] = true ∧
      p ≠ i ∧ ((N i).type = T_DIR → (N i).isEmpty = true) ∧ Ns sb H all [] s' N' ∧
      (N.removeName p e i).Frees N') (fun _ _ => True) s := by
  have hbad : ∀ {dp : ℕ} {s : FsSt} {P : FsSt → Prop},
      Wp (sysUnlinkBad dp) (fun r s' => r = 0 → P s') (fun _ _ => True) s := fun {_ _ _} =>
    wp_any.seq fun _ _ _ => wp_any.seq fun _ _ _ h0 => absurd h0 (by decide)
  unfold sysUnlink nameiparent
  rw [wp_bind, wp_beginOp]
  refine (namex_ns (w := lax) h.beginOp hwhole hcwd hroot path (fun hl => hl.elim)
    (fun hr => hr.elim) true).lax.seq ?_
  rintro (- | ⟨dp, name⟩) s₁ ⟨-, hleads, N₁, hfr₁, -, hn₁⟩
  · exact wp_any.seq fun _ _ _ h0 => absurd h0 (by decide)
  have hleads : resolveParent N (startOf s path) (components path)
      = some ((s₁.icache dp).inum, name) := hleads.symm
  obtain ⟨ht, -⟩ := parent_spec hleads
  set p := (s₁.icache dp).inum with hp
  refine (ilock_ns (w := lax) hn₁ List.mem_cons_self List.not_mem_nil fun hl => hl.elim).lax.seq ?_
  rintro - s₂ ⟨hn₂, -, hl₂⟩
  have hNp : N₁ p = N p := hfr₁.eq_of_type (hn₂.type_ne hl₂)
  refine wp_ite.mpr ⟨fun _ => hbad, fun hdots => ?_⟩
  have hcmp : namecmp name [46] = true ∧ namecmp name [46, 46] = true := by simpa using hdots
  refine (dirlookup_ns (w := lax) hn₂ hl₂ (by rw [hNp, ht]) (by rw [hNp]; exact hwhole p ht)
    (fun hr => hr.elim) name).lax.seq ?_
  rw [hNp]
  rcases hfind : (N p).find name with - | ⟨i, off⟩
  · rintro r s₃ ⟨rfl, rfl⟩
    exact hbad
  rintro r s₃ ⟨ip, rfl, hn₃, hf₃, hip₃⟩
  have hdp₃ := (hf₃.inum dp List.mem_cons_self).trans hl₂.inum
  by_cases hne : ip = dp
  · exact (ilock_locked hn₃ (by simp [hne])).seq (Q := fun _ _ => False) fun _ _ hq => hq.elim
  have hpi : p ≠ i := fun heq => hne (hn₃.slot_inj List.mem_cons_self (by simp)
    (hip₃.trans (heq.symm.trans hdp₃.symm)))
  refine (ilock_ns (w := lax) hn₃ List.mem_cons_self (by simpa using hne) fun hl => hl.elim).lax.seq ?_
  rintro - s₄ ⟨hn₄, hf₄, hl₄⟩
  rw [hip₃] at hl₄
  have hdp₄ := (hf₄.inum dp (by simp)).trans hdp₃
  have hNi : N₁ i = N i := hfr₁.eq_of_type (hn₄.type_ne hl₄)
  obtain ⟨hlt, -⟩ := List.getElem?_eq_some_iff.mp (Node.find_eq_some hfind).1
  have hclear := sysUnlink_clear_ns hn₄ hne hl₄.inum hdp₄ hpi (by rw [hNp, ht])
    (by rw [hNp]; exact hwhole p ht) (e := off) (by rwa [hNp])
  have hdone : ((N i).type = T_DIR → (N i).isEmpty = true) → ∀ (r : ℤ) s',
      (∃ N', Ns sb H all [] s' N' ∧ (N₁.removeName p off i).Frees N') → r = 0 → ∃ p name e i N',
      resolveParent N (startOf s path) (components path) = some (p, name) ∧
      (N p).find name = some (i, e) ∧ namecmp name [46] = true ∧ namecmp name [46, 46] = true ∧
      p ≠ i ∧ ((N i).type = T_DIR → (N i).isEmpty = true) ∧ Ns sb H all [] s' N' ∧
      (N.removeName p e i).Frees N' := by
    rintro hempty r s' ⟨N', hn', hfrees⟩ -
    exact ⟨p, name, off, i, N', hleads, hfind, hcmp.1, hcmp.2, hpi, hempty, hn',
      (Names.removeName_frees hfr₁ hNp hNi).trans hfrees⟩
  rw [wp_bind, wp_slot, wp_ite]
  refine ⟨fun _ => trivial, fun _ => ?_⟩
  rw [wp_bind, wp_slot, wp_ite, hn₄.type_eq hl₄, hNi]
  refine ⟨fun hd => ?_, fun hd => hclear.imp (hdone fun hbad => absurd hbad hd)⟩
  -- only an empty directory is removed
  refine (isdirempty_ns hn₄ hl₄ (by rw [hNi, hd]) (by rw [hNi]; exact hwhole i hd)).seq ?_
  rintro empty s₅ ⟨rfl, rfl⟩
  rw [hNi]
  refine wp_ite.mpr ⟨fun _ => wp_any.seq fun _ _ _ => hbad, fun hempty => ?_⟩
  exact hclear.imp (hdone fun _ => by simpa using hempty)

end State

end Calls

end Nunix.Fs
