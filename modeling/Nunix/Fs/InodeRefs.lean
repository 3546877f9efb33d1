/-
Nunix/Fs/InodeRefs.lean

References to cached inodes are balanced.

`Refd n B c s` says that cache entry `k` is referenced `n k` times, that the entries in `B`
are the locked ones, and that `c` is the current directory.  No assumption is made about
the disk: a function that finds nonsense panics or waits for a lock it holds, and one that
returns has taken and dropped references as its specification says.  The contents of
inodes do not matter (`Inert`), so the argument is about `iget`, `iput` and the locks only.

A call starts and ends with nothing locked and one reference for each open inode file and
each current directory (`Balanced`).
-/
import Nunix.Fs.Frames
import Nunix.Fs.FileTable
import Nunix.Fs.Ops

namespace Nunix.Fs

open Hoare Runs
open Function (update update_of_ne update_self)

/-! ### References and locks -/

/-- The reference counts and locks of the cache, and the current directory. -/
def marks (s : FsSt) : (ℕ → ℤ × Bool) × ℕ := (fun k => ((s.icache k).ref, (s.icache k).busy), s.cwd)

/-- One more reference to `k`. -/
def plus (n : ℕ → ℕ) (k : ℕ) : ℕ → ℕ := update n k (n k + 1)

structure Refd (n : ℕ → ℕ) (B : Finset ℕ) (c : ℕ) (s : FsSt) : Prop where
  marks : marks s = (fun k => ((n k : ℤ), decide (k ∈ B)), c)
  held : ∀ k ∈ B, 0 < n k

variable {n : ℕ → ℕ} {B : Finset ℕ} {c k j dp ip : ℕ} {s s' : FsSt} {α : Type} {Q : α → FsSt → Prop}
variable {m : FsM α}

theorem plus_self (n : ℕ → ℕ) (k : ℕ) : plus n k k = n k + 1 := update_self ..

theorem plus_of_ne (h : j ≠ k) : plus n k j = n j := update_of_ne h ..

theorem plus_comm (n : ℕ → ℕ) (j k : ℕ) : plus (plus n j) k = plus (plus n k) j := by
  funext i
  unfold plus
  by_cases hj : i = j <;> by_cases hk : i = k <;> by_cases hjk : j = k <;>
    simp_all [update_of_ne]

theorem le_plus (n : ℕ → ℕ) (j k : ℕ) : n j ≤ plus n k j := by
  by_cases h : j = k
  · rw [h, plus_self]
    omega
  · rw [plus_of_ne h]

/-- Contents do not matter. -/
theorem inert_marks : Inert marks where
  note _ _ := rfl
  logWrite _ _ _ _ := rfl
  ballocs _ _ := rfl
  slot s k ip hr hb := by
    unfold marks
    refine Prod.ext (funext fun j => ?_) rfl
    by_cases hj : j = k
    · subst hj
      simp [hr, hb]
    · simp [hj]

namespace Refd

theorem ref (h : Refd n B c s) (k : ℕ) : (s.icache k).ref = n k :=
  congrArg (fun m => (m.1 k).1) h.marks

theorem busy (h : Refd n B c s) (k : ℕ) : (s.icache k).busy = decide (k ∈ B) :=
  congrArg (fun m => (m.1 k).2) h.marks

theorem cwd (h : Refd n B c s) : s.cwd = c := congrArg (fun m => m.2) h.marks

theorem leaves (h : Refd n B c s) (hm : Leaves Fs.marks m) :
    Wp m (fun _ s' => Refd n B c s') (fun _ _ => True) s :=
  (hm s).mono (fun _ _ hs => ⟨hs.trans h.marks, h.held⟩) fun _ _ _ => trivial

/-- One cache entry changes. -/
theorem setSlot (h : Refd n B c s) {n' : ℕ → ℕ} {B' : Finset ℕ} {ip : Inode} (href : ip.ref = n' k)
    (hbusy : ip.busy = decide (k ∈ B')) (hn : ∀ j, j ≠ k → n' j = n j)
    (hB : ∀ j, j ≠ k → (j ∈ B' ↔ j ∈ B)) (hheld : k ∈ B' → 0 < n' k) :
    Refd n' B' c { s with icache := update s.icache k ip } := by
  refine ⟨Prod.ext (funext fun j => ?_) h.cwd, fun j hj => ?_⟩ <;> by_cases hjk : j = k
  · subst hjk
    simp [Fs.marks, href, hbusy]
  · simp [Fs.marks, hjk, h.ref j, h.busy j, hn j hjk, hB j hjk]
  · exact hjk ▸ hheld (hjk ▸ hj)
  · rw [hn j hjk]
    exact h.held j ((hB j hjk).mp hj)

/-- A cache entry changes in its contents only. -/
theorem touch (h : Refd n B c s) {ip : Inode} (href : ip.ref = (s.icache k).ref)
    (hbusy : ip.busy = (s.icache k).busy) :
    Refd n B c { s with icache := update s.icache k ip } :=
  ⟨(inert_marks.slot s k ip href hbusy).trans h.marks, h.held⟩

end Refd

theorem iget_refd (h : Refd n B c s) (i : ℕ) :
    Wp (iget i) (fun k s' => Refd (plus n k) B c s') (fun _ _ => True) s := by
  refine wp_iget (fun k _ _ => ?_) (fun k _ h0 _ => ?_) fun _ _ => trivial
  · refine h.setSlot ?_ (h.busy k) (fun j hj => plus_of_ne hj) (fun _ _ => Iff.rfl)
      fun hk => (h.held k hk).trans_le (le_plus n k k)
    simp only [h.ref k, plus_self]
    push_cast
    rfl
  · have hn : n k = 0 := by exact_mod_cast (h.ref k).symm.trans h0
    have hk : k ∉ B := fun hk => absurd (h.held k hk) (by omega)
    refine h.setSlot ?_ (by simp [hk]) (fun j hj => plus_of_ne hj) (fun _ _ => Iff.rfl)
      fun hk' => absurd hk' hk
    simp [plus_self, hn]

theorem idup_refd (h : Refd n B c s) (k : ℕ) :
    Wp (idup k) (fun k' s' => k' = k ∧ Refd (plus n k) B c s') (fun _ _ => True) s := by
  unfold idup modifySlot
  simp only [wp_bind, wp_modify, wp_pure, true_and]
  refine h.setSlot ?_ (h.busy k) (fun j hj => plus_of_ne hj) (fun _ _ => Iff.rfl)
    fun hk => (h.held k hk).trans_le (le_plus n k k)
  simp only [h.ref k, plus_self]
  push_cast
  rfl

theorem ilock_refd (h : Refd n B c s) (k : ℕ) :
    Wp (ilock k) (fun _ s' => k ∉ B ∧ Refd n (insert k B) c s') (fun _ _ => True) s := by
  unfold ilock modifySlot slot panic
  simp only [wp_bind, wp_get, wp_pure, wp_ite, wp_throw, wp_modify]
  refine ⟨fun _ => trivial, fun hpos => ⟨fun _ => trivial, fun hbusy => ?_⟩⟩
  have href := h.ref k
  have hk : k ∉ B := by simpa [h.busy k] using hbusy
  have h₁ : Refd n (insert k B) c { s with
      icache := update s.icache k { s.icache k with busy := true } } :=
    h.setSlot href (by simp) (fun _ _ => rfl) (fun j hj => by simp [hj]) fun _ => by omega
  refine ⟨fun _ => ?_, fun _ => ⟨hk, h₁⟩⟩
  exact ⟨fun _ => trivial, fun _ => ⟨hk, h₁.touch rfl rfl⟩⟩

theorem iunlock_refd (h : Refd n (insert k B) c s) (hk : k ∉ B) :
    Wp (iunlock k) (fun _ s' => Refd n B c s') (fun _ _ => True) s := by
  unfold iunlock modifySlot slot panic
  simp only [wp_bind, wp_get, wp_pure, wp_ite, wp_throw, wp_modify]
  refine ⟨fun _ => trivial, fun _ => ?_⟩
  exact h.setSlot (h.ref k) (by simp [hk]) (fun _ _ => rfl) (fun j hj => by simp [hj])
    fun hk' => absurd hk' hk

/-- The end of `iput`. -/
theorem Refd.dropRef (h : Refd (plus n k) B c s) (hB : ∀ b ∈ B, 0 < n b) :
    Refd n B c { s with
      icache := update s.icache k { s.icache k with ref := (s.icache k).ref - 1 } } := by
  refine h.setSlot ?_ (h.busy k) (fun j hj => (plus_of_ne hj).symm) (fun _ _ => Iff.rfl) (hB k)
  simp only [h.ref k, plus_self]
  push_cast
  omega

theorem iput_refd (h : Refd (plus n k) B c s) (hB : ∀ b ∈ B, 0 < n b) :
    Wp (iput k) (fun _ s' => Refd n B c s') (fun _ _ => True) s := by
  unfold iput
  refine (h.leaves (inert_marks.takes.moves_note rfl)).seq fun _ s h => ?_
  unfold slot panic modifySlot
  simp only [wp_bind, wp_get, wp_pure, wp_ite, wp_throw, wp_modify]
  refine ⟨fun hlast => ⟨fun _ => trivial, fun hbusy => ?_⟩, fun _ => h.dropRef hB⟩
  have hk : k ∉ B := by simpa [h.busy k] using hbusy
  -- the entry is locked while its blocks are freed
  have h₁ : Refd (plus n k) (insert k B) c { s with
      icache := update s.icache k { s.icache k with busy := true } } := by
    refine h.setSlot (h.ref k) (by simp) (fun _ _ => rfl) (fun j hj => by simp [hj]) fun _ => ?_
    rw [plus_self]
    omega
  refine (h₁.leaves (inert_marks.takes.moves_itrunc k)).imp fun _ s h => ?_
  simp only [wp_bind, wp_modify]
  refine (Refd.leaves (n := plus n k) (B := insert k B) (c := c) ?_
    (inert_marks.takes.moves_iupdate k)).imp fun _ s h => ?_
  · exact h.touch rfl rfl
  have h₂ : Refd (plus n k) B c { s with
      icache := update s.icache k { s.icache k with busy := false, valid := false } } :=
    h.setSlot (h.ref k) (by simp [hk]) (fun _ _ => rfl) (fun j hj => by simp [hj])
      fun hk' => absurd hk' hk
  exact h₂.dropRef hB

theorem iunlockput_refd (h : Refd (plus n k) (insert k B) c s) (hk : k ∉ B)
    (hB : ∀ b ∈ B, 0 < n b) :
    Wp (iunlockput k) (fun _ s' => Refd n B c s') (fun _ _ => True) s :=
  (iunlock_refd h hk).seq fun _ _ h' => iput_refd h' hB

/-! ### Directories and paths -/

/-- A search that may have found an entry: it is referenced once more. -/
def Got (n : ℕ → ℕ) (B : Finset ℕ) (c : ℕ) (s : FsSt) : Option ℕ → Prop
  | none => Refd n B c s
  | some k => Refd (plus n k) B c s

theorem dirlookup_refd (h : Refd n B c s) (dp : ℕ) (name : List UInt8) :
    Wp (dirlookup dp name) (fun r s' => Got n B c s' (r.map Prod.fst)) (fun _ _ => True) s := by
  have hloop : ∀ size off s, Refd n B c s → Wp (dirlookupLoop dp name size off)
      (fun r s' => Got n B c s' (r.map Prod.fst)) (fun _ _ => True) s := by
    intro size off
    induction hN : size - off using Nat.strong_induction_on generalizing off with
    | _ N ih =>
      intro s h
      rw [dirlookupLoop]
      split_ifs with hlt
      · refine (h.leaves (inert_marks.takes.moves_readi dp _ _ _)).seq ?_
        rintro ⟨r, de⟩ s h
        refine wp_ite.mpr ⟨fun _ => trivial, fun _ => wp_ite.mpr ⟨fun _ => ?_, fun _ => ?_⟩⟩
        · exact (iget_refd h _).seq fun k s h => h
        · exact ih _ (by simp only [DESIZE]; omega) _ rfl s h
      · exact h
  unfold dirlookup
  refine wp_bind.mpr (wp_bind.mpr ?_)
  exact wp_ite.mpr ⟨fun _ => trivial, fun _ => hloop _ _ s h⟩

theorem dirlink_refd (h : Refd n B c s) (dp : ℕ) (name : List UInt8) (inum : ℕ) :
    Wp (dirlink dp name inum) (fun _ s' => Refd n B c s') (fun _ _ => True) s := by
  refine (dirlookup_refd h dp name).seq fun r s' h' => ?_
  rcases r with - | ⟨ip, off⟩
  · simp only [slot, wp_bind, wp_get, wp_pure]
    refine (Refd.leaves h' (inert_marks.takes.moves_emptyLoop dp _ 0)).imp fun off s h => ?_
    refine (h.leaves (inert_marks.takes.moves_writei dp _ _ _)).seq fun r s h => ?_
    exact wp_ite.mpr ⟨fun _ => trivial, fun _ => h⟩
  · exact (iput_refd h' h.held).seq fun _ s h => h

theorem ialloc_refd (h : Refd n B c s) (type : Int16) :
    Wp (ialloc type) (fun k s' => Refd (plus n k) B c s') (fun _ _ => True) s := by
  refine (h.leaves (inert_marks.takes.moves_note rfl)).seq fun _ s h => wp_bind.mpr ?_
  simp only [wp_get]
  split
  · exact (h.leaves (inert_marks.takes.moves_logWrite _ _)).seq fun _ s h => iget_refd h _
  · trivial

theorem namexLoop_refd (parent : Bool) : ∀ (path : List UInt8) (ip : ℕ) (name : List UInt8) (s : FsSt),
    Refd (plus n ip) ∅ c s → Wp (namexLoop parent path ip name)
      (fun r s' => Got n ∅ c s' (r.map Prod.fst)) (fun _ _ => True) s := by
  intro path
  induction hN : path.length using Nat.strong_induction_on generalizing path with
  | _ N ih =>
    intro ip name s h
    rw [namexLoop]
    split
    · rename_i rest name hskip
      refine (ilock_refd h ip).seq ?_
      rintro _ s ⟨hip, h⟩
      rw [wp_bind]
      simp only [slot, wp_bind, wp_get, wp_pure, wp_ite]
      refine ⟨fun _ => (iunlockput_refd h hip (by simp)).imp fun _ s h => h, fun _ => ⟨fun _ => ?_,
        fun _ => ?_⟩⟩
      · exact (iunlock_refd h hip).imp fun _ s h => h
      · refine (dirlookup_refd h ip name).imp fun r s h' => ?_
        rcases r with - | ⟨next, off⟩
        · exact (iunlockput_refd h' hip (by simp)).seq fun _ s h => h
        · have h' : Refd (plus (plus n next) ip) (insert ip ∅) c s := plus_comm n ip next ▸ h'
          refine (iunlockput_refd h' hip (by simp)).seq fun _ s h => ?_
          exact ih _ (hN ▸ skipelem_length hskip) rest rfl next name s h
    · simp only [wp_ite, wp_bind, wp_pure]
      exact ⟨fun _ => (iput_refd h (by simp)).imp fun _ s h => h, fun _ => h⟩

theorem namex_refd (h : Refd n ∅ c s) (path : List UInt8) (parent : Bool) :
    Wp (namex path parent) (fun r s' => Got n ∅ c s' (r.map Prod.fst)) (fun _ _ => True) s := by
  unfold namex
  simp only [wp_ite, wp_bind, wp_get]
  exact ⟨fun _ => (iget_refd h _).imp fun k s h => namexLoop_refd parent path k [] s h,
    fun _ => (idup_refd h _).imp fun k s h => namexLoop_refd parent path k [] s (h.1 ▸ h.2)⟩

theorem namei_refd (h : Refd n ∅ c s) (path : List UInt8) :
    Wp (namei path) (fun r s' => Got n ∅ c s' r) (fun _ _ => True) s := by
  refine (namex_refd h path false).seq fun r s h => ?_
  rcases r with - | ⟨ip, name⟩ <;> exact h

/-! ### Calls on the file system -/

/-- A search that may have found an entry and locked it. -/
def GotLocked (n : ℕ → ℕ) (c : ℕ) (s : FsSt) : Option ℕ → Prop
  | none => Refd n ∅ c s
  | some k => Refd (plus n k) (insert k ∅) c s

/-- Contents of an entry are set and written to disk. -/
theorem setUpdate_refd {f : Inode → Inode} (h : Refd n B c s)
    (hf : ∀ ip, (f ip).ref = ip.ref ∧ (f ip).busy = ip.busy)
    (hm : ∀ s, Refd n B c s → Wp m Q (fun _ _ => True) s) :
    Wp (do modifySlot k f; iupdate k; m) Q (fun _ _ => True) s :=
  (h.leaves (inert_marks.takes.moves_modifySlot hf)).seq fun _ _ h =>
    (h.leaves (inert_marks.takes.moves_iupdate k)).seq fun _ s h => hm s h

/-- A `dirlink` that must not fail. -/
theorem dirlinkOrPanic_refd {name : List UInt8} {inum : Inode → ℕ} {msg : FsPanic}
    (h : Refd n B c s) (hm : ∀ s, Refd n B c s → Wp m Q (fun _ _ => True) s) :
    Wp (do
      if (← dirlink dp name (inum (← slot j))) < 0 then panic msg
      m) Q (fun _ _ => True) s := by
  simp only [slot, wp_bind, wp_get, wp_pure]
  refine (dirlink_refd h dp name _).imp fun r s h => ?_
  exact wp_ite.mpr ⟨fun _ => trivial, fun _ => hm s h⟩

theorem create_refd (h : Refd n ∅ c s) (path : List UInt8) (type major minor : Int16) :
    Wp (create path type major minor) (fun r s' => GotLocked n c s' r) (fun _ _ => True) s := by
  refine (namex_refd h path true).seq fun r s h => ?_
  rcases r with - | ⟨dp, name⟩
  · exact h
  refine (ilock_refd h dp).seq fun _ s ⟨hdp, h⟩ => ?_
  refine (dirlookup_refd h dp name).seq fun r s h' => ?_
  rcases r with - | ⟨ip, off⟩
  · refine (ialloc_refd h' type).seq fun ip s h => ?_
    refine (ilock_refd h ip).seq fun _ s ⟨hip, h⟩ => ?_
    refine setUpdate_refd h (fun _ => ⟨rfl, rfl⟩) fun s h => ?_
    -- the entry in the parent, and the end
    have hend : ∀ s, Refd (plus (plus n dp) ip) (insert ip (insert dp ∅)) c s →
        Wp (do
          if (← dirlink dp name (← slot ip).inum) < 0 then panic .createDirlink
          iunlockput dp
          return some ip) (fun r s' => GotLocked n c s' r) (fun _ _ => True) s := by
      intro s h
      refine dirlinkOrPanic_refd h fun s h => ?_
      have hne : dp ∉ insert ip (∅ : Finset ℕ) := by
        simp only [Finset.mem_insert, Finset.notMem_empty, or_false] at hip ⊢
        exact Ne.symm hip
      rw [plus_comm, Finset.insert_comm] at h
      refine (iunlockput_refd h hne fun b hb => ?_).seq fun _ s h => h
      obtain rfl : b = ip := by simpa using hb
      rw [plus_self]
      omega
    refine wp_ite.mpr ⟨fun _ => ?_, fun _ => hend s h⟩
    refine setUpdate_refd h (fun _ => ⟨rfl, rfl⟩) fun s h => ?_
    exact dirlinkOrPanic_refd h fun s h => dirlinkOrPanic_refd h fun s h => hend s h
  · have h' : Refd (plus (plus n ip) dp) (insert dp ∅) c s := plus_comm n dp ip ▸ h'
    refine (iunlockput_refd h' hdp nofun).seq fun _ s h => ?_
    refine (ilock_refd h ip).seq fun _ s ⟨hip, h⟩ => ?_
    simp only [slot, wp_bind, wp_get, wp_pure, wp_ite]
    exact ⟨fun _ => h, fun _ => (iunlockput_refd h hip nofun).imp fun _ s h => h⟩

theorem Refd.beginOp (h : Refd n B c s) :
    Wp Fs.beginOp (fun _ s' => Refd n B c s') (fun _ _ => True) s := ⟨h.marks, h.held⟩

theorem Refd.endOp (h : Refd n B c s) :
    Wp Fs.endOp (fun _ s' => Refd n B c s') (fun _ _ => True) s := ⟨h.marks, h.held⟩

/-- The end of a call. -/
theorem endOp_return (h : Refd n B c s) (r : ℤ) :
    Wp (do endOp; return r) (fun _ s' => Refd n B c s') (fun _ _ => True) s :=
  h.endOp.seq fun _ _ h => h

/-- An inode is let go and the call ends. -/
theorem iunlockput_return (h : Refd (plus n k) (insert k B) c s) (hk : k ∉ B)
    (hB : ∀ b ∈ B, 0 < n b) (r : ℤ) :
    Wp (do iunlockput k; endOp; return r) (fun _ s' => Refd n B c s') (fun _ _ => True) s :=
  (iunlockput_refd h hk hB).seq fun _ _ h => endOp_return h r

theorem createCall_refd (h : Refd n ∅ c s) (path : Option CStr) (type major minor : Int16) :
    Wp (createCall path type major minor) (fun _ s' => Refd n ∅ c s') (fun _ _ => True) s := by
  refine h.beginOp.seq fun _ s h => ?_
  rcases path with - | path
  · exact endOp_return h _
  refine (create_refd h path.bytes type major minor).seq fun r s h => ?_
  rcases r with - | ip
  · exact endOp_return h _
  · exact iunlockput_return h (Finset.notMem_empty ip) nofun _

theorem sysLinkBad_refd (h : Refd (plus n k) ∅ c s) :
    Wp (sysLinkBad k) (fun _ s' => Refd n ∅ c s') (fun _ _ => True) s := by
  refine (ilock_refd h k).seq fun _ s ⟨hk, h⟩ => ?_
  exact setUpdate_refd h (fun _ => ⟨rfl, rfl⟩) fun s h => iunlockput_return h hk nofun _

theorem sysLink_refd (h : Refd n ∅ c s) (old new : List UInt8) :
    Wp (sysLink old new) (fun _ s' => Refd n ∅ c s') (fun _ _ => True) s := by
  refine h.beginOp.seq fun _ s h => ?_
  refine (namei_refd h old).seq fun r s h => ?_
  rcases r with - | ip
  · exact endOp_return h _
  refine (ilock_refd h ip).seq fun _ s ⟨hip, h⟩ => wp_bind.mpr ?_
  refine wp_ite.mpr ⟨fun _ => iunlockput_return h hip nofun _, fun _ => ?_⟩
  refine setUpdate_refd h (fun _ => ⟨rfl, rfl⟩) fun s h => ?_
  refine (iunlock_refd h hip).seq fun _ s h => ?_
  refine (namex_refd h new true).seq fun r s h => ?_
  rcases r with - | ⟨dp, name⟩
  · exact sysLinkBad_refd h
  refine (ilock_refd h dp).seq fun _ s ⟨hdp, h⟩ => ?_
  simp only [slot, wp_bind, wp_get, wp_pure]
  refine (dirlink_refd h dp name _).imp fun r s h => wp_ite.mpr ⟨fun _ => ?_, fun _ => ?_⟩
  · exact (iunlockput_refd h hdp nofun).seq fun _ s h => sysLinkBad_refd h
  · refine (iunlockput_refd h hdp nofun).seq fun _ s h => ?_
    exact (iput_refd h nofun).seq fun _ s h => endOp_return h _

theorem sysUnlink_refd (h : Refd n ∅ c s) (path : List UInt8) :
    Wp (sysUnlink path) (fun _ s' => Refd n ∅ c s') (fun _ _ => True) s := by
  refine h.beginOp.seq fun _ s h => ?_
  refine (namex_refd h path true).seq fun r s h => ?_
  rcases r with - | ⟨dp, name⟩
  · exact endOp_return h _
  refine (ilock_refd h dp).seq fun _ s ⟨hdp, h⟩ => ?_
  refine wp_ite.mpr ⟨fun _ => iunlockput_return h hdp nofun _, fun _ => ?_⟩
  refine (dirlookup_refd h dp name).seq fun r s h' => ?_
  rcases r with - | ⟨ip, off⟩
  · exact iunlockput_return h' hdp nofun _
  have h' : Refd (plus (plus n dp) ip) (insert dp ∅) c s := h'
  have hdpn : ∀ b ∈ insert dp (∅ : Finset ℕ), 0 < plus n dp b := by
    intro b hb
    obtain rfl : b = dp := by simpa using hb
    rw [plus_self]
    omega
  refine (ilock_refd h' ip).seq fun _ s ⟨hip, h⟩ => wp_bind.mpr ?_
  refine wp_ite.mpr ⟨fun _ => trivial, fun _ => ?_⟩
  -- the two inodes are let go
  have hend : ∀ s, Refd (plus (plus n dp) ip) (insert ip (insert dp ∅)) c s →
      Wp (sysUnlinkEnd dp ip) (fun _ s' => Refd n ∅ c s') (fun _ _ => True) s := by
    intro s h
    have hne : dp ∉ insert ip (∅ : Finset ℕ) := by
      simp only [Finset.mem_insert, Finset.notMem_empty, or_false] at hip ⊢
      exact Ne.symm hip
    rw [plus_comm, Finset.insert_comm] at h
    refine (iunlockput_refd h hne fun b hb => ?_).seq fun _ s h => ?_
    · obtain rfl : b = ip := by simpa using hb
      rw [plus_self]
      omega
    · exact setUpdate_refd h (fun _ => ⟨rfl, rfl⟩) fun s h =>
        iunlockput_return h (Finset.notMem_empty ip) nofun _
  -- the entry is cleared
  have hclear : ∀ s, Refd (plus (plus n dp) ip) (insert ip (insert dp ∅)) c s →
      Wp (sysUnlinkClear dp ip off) (fun _ s' => Refd n ∅ c s') (fun _ _ => True) s := by
    intro s h
    refine (h.leaves (inert_marks.takes.moves_writei dp _ _ _)).seq fun r s h => ?_
    refine wp_ite.mpr ⟨fun _ => trivial, fun _ => wp_bind.mpr ?_⟩
    refine wp_ite.mpr ⟨fun _ => ?_, fun _ => hend s h⟩
    exact setUpdate_refd h (fun _ => ⟨rfl, rfl⟩) fun s h => hend s h
  refine wp_bind.mpr (wp_ite.mpr ⟨fun _ => ?_, fun _ => hclear s h⟩)
  refine (h.leaves (inert_marks.takes.moves_isdirempty ip)).seq fun r s h => ?_
  refine wp_ite.mpr ⟨fun _ => ?_, fun _ => hclear s h⟩
  refine (iunlockput_refd h hip hdpn).seq fun _ s h => ?_
  exact iunlockput_return h hdp nofun _

theorem sysLinkArgs_refd (h : Refd n ∅ c s) (old new : Option CStr) :
    Wp (sysLinkArgs old new) (fun _ s' => Refd n ∅ c s') (fun _ _ => True) s := by
  unfold sysLinkArgs
  split
  · exact sysLink_refd h _ _
  · exact h

theorem sysUnlinkArgs_refd (h : Refd n ∅ c s) (path : Option CStr) :
    Wp (sysUnlinkArgs path) (fun _ s' => Refd n ∅ c s') (fun _ _ => True) s := by
  unfold sysUnlinkArgs
  split
  · exact sysUnlink_refd h _
  · exact h

theorem openInode_refd (h : Refd n ∅ c s) (path : List UInt8) (omode : UInt32) :
    Wp (openInode path omode) (fun r s' => GotLocked n c s' r) (fun _ _ => True) s := by
  refine wp_ite.mpr ⟨fun _ => create_refd h path _ _ _, fun _ => ?_⟩
  refine (namei_refd h path).seq fun r s h => ?_
  rcases r with - | ip
  · exact h
  refine (ilock_refd h ip).seq fun _ s ⟨hip, h⟩ => wp_bind.mpr ?_
  exact wp_ite.mpr ⟨fun _ => (iunlockput_refd h hip nofun).seq fun _ s h => h,
    fun _ => h⟩

theorem filewrite_refd (h : Refd n ∅ c s) (k : ℕ) (src : Bytes) (off : ℕ) (len : ℤ) :
    Wp (filewrite k src off len) (fun _ s' => Refd n ∅ c s') (fun _ _ => True) s := by
  have hloop : ∀ len i off s, Refd n ∅ c s → Wp (filewriteLoop k src len i off)
      (fun _ s' => Refd n ∅ c s') (fun _ _ => True) s := by
    intro len i off
    induction hN : len - i using Nat.strong_induction_on generalizing i off with
    | _ N ih =>
      intro s h
      rw [filewriteLoop]
      by_cases hlt : i < len
      · rw [dif_pos hlt]
        refine h.beginOp.seq fun _ s h => ?_
        refine (ilock_refd h k).seq fun _ s ⟨hk, h⟩ => ?_
        refine (h.leaves (inert_marks.takes.moves_writei k _ _ _)).seq fun r s h => ?_
        refine (iunlock_refd h hk).seq fun _ s h => ?_
        refine h.endOp.seq fun _ s h => ?_
        refine wp_ite.mpr ⟨fun _ => h, fun _ => wp_ite.mpr ⟨fun _ => trivial, fun _ => ?_⟩⟩
        refine ih _ ?_ _ _ rfl s h
        have hmax : writeMax = 6656 := rfl
        rw [hmax]
        split_ifs <;> omega
      · rw [dif_neg hlt]
        exact h
  unfold filewrite
  split_ifs
  · exact h
  · exact hloop _ _ _ s h

/-! ### Files and processes -/

/-- The cache entries that open files refer to. -/
def openInodes (t : ℕ → File) (f : Fin NFILE) : Option ℕ :=
  if (t f).type = .inode then some (t f).ip else none

/-- The current directories. -/
def currentDirs (t : ℕ → Proc) (p : Fin NPROC) : Option ℕ :=
  if (t p).live then some (t p).cwd else none

/-- How many open inode files and current directories refer to cache entry `k`. -/
def inodeRefs (t : ℕ → File) (u : ℕ → Proc) (k : ℕ) : ℕ :=
  tally (openInodes t) k + tally (currentDirs u) k

/-- The references are those of files and processes, and those in `e` that a call holds. -/
structure Bal (e : ℕ → ℕ) (B : Finset ℕ) (s : SysSt) : Prop where
  refd : Refd (inodeRefs s.ftable s.proc + e) B s.fs.cwd s.fs
  used : ∀ {f}, (s.ftable f).type = .inode → f < NFILE ∧ (s.ftable f).ref ≠ 0
  procs : ∀ {p}, (s.proc p).live = true → p < NPROC

section files

variable {t t' : ℕ → File} {u u' : ℕ → Proc} {e : ℕ → ℕ} {f p fd : ℕ} {s s' : SysSt} {x : File}

theorem add_plus (m e : ℕ → ℕ) (k : ℕ) : m + plus e k = plus (m + e) k := by
  funext j
  by_cases hj : j = k
  · subst hj
    simp only [Pi.add_apply, plus_self]
    omega
  · simp only [Pi.add_apply, plus_of_ne hj]

/-- A tally that gains one. -/
theorem tally_plus {P : Type} [Fintype P] [DecidableEq P] {a b : P → Option ℕ} {x : P}
    (h : ∀ y, y ≠ x → b y = a y) (ha : a x = none) (hb : b x = some k) :
    tally b = plus (tally a) k := by
  funext j
  have := tally_move h j
  rw [ha, hb] at this
  by_cases hj : j = k
  · subst hj
    rw [plus_self]
    simpa using this
  · rw [plus_of_ne hj]
    simpa [Ne.symm hj] using this

/-- Files and processes that refer to the same entries. -/
theorem inodeRefs_congr (ht : ∀ f, openInodes t' f = openInodes t f)
    (hu : ∀ p, currentDirs u' p = currentDirs u p) : inodeRefs t' u' = inodeRefs t u := by
  funext k
  unfold inodeRefs
  rw [tally_congr ht, tally_congr hu]

/-- A file starts to refer to `k`. -/
theorem inodeRefs_open {f : Fin NFILE} (h : ∀ g, g ≠ f → openInodes t' g = openInodes t g)
    (hf : openInodes t f = none) (hf' : openInodes t' f = some k) :
    inodeRefs t' u = plus (inodeRefs t u) k := by
  have := tally_plus h hf hf'
  funext j
  unfold inodeRefs
  rw [this]
  by_cases hj : j = k
  · subst hj
    rw [plus_self, plus_self]
    omega
  · rw [plus_of_ne hj, plus_of_ne hj]

/-- A process starts to refer to `k`. -/
theorem inodeRefs_enter {p : Fin NPROC} (h : ∀ q, q ≠ p → currentDirs u' q = currentDirs u q)
    (hp : currentDirs u p = none) (hp' : currentDirs u' p = some k) :
    inodeRefs t u' = plus (inodeRefs t u) k := by
  have := tally_plus h hp hp'
  funext j
  unfold inodeRefs
  rw [this]
  by_cases hj : j = k
  · subst hj
    rw [plus_self, plus_self]
    omega
  · rw [plus_of_ne hj, plus_of_ne hj]

/-- An entry of the file table that changes. -/
theorem openInodes_update (g : Fin NFILE) (hg : (g : ℕ) ≠ f) :
    openInodes (update t f x) g = openInodes t g := by
  unfold openInodes
  rw [update_of_ne hg]

/-- An entry that refers to no inode, before or after, or to the same. -/
theorem inodeRefs_setFile (hx : (x.type ≠ .inode ∧ (t f).type ≠ .inode) ∨
    (x.type = (t f).type ∧ x.ip = (t f).ip)) : inodeRefs (update t f x) u = inodeRefs t u := by
  refine inodeRefs_congr (fun g => ?_) fun _ => rfl
  by_cases hg : (g : ℕ) = f
  · unfold openInodes
    rw [hg, update_self]
    rcases hx with ⟨h₁, h₂⟩ | ⟨h₁, h₂⟩
    · rw [if_neg h₁, if_neg h₂]
    · rw [h₁, h₂]
  · exact openInodes_update g hg

/-! ### The functions of file.c -/

theorem onFs_imp {α : Type} {m : FsM α} {P : α → FsSt → Prop} {Q : α → SysSt → Prop}
    (hm : Wp m P (fun _ _ => True) s.fs) (hQ : ∀ a fs, P a fs → Q a { s with fs := fs }) :
    Wp (onFs m) Q (fun _ _ => True) s :=
  wp_onFs.mpr (hm.imp hQ)

theorem onFs_wp {α β : Type} {m : FsM α} {k : α → SysM β} {P : α → FsSt → Prop}
    {Q : β → SysSt → Prop} (hm : Wp m P (fun _ _ => True) s.fs)
    (hk : ∀ a fs, P a fs → Wp (k a) Q (fun _ _ => True) { s with fs := fs }) :
    Wp (onFs m >>= k) Q (fun _ _ => True) s :=
  wp_bind.mpr (onFs_imp hm hk)

/-- The references that a program on the file system leaves. -/
theorem Bal.fs {e' : ℕ → ℕ} {B' : Finset ℕ} {fs : FsSt} (h : Bal e B s)
    (hr : Refd (inodeRefs s.ftable s.proc + e') B' s.fs.cwd fs) : Bal e' B' { s with fs := fs } :=
  ⟨by rw [hr.cwd]; exact hr, h.used, h.procs⟩

/-- Files that refer to inodes are in use. -/
theorem used_update (h : ∀ {g}, (t g).type = .inode → g < NFILE ∧ (t g).ref ≠ 0)
    (hx : x.type = .inode → f < NFILE ∧ x.ref ≠ 0) {g : ℕ} (hg : (update t f x g).type = .inode) :
    g < NFILE ∧ (update t f x g).ref ≠ 0 := by
  by_cases hgf : g = f
  · subst hgf
    rw [update_self] at hg ⊢
    exact hx hg
  · rw [update_of_ne hgf] at hg ⊢
    exact h hg

/-- An entry of the file table changes, and refers to an inode no more and no less. -/
theorem Bal.setFile (h : Bal e B s) (hx : (x.type ≠ .inode ∧ (s.ftable f).type ≠ .inode) ∨
    (x.type = (s.ftable f).type ∧ x.ip = (s.ftable f).ip)) (href : x.type = .inode → x.ref ≠ 0) :
    Bal e B { s with ftable := update s.ftable f x } := by
  refine ⟨?_, used_update h.used fun hi => ⟨?_, href hi⟩, h.procs⟩
  · show Refd (inodeRefs (update s.ftable f x) s.proc + e) B s.fs.cwd s.fs
    rw [inodeRefs_setFile hx]
    exact h.refd
  · rcases hx with ⟨hx, -⟩ | ⟨hx, -⟩
    · exact absurd hi hx
    · exact (h.used (hx ▸ hi)).1

theorem Bal.congr (h : Bal e B s) (hfs : s'.fs = s.fs) (ht : s'.ftable = s.ftable)
    (hp : s'.proc = s.proc) : Bal e B s' :=
  ⟨by rw [hfs, ht, hp]; exact h.refd, by rw [ht]; exact h.used, by rw [hp]; exact h.procs⟩

theorem filealloc_bal (h : Bal e B s) :
    Wp filealloc (fun r s' => s'.proc = s.proc ∧ s'.fs.cwd = s.fs.cwd ∧ Bal e B s' ∧
      (∀ g, (s'.ftable g).type = (s.ftable g).type) ∧
      ∀ f, r = some f → f < NFILE ∧ (s.ftable f).type ≠ .inode ∧ (s'.ftable f).ref = 1)
      (fun _ _ => True) s := by
  unfold filealloc modifyFile
  simp only [wp_bind, wp_get]
  split
  · rename_i f hfind
    have hlt : f < NFILE := List.mem_range.mp (List.mem_of_find?_eq_some hfind)
    have href : (s.ftable f).ref = 0 := by simpa using List.find?_some hfind
    have htype : (s.ftable f).type ≠ .inode := fun hi => (h.used hi).2 href
    simp only [wp_bind, wp_modify, wp_pure]
    refine ⟨trivial, trivial, h.setFile (Or.inr ⟨rfl, rfl⟩) fun hi => absurd hi htype, fun g => ?_, ?_⟩
    · by_cases hg : g = f
      · rw [hg, update_self]
      · rw [update_of_ne hg]
    · rintro g hg
      obtain rfl := Option.some.inj hg
      exact ⟨hlt, htype, by rw [update_self]⟩
  · exact ⟨rfl, rfl, h, fun _ => rfl, by simp⟩

theorem filedup_bal (h : Bal e B s) :
    Wp (filedup f) (fun _ s' => s'.proc = s.proc ∧ s'.fs.cwd = s.fs.cwd ∧ Bal e B s')
      (fun _ _ => True) s := by
  unfold filedup file modifyFile
  simp only [wp_bind, wp_get, wp_pure, wp_ite, wp_throw, wp_modify]
  refine ⟨fun _ => trivial, fun hpos => ⟨trivial, trivial, h.setFile (Or.inr ⟨rfl, rfl⟩) fun _ => ?_⟩⟩
  simp only
  omega

/-- Closing a pipe is no matter of inodes. -/
theorem leaves_pipeclose (pg : ℕ) (b : Bool) :
    Leaves (fun s : SysSt => (s.fs, s.ftable, s.proc)) (pipeclose pg b) := by
  refine .bind (fun _ => rfl) fun _ => .bind .get fun s => .ite ?_ (.pure _)
  exact .bind (fun _ => rfl) fun _ => fun _ => rfl

/-- The last reference to an open inode file goes. -/
theorem Bal.closeInode (h : Bal e B s) (hB : ∀ b ∈ B, 0 < e b) (ht : (s.ftable f).type = .inode)
    (hx : x.type = .none) {l : List (Lease Res)} :
    Wp (do onFs beginOp; onFs (iput (s.ftable f).ip); onFs endOp)
      (fun _ s' => s'.proc = s.proc ∧ s'.fs.cwd = s.fs.cwd ∧ Bal e B s') (fun _ _ => True)
      { s with ftable := update s.ftable f x, leases := l } := by
  obtain ⟨hf, -⟩ := h.used ht
  have hrefs : inodeRefs s.ftable s.proc =
      plus (inodeRefs (update s.ftable f x) s.proc) (s.ftable f).ip := by
    refine inodeRefs_open (f := ⟨f, hf⟩) (fun g hg => ?_) ?_ ?_
    · exact (openInodes_update g fun he => hg (Fin.ext he)).symm
    · unfold openInodes
      rw [update_self, hx]
      rfl
    · unfold openInodes
      rw [if_pos ht]
  have hr : Refd (plus (inodeRefs (update s.ftable f x) s.proc + e) (s.ftable f).ip) B
      s.fs.cwd s.fs := by
    have hr := h.refd
    rw [hrefs, add_comm, add_plus, add_comm] at hr
    exact hr
  have hnone : x.type = .inode → f < NFILE ∧ x.ref ≠ 0 := by
    rw [hx]
    exact nofun
  refine onFs_wp hr.beginOp fun _ fs hr => onFs_wp (iput_refd hr fun b hb => ?_) fun _ fs hr => ?_
  · exact Nat.lt_of_lt_of_le (hB b hb) (Nat.le_add_left _ _)
  · refine onFs_imp hr.endOp fun _ fs hr => ⟨rfl, hr.cwd, ⟨?_, used_update h.used hnone, h.procs⟩⟩
    rw [hr.cwd]
    exact hr

theorem fileclose_bal (h : Bal e B s) (hB : ∀ b ∈ B, 0 < e b) :
    Wp (fileclose f) (fun _ s' => s'.proc = s.proc ∧ s'.fs.cwd = s.fs.cwd ∧ Bal e B s')
      (fun _ _ => True) s := by
  unfold fileclose file modifyFile
  simp only [wp_bind, wp_get, wp_pure, wp_ite, wp_throw, wp_modify]
  refine ⟨fun _ => trivial, fun hpos => ⟨fun hmore => ?_, fun hlast => ?_⟩⟩
  · refine ⟨trivial, trivial, h.setFile (Or.inr ⟨rfl, rfl⟩) fun _ => ?_⟩
    simp only
    omega
  · rcases ht : (s.ftable f).type with _ | _ | _
    · simp only [wp_pure]
      exact ⟨trivial, trivial, h.setFile (Or.inl ⟨by simp, by rw [ht]; decide⟩) fun hi => by cases hi⟩
    · refine wp_bind.mpr ((leaves_pipeclose _ _ _).mono (fun _ s' hs' => ?_) fun _ _ _ => trivial)
      simp only [Prod.mk.injEq] at hs'
      obtain ⟨hfs, hft, hp⟩ := hs'
      refine ⟨hp, by rw [hfs], ?_⟩
      exact (h.setFile (f := f) (x := { s.ftable f with ref := 0, type := .none })
        (Or.inl ⟨by simp, by rw [ht]; decide⟩) fun hi => by cases hi).congr hfs hft hp
    · exact wp_bind.mpr (h.closeInode hB ht rfl)

/-- Descriptors are no references to inodes. -/
theorem Bal.setProc (h : Bal e B s) {u : ℕ → Proc}
    (hu : ∀ q, (u q).live = (s.proc q).live ∧ (u q).cwd = (s.proc q).cwd) :
    Bal e B { s with proc := u } := by
  refine ⟨?_, h.used, fun {q} hq => h.procs ((hu q).1 ▸ hq)⟩
  show Refd (inodeRefs s.ftable u + e) B s.fs.cwd s.fs
  have hsame : inodeRefs s.ftable u = inodeRefs s.ftable s.proc := by
    refine inodeRefs_congr (fun _ => rfl) fun q => ?_
    unfold currentDirs
    rw [(hu q).1, (hu q).2]
  rw [hsame]
  exact h.refd

theorem setOfile_cwd {o : Option ℕ} (q : ℕ) : (setOfile u p fd o q).cwd = (u q).cwd := by
  unfold setOfile
  by_cases hq : q = p
  · subst hq
    simp
  · simp [hq]

theorem Bal.setOfile (h : Bal e B s) {o : Option ℕ} :
    Bal e B { s with proc := setOfile s.proc p fd o } :=
  h.setProc fun q => ⟨setOfile_live q, setOfile_cwd q⟩

/-! ### The calls -/

/-- A call by process `p` leaves the references balanced. -/
def Balances (p : ℕ) (m : SysM ℤ) : Prop :=
  ∀ s, Bal 0 ∅ s → (s.proc p).live = true → s.fs.cwd = (s.proc p).cwd →
    Wp m (fun _ s' => Bal 0 ∅ s') (fun _ _ => True) s

theorem balances_onFs {m : FsM ℤ} (hm : ∀ {n c s}, Refd n ∅ c s →
    Wp m (fun _ s' => Refd n ∅ c s') (fun _ _ => True) s) : Balances p (onFs m) :=
  fun _ h _ _ => onFs_imp (hm h.refd) fun _ _ hr => h.fs hr

theorem balances_sysDup (k : ℤ) : Balances p (sysDup p k) := by
  intro s h hp hc
  refine wp_bind.mpr (argfd_spec h fun fd f hfd hf => ?_)
  refine wp_bind.mpr (fdalloc_spec h fun fd' hfd' hfree => ?_)
  exact (filedup_bal h.setOfile).seq fun _ s' hs' => hs'.2.2

theorem balances_sysClose (k : ℤ) : Balances p (sysClose p k) := by
  intro s h hp hc
  refine wp_bind.mpr (argfd_spec h fun fd f hfd hf => ?_)
  have h₁ : Bal 0 ∅ { s with proc := setOfile s.proc p fd none } := h.setOfile
  exact wp_bind.mpr ((fileclose_bal h₁ nofun).seq fun _ s' hs' => hs'.2.2)

/-- The offset of a file changes. -/
theorem Bal.setOff (h : Bal e B s) (o : ℕ) :
    Bal e B { s with ftable := update s.ftable f { s.ftable f with off := o } } :=
  h.setFile (Or.inr ⟨rfl, rfl⟩) fun hi => (h.used hi).2

theorem balances_sysRead (k : ℤ) (len : UInt32) (r : ℤ) : Balances p (sysRead p k len r) := by
  intro s h hp hc
  refine wp_bind.mpr (argfd_spec h fun fd f hfd hf => ?_)
  unfold fileread file
  simp only [wp_bind, wp_get, wp_pure, wp_ite]
  refine ⟨fun _ => h, fun _ => ?_⟩
  split
  · exact h
  · refine onFs_wp (ilock_refd h.refd _) ?_
    rintro _ fs ⟨hip, hr⟩
    refine onFs_wp (hr.leaves (inert_marks.takes.moves_readi _ _ _ _)) ?_
    rintro ⟨r, b⟩ fs hr
    have h₁ := h.fs hr
    simp only [wp_bind, wp_ite, modifyFile, wp_modify]
    refine ⟨fun _ => ?_, fun _ => onFs_imp (iunlock_refd hr hip) fun _ _ hr => h.fs hr⟩
    have h₂ := h₁.setOff (f := f) (((s.ftable f).off + r.toNat) % 2 ^ 32)
    exact onFs_imp (iunlock_refd h₂.refd hip) fun _ _ hr => h₂.fs hr
  · trivial

theorem balances_sysWrite (k : ℤ) (src : Bytes) (len r : ℤ) :
    Balances p (sysWrite p k src len r) := by
  intro s h hp hc
  refine wp_bind.mpr (argfd_spec h fun fd f hfd hf => ?_)
  unfold filewriteFile file
  simp only [wp_bind, wp_get, wp_pure, wp_ite]
  refine ⟨fun _ => h, fun _ => ?_⟩
  split
  · exact h
  · refine onFs_wp (filewrite_refd h.refd _ _ _ _) ?_
    rintro ⟨r, o⟩ fs hr
    exact (h.fs hr).setOff o
  · trivial

theorem balances_sysFstat (k : ℤ) : Balances p (sysFstat p k) := by
  intro s h hp hc
  refine wp_bind.mpr (argfd_spec h fun fd f hfd hf => ?_)
  unfold filestat file
  simp only [wp_bind, wp_get, wp_pure, wp_ite]
  refine ⟨fun _ => onFs_imp (ilock_refd h.refd _) ?_, fun _ => h⟩
  rintro _ fs ⟨hip, hr⟩
  exact onFs_wp (iunlock_refd hr hip) fun _ _ hr => h.fs hr

/-- A reference that a call holds becomes that of a file. -/
theorem Bal.openFile (h : Bal (plus e k) B s) (hf : f < NFILE) (ht : (s.ftable f).type ≠ .inode)
    (hx : x.type = .inode) (hk : x.ip = k) (href : x.ref ≠ 0) :
    Bal e B { s with ftable := update s.ftable f x } := by
  refine ⟨?_, used_update h.used fun _ => ⟨hf, href⟩, h.procs⟩
  show Refd (inodeRefs (update s.ftable f x) s.proc + e) B s.fs.cwd s.fs
  have hrefs : inodeRefs (update s.ftable f x) s.proc =
      plus (inodeRefs s.ftable s.proc) k := by
    refine inodeRefs_open (f := ⟨f, hf⟩) (fun g hg => ?_) ?_ ?_
    · exact openInodes_update g fun he => hg (Fin.ext he)
    · exact if_neg ht
    · unfold openInodes
      rw [update_self, if_pos hx, hk]
  rw [hrefs, add_comm, add_plus, add_comm, ← add_plus]
  exact h.refd

theorem balances_sysOpen (path : Option CStr) (omode : UInt32) :
    Balances p (sysOpen p path omode) := by
  have hbad : ∀ {s ip}, Bal (plus 0 ip) (insert ip ∅) s →
      Wp (sysOpenBad ip) (fun _ s' => Bal 0 ∅ s') (fun _ _ => True) s := by
    intro s ip h
    have hr := h.refd
    rw [add_plus] at hr
    refine onFs_wp (iunlockput_refd hr (Finset.notMem_empty ip) nofun) fun _ _ hr => ?_
    exact onFs_wp hr.endOp fun _ _ hr => h.fs hr
  intro s h hp hc
  rcases path with - | path
  · exact h
  refine onFs_wp h.refd.beginOp fun _ fs hr => onFs_wp (openInode_refd hr _ _) fun r fs hr => ?_
  rcases r with - | ip
  · exact onFs_wp (Refd.endOp hr) fun _ _ hr => h.fs hr
  have h₀ : Bal (plus 0 ip) (insert ip ∅) { s with fs := fs } := by
    refine h.fs ?_
    rw [add_plus]
    exact hr
  have hip : ∀ b ∈ insert ip (∅ : Finset ℕ), 0 < plus 0 ip b := by
    intro b hb
    obtain rfl : b = ip := by simpa using hb
    rw [plus_self]
    omega
  refine (filealloc_bal h₀).seq fun r s₁ ⟨hp₁, hc₁, h₁, htype, hnew⟩ => ?_
  rcases r with - | f
  · exact hbad h₁
  obtain ⟨hf, ht, href⟩ := hnew f rfl
  refine wp_bind.mpr (fdalloc_spec ?_ fun fd hfd hfree => ?_)
  · refine (fileclose_bal h₁ hip).seq fun _ s₂ ⟨_, _, h₂⟩ => hbad h₂
  · have h₂ : Bal (plus 0 ip) (insert ip ∅) { s₁ with proc := setOfile s₁.proc p fd (some f) } :=
      h₁.setOfile
    refine onFs_wp (iunlock_refd h₂.refd (Finset.notMem_empty ip)) fun _ fs hr => ?_
    refine onFs_wp hr.endOp fun _ fs hr => ?_
    simp only [lease, modifyFile, wp_bind, wp_modify, wp_pure]
    have h₃ := (h₂.fs hr).openFile hf (f := f) (x := { s₁.ftable f with
      type := .inode
      ip := ip
      off := 0
      readable := omode &&& O_WRONLY = 0
      writable := omode &&& O_WRONLY ≠ 0 ∨ omode &&& O_RDWR ≠ 0 }) ?_ rfl rfl ?_
    · exact h₃.congr rfl rfl rfl
    · show (s₁.ftable f).type ≠ .inode
      rw [htype f]
      exact ht
    · show (s₁.ftable f).ref ≠ 0
      omega

/-- An entry becomes an end of a pipe. -/
theorem Bal.setPipe (h : Bal e B s) (ht : (s.ftable f).type ≠ .inode) (hx : x.type = .pipe) :
    Bal e B { s with ftable := update s.ftable f x } := by
  have hne : x.type ≠ .inode := by
    rw [hx]
    exact nofun
  exact h.setFile (Or.inl ⟨hne, ht⟩) fun hi => absurd hi hne

theorem pipealloc_bal (h : Bal 0 ∅ s) (kalloc : Option ℕ) :
    Wp (pipealloc kalloc) (fun _ s' => Bal 0 ∅ s') (fun _ _ => True) s := by
  refine (filealloc_bal h).seq fun r s₁ ⟨_, _, h₁, htype₁, hnew₁⟩ => ?_
  rcases r with - | rf
  · exact h₁
  obtain ⟨-, hrf, -⟩ := hnew₁ rf rfl
  refine (filealloc_bal h₁).seq fun r s₂ ⟨_, _, h₂, htype₂, hnew₂⟩ => ?_
  rcases r with - | wf
  · exact (fileclose_bal h₂ nofun).seq fun _ s₃ ⟨_, _, h₃⟩ => h₃
  obtain ⟨-, hwf, -⟩ := hnew₂ wf rfl
  rcases kalloc with - | pg
  · refine (fileclose_bal h₂ nofun).seq fun _ s₃ ⟨_, _, h₃⟩ => ?_
    exact (fileclose_bal h₃ nofun).seq fun _ s₄ ⟨_, _, h₄⟩ => h₄
  · simp only [wp_bind, wp_get, wp_ite, wp_throw, lease, modifyFile, wp_modify, wp_pure]
    refine ⟨fun _ => trivial, fun _ => ?_⟩
    have hr : (s₂.ftable rf).type ≠ .inode := by
      rw [htype₂, htype₁]
      exact hrf
    have hw : (s₂.ftable wf).type ≠ .inode := by
      rw [htype₂]
      exact hwf
    refine Bal.congr (s := { s₂ with
      ftable := update (update s₂.ftable rf _) wf _ }) ?_ rfl rfl rfl
    refine (h₂.setPipe (f := rf) hr rfl).setPipe (f := wf) ?_ rfl
    by_cases he : wf = rf
    · simp [he]
    · simpa [he] using hw

theorem balances_sysPipe (kalloc : Option ℕ) : Balances p (sysPipe p kalloc) := by
  have hclose : ∀ {s rf wf}, Bal 0 ∅ s → Wp (do
      fileclose rf
      fileclose wf
      return (-1 : ℤ)) (fun _ s' => Bal 0 ∅ s') (fun _ _ => True) s := by
    intro s rf wf h
    refine (fileclose_bal h nofun).seq fun _ s₁ ⟨_, _, h₁⟩ => ?_
    exact (fileclose_bal h₁ nofun).seq fun _ s₂ ⟨_, _, h₂⟩ => h₂
  intro s h hp hc
  refine (pipealloc_bal h kalloc).seq fun r s₁ h₁ => ?_
  rcases r with - | ⟨rf, wf⟩
  · exact h₁
  refine wp_bind.mpr (fdalloc_spec (hclose h₁) fun fd hfd hfree => ?_)
  have h₂ : Bal 0 ∅ { s₁ with proc := setOfile s₁.proc p fd (some rf) } := h₁.setOfile
  refine wp_bind.mpr (fdalloc_spec ?_ fun fd' hfd' hfree' => h₂.setOfile)
  exact wp_bind.mpr (hclose h₂.setOfile)

/-- Slot `p` with a process in it, and without. -/
theorem inodeRefs_live (hp : p < NPROC) (hu : ∀ q, q ≠ p → u' q = u q) (hdead : (u p).live = false)
    (hlive : (u' p).live = true) (hk : (u' p).cwd = k) :
    inodeRefs t u' = plus (inodeRefs t u) k := by
  refine inodeRefs_enter (p := ⟨p, hp⟩) (fun q hq => ?_) ?_ ?_
  · unfold currentDirs
    rw [hu q fun he => hq (Fin.ext he)]
  · unfold currentDirs
    rw [hdead]
    rfl
  · unfold currentDirs
    rw [if_pos hlive, hk]

/-- A process moves to another directory. -/
theorem inodeRefs_move (hp : p < NPROC) (hlive : (u p).live = true) :
    plus (inodeRefs t (update u p { u p with cwd := k })) (u p).cwd =
      plus (inodeRefs t u) k := by
  let v : ℕ → Proc := update u p { u p with live := false }
  have hv : ∀ q, q ≠ p → v q = u q := fun q hq => update_of_ne hq ..
  have hdead : (v p).live = false := by simp [v]
  have hold : inodeRefs t u = plus (inodeRefs t v) (u p).cwd :=
    inodeRefs_live hp (fun q hq => (hv q hq).symm) hdead hlive rfl
  have hnew : inodeRefs t (update u p { u p with cwd := k }) = plus (inodeRefs t v) k := by
    refine inodeRefs_live hp (fun q hq => ?_) hdead ?_ ?_
    · rw [update_of_ne hq, hv q hq]
    · rw [update_self]
      exact hlive
    · rw [update_self]
  rw [hold, hnew]
  exact plus_comm _ _ _

theorem balances_sysChdir (path : Option CStr) : Balances p (sysChdir p path) := by
  intro s h hp hc
  refine onFs_wp h.refd.beginOp fun _ fs hr => ?_
  rcases path with - | path
  · exact onFs_wp hr.endOp fun _ _ hr => h.fs hr
  refine onFs_wp (namei_refd hr path.bytes) fun r fs hr => ?_
  rcases r with - | ip
  · exact onFs_wp (Refd.endOp hr) fun _ _ hr => h.fs hr
  refine onFs_wp (ilock_refd hr ip) fun _ fs ⟨hip, hr⟩ => ?_
  refine onFs_wp (P := fun _ fs' => fs' = fs) rfl fun i fs' hfs => ?_
  subst hfs
  refine wp_ite.mpr ⟨fun _ => ?_, fun _ => ?_⟩
  · refine onFs_wp (iunlockput_refd hr hip nofun) fun _ _ hr => ?_
    exact onFs_wp hr.endOp fun _ _ hr => h.fs hr
  · refine onFs_wp (iunlock_refd hr hip) fun _ fs hr => wp_bind.mpr ?_
    -- the reference to the old directory goes, and `p` refers to the new one
    have hlt := h.procs hp
    rw [add_zero, ← inodeRefs_move hlt hp, ← hc, ← hr.cwd] at hr
    refine onFs_wp (iput_refd hr nofun) fun _ fs hr => onFs_wp hr.endOp fun _ fs hr => ?_
    simp only [modifyProc, wp_bind, wp_modify, wp_pure]
    refine ⟨?_, h.used, fun {q} hq => ?_⟩
    · rw [hr.cwd]
      exact hr
    · by_cases hqp : q = p
      · exact hqp ▸ hlt
      · simp only [update_of_ne hqp] at hq
        exact h.procs hq

theorem balances_sysExec (mem : ExecMem) (path : Option CStr) : Balances p (sysExec mem path) := by
  have hread : ∀ ip dst off n, Moves (Same fun s : SysSt => (s.rest, marks s.fs))
      (onFs (readi ip dst off n)) := by
    intro ip dst off n s
    have hr := inert_marks.takes.moves_readi ip dst off n s.fs
    exact wp_onFs.mpr (hr.mono (fun _ _ hr => Prod.ext rfl hr) fun _ _ hr => Prod.ext rfl hr)
  intro s h hp hc
  rcases path with - | path
  · exact h
  refine onFs_wp h.refd.beginOp fun _ fs hr => ?_
  refine onFs_wp (namei_refd hr path.bytes) fun r fs hr => ?_
  rcases r with - | ip
  · exact onFs_wp (Refd.endOp hr) fun _ _ hr => h.fs hr
  refine onFs_wp (ilock_refd hr ip) fun _ fs ⟨hip, hr⟩ => ?_
  refine wp_bind.mpr ((moves_execLoad hread mem ip _).mono (fun loaded s₁ hs₁ => ?_)
    fun _ _ _ => trivial)
  obtain ⟨hrest, hmarks⟩ := Prod.mk.inj hs₁
  simp only [SysSt.rest, Prod.mk.injEq] at hrest
  obtain ⟨hft, -, hproc, -, -⟩ := hrest
  have hr : Refd (plus (inodeRefs s.ftable s.proc + 0) ip) (insert ip ∅) s.fs.cwd s₁.fs :=
    ⟨hmarks.trans hr.marks, hr.held⟩
  refine onFs_wp (iunlockput_refd hr hip (by simp)) fun _ _ hr => onFs_wp hr.endOp fun _ fs hr => ?_
  exact (h.fs hr).congr rfl hft hproc

/-- The loop of `fork` touches no inode. -/
theorem dupFiles_bal {o : ℕ → Option ℕ} : ∀ (fds : List ℕ) {s : SysSt}, Bal e B s →
    Wp (dupFiles o fds) (fun _ s' => s'.proc = s.proc ∧ Bal e B s') (fun _ _ => True) s := by
  intro fds
  induction fds with
  | nil => exact fun h => ⟨rfl, h⟩
  | cons fd fds ih =>
      intro s h
      unfold dupFiles
      rcases o fd with - | f
      · exact ih h
      · refine (filedup_bal h).seq ?_
        rintro _ s₁ ⟨hp₁, -, h₁⟩
        exact (ih h₁).imp fun _ s₂ h₂ => ⟨h₂.1.trans hp₁, h₂.2⟩

theorem balances_fork (np : Option ℕ) (mem : Bool) : Balances p (Fs.fork p np mem) := by
  intro s h hp hc
  rcases np with - | np
  · exact h
  unfold Fs.fork
  simp only [wp_bind, wp_get, wp_ite, wp_throw, wp_pure]
  refine ⟨fun _ => trivial, fun hfree => ⟨fun _ => h, fun _ => ?_⟩⟩
  obtain ⟨hnp, hdead⟩ := not_or.mp hfree
  have hnp : np < NPROC := not_le.mp hnp
  refine (dupFiles_bal _ h).imp ?_
  rintro _ s₁ ⟨hp₁, h₁⟩
  refine onFs_wp (idup_refd h₁.refd _) ?_
  rintro cwd fs ⟨rfl, hr⟩
  simp only [modifyProc, wp_bind, wp_modify, wp_pure]
  refine ⟨?_, h₁.used, fun {q} hq => ?_⟩
  · have hdead₁ : (s₁.proc np).live = false := by
      rw [hp₁]
      simpa using hdead
    rw [hr.cwd]
    simp only
    rw [inodeRefs_live hnp (fun q hq => update_of_ne hq ..) hdead₁
      (by rw [update_self]) (by rw [update_self])]
    exact hr
  · by_cases hqp : q = np
    · exact hqp ▸ hnp
    · simp only [update_of_ne hqp] at hq
      exact h₁.procs hq

/-- The loop of `exit` drops what files refer to, and the process keeps its directory. -/
theorem closeFiles_bal : ∀ (fds : List ℕ) {s : SysSt}, Bal 0 ∅ s →
    Wp (closeFiles p fds) (fun _ s' => Bal 0 ∅ s' ∧ s'.fs.cwd = s.fs.cwd ∧
      (s'.proc p).live = (s.proc p).live ∧ (s'.proc p).cwd = (s.proc p).cwd) (fun _ _ => True) s := by
  intro fds
  induction fds with
  | nil => exact fun h => ⟨h, rfl, rfl, rfl⟩
  | cons fd fds ih =>
      intro s h
      unfold closeFiles ofile
      simp only [wp_bind, wp_get, wp_pure]
      rcases (s.proc p).ofile fd with - | f
      · exact ih h
      · refine (fileclose_bal h (by simp)).seq ?_
        rintro _ s₁ ⟨hp₁, hc₁, h₁⟩
        have h₂ : Bal 0 ∅ { s₁ with proc := setOfile s₁.proc p fd none } := h₁.setOfile
        refine wp_bind.mpr ((ih h₂).imp ?_)
        rintro _ s' ⟨h', hc', hl', hd'⟩
        refine ⟨h', hc'.trans hc₁, ?_, ?_⟩
        · rw [hl', setOfile_live, hp₁]
        · rw [hd', setOfile_cwd, hp₁]

theorem balances_exit : Balances p (Fs.exit p) := by
  intro s h hp hc
  unfold Fs.exit
  simp only [wp_ite]
  refine ⟨fun _ => trivial, fun _ => ?_⟩
  refine (closeFiles_bal _ h).seq fun _ s₁ ⟨h₁, hc₁, hl₁, hd₁⟩ => ?_
  refine onFs_wp h₁.refd.beginOp fun _ fs hr => wp_bind.mpr ?_
  have hlive : (s₁.proc p).live = true := hl₁.trans hp
  have hcwd : fs.cwd = (s₁.proc p).cwd := by rw [hr.cwd, hc₁, hd₁, hc]
  set u : ℕ → Proc := update s₁.proc p { s₁.proc p with live := false } with hu
  have hother : ∀ {q}, q ≠ p → u q = s₁.proc q := fun hq => update_of_ne hq ..
  have hself : (u p).live = false := by simp [hu]
  have hrefs : inodeRefs s₁.ftable s₁.proc = plus (inodeRefs s₁.ftable u) fs.cwd :=
    inodeRefs_live (h₁.procs hlive) (fun q hq => (hother hq).symm) hself hlive hcwd.symm
  rw [add_zero, hrefs] at hr
  refine onFs_wp (iput_refd hr nofun) fun _ fs hr => onFs_wp hr.endOp fun _ fs hr => ?_
  simp only [modifyProc, wp_bind, wp_modify, wp_pure]
  refine ⟨?_, h₁.used, fun {q} hq => ?_⟩
  · rw [hr.cwd]
    exact hr
  · by_cases hqp : q = p
    · exact hqp ▸ h₁.procs hlive
    · exact h₁.procs (hother hqp ▸ hq)

/-! ### Runs -/

theorem balances_body (c : Call) : Balances p (c.body p) := by
  cases c with
  | «open» path omode => exact balances_sysOpen path omode
  | mkdir path => exact balances_onFs fun h => createCall_refd h path _ _ _
  | mknod path major minor => exact balances_onFs fun h => createCall_refd h path _ _ _
  | link old new => exact balances_onFs fun h => sysLinkArgs_refd h old new
  | unlink path => exact balances_onFs fun h => sysUnlinkArgs_refd h path
  | chdir path => exact balances_sysChdir path
  | close fd => exact balances_sysClose fd
  | dup fd => exact balances_sysDup fd
  | read fd n r => exact balances_sysRead fd n r
  | write fd src n r => exact balances_sysWrite fd src n r
  | fstat fd => exact balances_sysFstat fd
  | pipe kalloc => exact balances_sysPipe kalloc
  | exec mem path => exact balances_sysExec mem path
  | fork np mem => exact balances_fork np mem
  | exit => exact balances_exit

/-- Between calls, the cache entries are referenced by open files and by current directories,
and no entry is locked. -/
structure Balanced (s : SysSt) : Prop where
  refs : ∀ k, (s.fs.icache k).ref = inodeRefs s.ftable s.proc k
  idle : ∀ k, (s.fs.icache k).busy = false
  used : ∀ {f}, (s.ftable f).type = .inode → f < NFILE ∧ (s.ftable f).ref ≠ 0
  procs : ∀ {p}, (s.proc p).live = true → p < NPROC

theorem balanced_iff : Balanced s ↔ Bal 0 ∅ s := by
  refine ⟨fun h => ⟨⟨?_, nofun⟩, h.used, h.procs⟩, fun h => ⟨h.refd.ref, fun k => ?_, h.used, h.procs⟩⟩
  · refine Prod.ext (funext fun k => Prod.ext ?_ ?_) rfl
    · exact h.refs k
    · simpa [marks] using h.idle k
  · simpa using h.refd.busy k

theorem Balanced.step {ev : ℕ × Call} (h : Balanced s) (hstep : callStep s ev = some s') :
    Balanced s' := by
  obtain ⟨p, c⟩ := ev
  unfold callStep at hstep
  split_ifs at hstep with hp
  have hb := balanced_iff.mp h
  -- the call runs in the directory of its process
  have hb' : Bal 0 ∅ { s with fs := { s.fs with cwd := (s.proc p).cwd } } :=
    ⟨⟨Prod.ext (congrArg (fun m => m.1) hb.refd.marks) rfl, nofun⟩, hb.used, hb.procs⟩
  have hw : Wp (c.perform p) (fun _ s' => Bal 0 ∅ s') (fun _ _ => True) s :=
    balances_body c _ hb' hp rfl
  simp only at hstep
  unfold Wp at hw
  rcases e : c.perform p s with ⟨r, s₁⟩ | ⟨x, s₁⟩ <;> rw [e] at hw hstep
  · obtain rfl := Option.some.inj hstep
    exact balanced_iff.mpr hw
  · cases hstep

theorem inodeRefs_eq_card (t : ℕ → File) (u : ℕ → Proc) (k : ℕ) : inodeRefs t u k =
    (Finset.univ.filter fun f : Fin NFILE => (t f).type = .inode ∧ (t f).ip = k).card +
      (Finset.univ.filter fun p : Fin NPROC => (u p).live = true ∧ (u p).cwd = k).card := by
  unfold inodeRefs tally openInodes currentDirs
  congr 2 <;> ext x <;> simp

/-- After boot, when the cache holds the root directory once and nothing else. -/
theorem Balanced.boot {fs : FsSt} (hroot : (fs.icache fs.cwd).ref = 1)
    (hrest : ∀ k, k ≠ fs.cwd → (fs.icache k).ref = 0) (hidle : ∀ k, (fs.icache k).busy = false) :
    Balanced (SysSt.boot fs) where
  refs k := by
    -- the references before the first process
    let u₀ : ℕ → Proc := fun _ => ⟨false, fun _ => none, fs.cwd⟩
    have hzero : inodeRefs (SysSt.boot fs).ftable u₀ = 0 := by
      funext j
      simp [inodeRefs_eq_card, SysSt.boot, u₀]
    have hinit : inodeRefs (SysSt.boot fs).ftable (SysSt.boot fs).proc = plus 0 fs.cwd := by
      rw [← hzero]
      refine inodeRefs_live (p := initproc) (by decide) (fun q hq => ?_) rfl ?_ rfl
      · simp [SysSt.boot, u₀, hq]
      · simp [SysSt.boot]
    rw [hinit]
    by_cases hk : k = fs.cwd
    · rw [hk, plus_self]
      exact hroot
    · rw [plus_of_ne hk]
      exact hrest k hk
  idle := hidle
  used hf := by cases hf
  procs {p} hp := by
    obtain rfl : p = initproc := by simpa [SysSt.boot] using hp
    decide

/-- **Inode references are balanced.**  From a state in which they are, with any disk, after
any calls by any processes that return, the `ref` of every cached inode is the number of
open inode files that refer to it plus the number of processes that have it as their current
directory, and no inode is locked. -/
theorem inode_references_balanced {es : List (ℕ × Call)} (h : Balanced s)
    (hrun : run callStep s es = some s') (k : ℕ) :
    (s'.fs.icache k).ref = (Finset.univ.filter fun f : Fin NFILE =>
        (s'.ftable f).type = .inode ∧ (s'.ftable f).ip = k).card +
      (Finset.univ.filter fun p : Fin NPROC =>
        (s'.proc p).live = true ∧ (s'.proc p).cwd = k).card ∧
    (s'.fs.icache k).busy = false := by
  have hs' : Balanced s' :=
    run_induction (P := fun _ s => Balanced s) h (fun _ _ _ _ _ h hs => h.step hs) hrun
  refine ⟨?_, hs'.idle k⟩
  rw [hs'.refs k, inodeRefs_eq_card]
  push_cast
  rfl

end files

/-- The root directory of `freshDisk`. -/
def rootInode : Dinode :=
  { Dinode.zero with
    type := T_DIR, nlink := 1, size := 32, addrs := fun l => if l.1 = 0 then 5 else 0 }

/-- A disk of 64 blocks with 8 inodes and an empty root directory in block 5. -/
def freshDisk : Disk := fun x =>
  if x = 1 then ((Bytes.zero.put32 0 64).put32 4 29).put32 8 8
  else if x = 2 then Bytes.zero.blit 64 64 rootInode.encode
  else if x = 4 then fun k => if k = 0 then 63 else 0
  else if x = 5 then (dirent 1 [46]).blit 16 16 (dirent 1 [46, 46])
  else Bytes.zero

/-- The system after boot from `freshDisk`. -/
def fresh : SysSt := .boot (mounted freshDisk fun _ => (0, Bytes.zero))

theorem fresh_balanced : Balanced fresh :=
  .boot rfl (fun _ hk => if_neg hk) fun _ => rfl

/-- Init creates a file "f" that stays open and a directory "d", and forks; the child moves
to "d". -/
def openAndChdir : List (ℕ × Call) :=
  [(0, .open (some ⟨[102], by decide⟩) O_CREATE), (0, .mkdir (some ⟨[100], by decide⟩)),
    (0, .fork (some 1) true), (1, .chdir (some ⟨[100], by decide⟩))]

theorem open_and_chdir_balanced :
    ∃ s : SysSt, run callStep fresh openAndChdir = some s ∧
      ((List.range 4).map fun k => (s.fs.icache k).ref) = [1, 1, 1, 0] ∧
      (Finset.univ.filter fun f : Fin NFILE =>
        (s.ftable f).type = .inode ∧ (s.ftable f).ip = 2).card +
      (Finset.univ.filter fun p : Fin NPROC =>
        (s.proc p).live = true ∧ (s.proc p).cwd = 2).card = 1 ∧
      (s.fs.icache 2).busy = false := by
  have hview : (run callStep fresh openAndChdir).map (fun s =>
      (List.range 4).map fun k => (s.fs.icache k).ref) = some [1, 1, 1, 0] := by decide +kernel
  obtain ⟨s, hs, hrefs⟩ := Option.map_eq_some_iff.mp hview
  have hbal := inode_references_balanced fresh_balanced hs 2
  have htwo : (s.fs.icache 2).ref = 1 := by
    simp only [List.range, List.range.loop, List.map, List.cons.injEq] at hrefs
    exact hrefs.2.2.1
  refine ⟨s, hs, hrefs, ?_, hbal.2⟩
  exact_mod_cast hbal.1.symm.trans htwo

end Nunix.Fs
