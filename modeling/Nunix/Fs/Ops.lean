/-
Nunix/Fs/Ops.lean

Runs of file system operations.

An operation is a call of the inode layer or a directory system call, made by a
caller that keeps to the protocol of fs.c (`Allowed`): it uses the references it
holds, reads, writes and truncates locked inodes only, and does not write to a
directory except through the directory calls.  `fsStep` performs an operation that
returns; along every run the file system stays good, and an operation that does not
return stops as `Stops` says.
-/
import Nunix.Fs.Calls
import Nunix.Runs

namespace Nunix.Fs

open Bytes Hoare Runs

/-- The operations on the file system. -/
inductive FsOp
  | namei (path : List UInt8)
  | idup (k : ℕ)
  | ilock (k : ℕ)
  | iunlock (k : ℕ)
  | readi (k off n : ℕ)
  | writei (k : ℕ) (src : Bytes) (off n : ℕ)
  | itrunc (k : ℕ)
  | ialloc (type : Int16)
  | iput (k : ℕ)
  | create (path : List UInt8) (type major minor : Int16)
  | link (old new : List UInt8)
  | unlink (path : List UInt8)

/-- Perform the operation; the result is the references held after it. -/
def FsOp.exec (held : List ℕ) : FsOp → FsM (List ℕ)
  | .namei path => do return heldAfter held (← Fs.namei path)
  | .idup k => do return (← Fs.idup k) :: held
  | .ilock k => do
      Fs.ilock k
      return held
  | .iunlock k => do
      Fs.iunlock k
      return held
  | .readi k off n => do
      let _ ← Fs.readi k Bytes.zero off n
      return held
  | .writei k src off n => do
      let _ ← Fs.writei k src off n
      return held
  | .itrunc k => do
      Fs.itrunc k
      return held
  | .ialloc type => do return (← Fs.ialloc type) :: held
  | .iput k => do
      Fs.iput k
      return held.erase k
  | .create path type major minor => do
      return heldAfter held (← Fs.create path type major minor)
  | .link old new => do
      let _ ← sysLink old new
      return held
  | .unlink path => do
      let _ ← sysUnlink path
      return held

/-- What the caller of an operation has to keep to. -/
def FsOp.Allowed (held : List ℕ) (s : FsSt) : FsOp → Prop
  | .idup k | .ilock k | .iunlock k | .iput k => k ∈ held
  | .readi k _ n => k ∈ held ∧ (s.icache k).busy = true ∧ n < 2 ^ 32
  | .writei k _ _ n =>
      k ∈ held ∧ (s.icache k).busy = true ∧ (s.icache k).type ≠ T_DIR ∧ n < 2 ^ 32
  | .itrunc k => k ∈ held ∧ (s.icache k).busy = true
  | .namei _ | .ialloc _ | .create .. | .link .. | .unlink _ => True

instance (held : List ℕ) (s : FsSt) : (op : FsOp) → Decidable (op.Allowed held s)
  | .idup k | .ilock k | .iunlock k | .iput k => inferInstanceAs (Decidable (k ∈ held))
  | .readi k _ n =>
      inferInstanceAs (Decidable (k ∈ held ∧ (s.icache k).busy = true ∧ n < 2 ^ 32))
  | .writei k _ _ n => inferInstanceAs (Decidable
      (k ∈ held ∧ (s.icache k).busy = true ∧ (s.icache k).type ≠ T_DIR ∧ n < 2 ^ 32))
  | .itrunc k => inferInstanceAs (Decidable (k ∈ held ∧ (s.icache k).busy = true))
  | .namei _ | .ialloc _ | .create .. | .link .. | .unlink _ =>
      inferInstanceAs (Decidable True)

/-- One operation that returns. -/
def fsStep (t : FsSt × List ℕ) (op : FsOp) : Option (FsSt × List ℕ) :=
  if op.Allowed t.2 t.1 then
    match op.exec t.2 t.1 with
    | .ok held s => some (s, held)
    | .error _ _ => none
  else none

variable {sb : Superblock} {H : List (Disk × ℕ)} {σ : Prop} {held : List ℕ} {s : FsSt}

/-- A locked inode has been read. -/
theorem Good.loaded (h : Good sb H σ held s) {k : ℕ} (hk : k ∈ held)
    (hbusy : (s.icache k).busy = true) : Loaded s k (s.icache k).inum := by
  obtain ⟨⟨V, hI⟩, hr⟩ := h
  exact ⟨hr.pos hk, hI.cache.valid (hr.pos hk) hbusy, rfl⟩

/-- Every operation keeps the file system good. -/
theorem exec_spec (h : Good sb H σ held s) {op : FsOp} (hop : op.Allowed held s) :
    Wp (op.exec held) (fun held' s' => Good sb H σ held' s') (Stops sb H) s := by
  cases op with
  | namei path => exact (namei_carries h.carries path).seq fun _ _ hq => hq.good
  | idup k =>
      refine (idup_spec h (Or.inl hop)).seq ?_
      rintro l s' ⟨rfl, hg, -⟩
      exact hg
  | ilock k => exact (ilock_spec h hop).seq fun _ _ hq => hq.1
  | iunlock k => exact (iunlock_spec h hop).seq fun _ _ hq => hq.1
  | readi k off n =>
      obtain ⟨hk, hbusy, hn⟩ := hop
      have hl := h.loaded hk hbusy
      obtain ⟨⟨V, hI⟩, hr⟩ := h
      refine (readi_spec hI hl Bytes.zero off hn).seq ?_
      rintro r s' ⟨V', hI', u, -⟩
      exact ⟨⟨V', hI'⟩, (sameSlots_update u.cache u.rest.1).refs hr⟩
  | writei k src off n =>
      obtain ⟨hk, hbusy, hdir, hn⟩ := hop
      have hl := h.loaded hk hbusy
      obtain ⟨⟨V, hI⟩, hr⟩ := h
      have htype : (V (s.icache k).inum).type ≠ T_DIR := by
        rw [← hI.inode_eq hl]
        exact hdir
      refine (writei_spec hI hl src off hn fun ht => absurd ht htype).seq ?_
      rintro r s' ⟨V', hI', hss⟩
      exact ⟨⟨V', hI'⟩, hss.refs hr⟩
  | itrunc k =>
      have hl := h.loaded hop.1 hop.2
      obtain ⟨⟨V, hI⟩, hr⟩ := h
      refine (itrunc_spec _ hI hl).seq ?_
      rintro - s' ⟨hI', hss, -⟩
      exact ⟨⟨_, hI'⟩, hss.refs hr⟩
  | ialloc type => exact (ialloc_spec h type).seq fun _ _ hq => hq.1
  | iput k =>
      refine (iput_spec (h.perm (List.perm_cons_erase hop))).seq fun _ _ hq => hq.1
  | create path type major minor =>
      exact (create_carries h.carries path type major minor).seq fun _ _ hq => hq.good
  | link old new => exact (sysLink_spec h old new).seq fun _ _ hq => hq
  | unlink path => exact (sysUnlink_spec h path).seq fun _ _ hq => hq

theorem fsStep_eq_some {t u : FsSt × List ℕ} {op : FsOp} :
    fsStep t op = some u ↔ op.Allowed t.2 t.1 ∧ op.exec t.2 t.1 = .ok u.2 u.1 := by
  unfold fsStep
  split_ifs with hop
  · rcases e : op.exec t.2 t.1 with ⟨held, s⟩ | ⟨halt, s⟩
    · simp only [Option.some.injEq, hop, true_and, EStateM.Result.ok.injEq]
      constructor
      · rintro rfl
        exact ⟨rfl, rfl⟩
      · rintro ⟨rfl, rfl⟩
        rfl
    · simp
  · simp [hop]

/-- **The file system stays good** along every run of operations. -/
theorem good_run (h : Good sb H σ held s) {ops : List FsOp} {t : FsSt × List ℕ}
    (hrun : run fsStep (s, held) ops = some t) : Good sb H σ t.2 t.1 := by
  refine run_induction (P := fun _ t => Good sb H σ t.2 t.1) h ?_ hrun
  intro _ t op u _ ht hstep
  obtain ⟨hop, he⟩ := fsStep_eq_some.mp hstep
  exact (exec_spec ht hop).of_ok he

/-! ### Boot -/

/-- The kernel after boot from the disk `d`: the first process has the root directory
as its current directory, and nothing has been read. -/
def mounted (d : Disk) (consoleRead : ℕ → ℤ × Bytes) : FsSt where
  disk := d
  icache k := { Dinode.zero with
    inum := ROOTINO, ref := if k = 0 then 1 else 0, busy := false, valid := false }
  cwd := 0
  consoleRead := consoleRead
  logged := []
  ops := []
  ballocs := []
  trace := []

section Mounted

variable {d : Disk} {c : ℕ → ℤ × Bytes}

theorem mounted_cached {sb : Superblock} (hroot : ROOTINO < sb.ninodes) (V : ℕ → Dinode) :
    Cached sb (mounted d c).icache V := by
  have hzero : ∀ {k}, 0 < ((mounted d c).icache k).ref → k = 0 := by
    intro k hk
    by_contra h
    simp [mounted, h] at hk
  refine ⟨?_, fun _ => hroot, ?_, ?_, ?_, ?_⟩
  · intro k hk
    rw [hzero hk]
    decide
  · exact fun _ hv => Bool.noConfusion hv
  · exact fun _ hv => Bool.noConfusion hv
  · exact fun _ hb => Bool.noConfusion hb
  · intro k l hk hl _
    rw [hzero hk, hzero hl]

theorem mounted_refs : Refs (mounted d c) [] := by
  intro k
  by_cases h : k = 0 <;> simp [mounted, h]

end Mounted

end Nunix.Fs
