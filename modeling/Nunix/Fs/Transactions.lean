/-
Nunix/Fs/Transactions.lean

Transactions are balanced and cover every logged write (sysfile.c, file.c, exec.c, proc.c
against log.c).

The trace of a state lists the calls that concern the log.  Two places, inside and outside
of an operation, and `txStep` say in which order one process may make them: `begin_op` leads
in, `end_op` leads out, everything else happens inside.  `Goes q q' m` says that `m` takes a
process from `q` to `q'` in this order; like a type it composes along the syntax of a
program.  A program that neither begins nor ends an operation only adds calls that belong
inside (`Within`), so it may run there.

Two calls need more than their syntax.  `sys_open` calls `fileclose` inside its operation;
the file is fresh, so it has no inode to put.  `sys_read` reads outside of an operation; a
file without holes is read without allocating a block.

Together the calls of several processes keep `outstanding` at the number of processes
inside, however they interleave.
-/
import Nunix.Fs.FileTable
import Nunix.Fs.Frames

namespace Nunix.Fs

open Hoare Runs

/-! ### The order of calls -/

/-- Where a process is. -/
inductive Place
  | outside
  | inside
  deriving DecidableEq

/-- The calls one process may make. -/
def txStep : Place → TxEv → Option Place
  | .outside, .beginOp => some .inside
  | .inside, .endOp _ => some .outside
  | .inside, e => if e.within then some .inside else none
  | .outside, _ => none

theorem txStep_cases {q q' : Place} {e : TxEv} (h : txStep q e = some q') :
    (q = .outside ∧ e = .beginOp ∧ q' = .inside) ∨
    (q = .inside ∧ (∃ d, e = .endOp d) ∧ q' = .outside) ∨
    (q = .inside ∧ e.within = true ∧ q' = .inside) := by
  cases q with
  | outside =>
      cases e with
      | beginOp => exact Or.inl ⟨rfl, rfl, (Option.some.inj h).symm⟩
      | _ => cases h
  | inside =>
      cases e with
      | beginOp => cases h
      | endOp d => exact Or.inr (Or.inl ⟨rfl, ⟨d, rfl⟩, (Option.some.inj h).symm⟩)
      | _ => exact Or.inr (Or.inr ⟨rfl, rfl, (Option.some.inj h).symm⟩)

theorem txStep_within {e : TxEv} (he : e.within = true) : txStep .inside e = some .inside := by
  cases e <;> first | rfl | cases he

/-- The calls noted since the trace `t₀` are in order and lead to `q`. -/
def At (t₀ : List TxEv) (q : Place) (s : FsSt) : Prop :=
  ∃ es, s.trace = es.reverse ++ t₀ ∧ run txStep .outside es = some q

section At

variable {t₀ : List TxEv} {q q' : Place} {s s' : FsSt}

theorem at_start (s : FsSt) : At s.trace .outside s := ⟨[], rfl, rfl⟩

theorem At.same (h : At t₀ q s) (hs : s'.trace = s.trace) : At t₀ q s' := by
  obtain ⟨es, htrace, hrun⟩ := h
  exact ⟨es, hs.trans htrace, hrun⟩

theorem At.note (h : At t₀ q s) {e : TxEv} (hs : s'.trace = e :: s.trace)
    (he : txStep q e = some q') : At t₀ q' s' := by
  obtain ⟨es, htrace, hrun⟩ := h
  refine ⟨es ++ [e], ?_, run_concat_eq_some.mpr ⟨q, hrun, he⟩⟩
  rw [hs, htrace, List.reverse_append]
  rfl

/-- Only calls that belong inside were made. -/
def Within (s s' : FsSt) : Prop := ∃ es, s'.trace = es ++ s.trace ∧ ∀ e ∈ es, e.within = true

theorem within_same (hs : s'.trace = s.trace) : Within s s' := ⟨[], hs, nofun⟩

instance : IsPreorder FsSt Within where
  refl _ := within_same rfl
  trans := by
    rintro s₁ s₂ s₃ ⟨es, hes, hin⟩ ⟨fs, hfs, hin'⟩
    refine ⟨fs ++ es, by rw [hfs, hes, List.append_assoc], fun e he => ?_⟩
    rcases List.mem_append.mp he with he | he
    · exact hin' e he
    · exact hin e he

theorem At.within (h : At t₀ .inside s) (hs : Within s s') : At t₀ .inside s' := by
  obtain ⟨es, hes, hin⟩ := hs
  -- the new calls are the newest ones, one at a time
  induction es generalizing s' with
  | nil => exact h.same hes
  | cons e es ih =>
      have hmid : At t₀ .inside { s with trace := es ++ s.trace } :=
        ih rfl fun e' he' => hin e' (List.mem_cons_of_mem e he')
      exact hmid.note hes (txStep_within (hin e List.mem_cons_self))

end At

/-! ### Programs inside an operation -/

section Within

theorem takes_within : Takes Within where
  note _ e he := ⟨[e], rfl, by simpa using he⟩
  logWrite _ x b := ⟨[.logWrite x b], rfl, by simp [TxEv.within]⟩
  ballocs _ _ := within_same rfl
  slot _ _ _ _ _ := within_same rfl

theorem moves_slot (k : ℕ) : Moves Within (slot k) := fun _ => within_same rfl

theorem moves_modifySlot (k : ℕ) (f : Inode → Inode) : Moves Within (modifySlot k f) :=
  fun _ => within_same rfl

theorem moves_iget (i : ℕ) : Moves Within (iget i) := by
  refine .bind .get fun s => ?_
  dsimp only
  split
  · exact (moves_modifySlot _ _).bind fun _ => .pure _
  · split
    · exact (moves_modifySlot _ _).bind fun _ => .pure _
    · exact .throw _

theorem moves_idup (k : ℕ) : Moves Within (idup k) :=
  (moves_modifySlot _ _).bind fun _ => .pure _

theorem moves_ialloc (type : Int16) : Moves Within (ialloc type) := by
  refine (takes_within.moves_note rfl).bind fun _ => .bind .get fun s => ?_
  dsimp only
  split
  · exact (takes_within.moves_logWrite _ _).bind fun _ => moves_iget _
  · exact .throw _

theorem moves_ilock (k : ℕ) : Moves Within (ilock k) := by
  refine (moves_slot k).bind fun ip => .ite (.throw _) (.ite (.throw _) ?_)
  refine (moves_modifySlot k _).bind fun _ => .ite ?_ (.pure _)
  exact .bind .get fun s => (moves_modifySlot k _).bind fun _ => .ite (.throw _) (.pure _)

theorem moves_iunlock (k : ℕ) : Moves Within (iunlock k) :=
  (moves_slot k).bind fun _ => .ite (.throw _) (moves_modifySlot k _)

theorem moves_iput (k : ℕ) : Moves Within (iput k) := by
  refine (takes_within.moves_note rfl).bind fun _ => (moves_slot k).bind fun ip => ?_
  refine .ite (.ite (.throw _) ?_) (moves_modifySlot k _)
  refine (moves_modifySlot k _).bind fun _ => (takes_within.moves_itrunc k).bind fun _ => ?_
  refine (moves_modifySlot k _).bind fun _ => (takes_within.moves_iupdate k).bind fun _ => ?_
  exact (moves_modifySlot k _).bind fun _ => moves_modifySlot k _

theorem moves_iunlockput (k : ℕ) : Moves Within (iunlockput k) :=
  (moves_iunlock k).bind fun _ => moves_iput k

theorem moves_dirlookup (dp : ℕ) (name : List UInt8) : Moves Within (dirlookup dp name) := by
  have hloop : ∀ size off, Moves Within (dirlookupLoop dp name size off) := by
    intro size off
    induction hN : size - off using Nat.strong_induction_on generalizing off with
    | _ N ih =>
      rw [dirlookupLoop]
      split_ifs with hlt
      · refine (takes_within.moves_readi dp _ _ _).bind fun ⟨r, de⟩ => .ite (.throw _) (.ite ?_ ?_)
        · exact (moves_iget _).bind fun _ => .pure _
        · exact ih _ (by simp only [DESIZE]; omega) _ rfl
      · exact .pure _
  exact (moves_slot dp).bind fun ip => .ite (.throw _) (hloop _ _)

theorem moves_dirlink (dp : ℕ) (name : List UInt8) (inum : ℕ) :
    Moves Within (dirlink dp name inum) := by
  refine (moves_dirlookup dp name).bind fun r => ?_
  have hadd : Moves Within (do
      let off ← emptyLoop dp (← slot dp).size.toNat 0
      let r ← writei dp (dirent inum name) off DESIZE
      if r ≠ DESIZE then panic .dirlink
      return (0 : ℤ)) := by
    refine (moves_slot dp).bind fun ip => (takes_within.moves_emptyLoop dp _ 0).bind fun off => ?_
    exact (takes_within.moves_writei dp _ _ _).bind fun r => .ite (.throw _) (.pure _)
  rcases r with - | ⟨ip, off⟩
  · exact hadd
  · exact (moves_iput ip).bind fun _ => .pure _

theorem moves_namexLoop (parent : Bool) : ∀ (path : List UInt8) (ip : ℕ) (name : List UInt8),
    Moves Within (namexLoop parent path ip name) := by
  intro path
  -- `skipelem` shortens the path
  induction hN : path.length using Nat.strong_induction_on generalizing path with
  | _ N ih =>
    intro ip name
    rw [namexLoop]
    split
    · rename_i rest name' hskip
      refine (moves_ilock ip).bind fun _ => (moves_slot ip).bind fun i => .ite ?_ (.ite ?_ ?_)
      · exact (moves_iunlockput ip).bind fun _ => .pure _
      · exact (moves_iunlock ip).bind fun _ => .pure _
      · refine (moves_dirlookup ip name').bind fun r => ?_
        rcases r with - | ⟨next, off⟩
        · exact (moves_iunlockput ip).bind fun _ => .pure _
        · exact (moves_iunlockput ip).bind fun _ =>
            ih _ (hN ▸ skipelem_length hskip) rest rfl next name'
    · exact .ite ((moves_iput ip).bind fun _ => .pure _) (.pure _)

theorem moves_namex (path : List UInt8) (parent : Bool) : Moves Within (namex path parent) := by
  have hloop : ∀ ip, Moves Within (namexLoop parent path ip []) := fun ip =>
    moves_namexLoop parent path ip []
  exact .ite ((moves_iget _).bind hloop) (.bind .get fun s => (moves_idup _).bind hloop)

theorem moves_namei (path : List UInt8) : Moves Within (namei path) := by
  refine (moves_namex path false).bind fun r => ?_
  rcases r with - | ⟨ip, name⟩ <;> exact .pure _

theorem moves_create (path : List UInt8) (type major minor : Int16) :
    Moves Within (create path type major minor) := by
  refine (moves_namex path true).bind fun r => ?_
  rcases r with - | ⟨dp, name⟩
  · exact .pure _
  refine (moves_ilock dp).bind fun _ => (moves_dirlookup dp name).bind fun r => ?_
  rcases r with - | ⟨ip, off⟩
  · -- a new inode
    refine (moves_ialloc type).bind fun ip => (moves_ilock ip).bind fun _ => ?_
    refine (moves_modifySlot ip _).bind fun _ => (takes_within.moves_iupdate ip).bind fun _ => ?_
    have hlast : Moves Within (do
        if (← dirlink dp name (← slot ip).inum) < 0 then panic .createDirlink
        iunlockput dp
        return some ip) := by
      refine (moves_slot ip).bind fun i => (moves_dirlink dp name _).bind fun r => ?_
      exact .ite (.throw _) ((moves_iunlockput dp).bind fun _ => .pure _)
    refine .ite ?_ hlast
    refine (moves_modifySlot dp _).bind fun _ => (takes_within.moves_iupdate dp).bind fun _ => ?_
    refine (moves_slot ip).bind fun i => (moves_dirlink ip _ _).bind fun r => .ite (.throw _) ?_
    exact (moves_slot dp).bind fun i => (moves_dirlink ip _ _).bind fun r => .ite (.throw _) hlast
  · refine (moves_iunlockput dp).bind fun _ => (moves_ilock ip).bind fun _ => ?_
    exact (moves_slot ip).bind fun i => .ite (.pure _) ((moves_iunlockput ip).bind fun _ => .pure _)

theorem moves_openInode (path : List UInt8) (omode : UInt32) :
    Moves Within (openInode path omode) := by
  refine .ite (moves_create path _ _ _) ((moves_namei path).bind fun r => ?_)
  rcases r with - | ip
  · exact .pure _
  · exact (moves_ilock ip).bind fun _ => (moves_slot ip).bind fun i =>
      .ite ((moves_iunlockput ip).bind fun _ => .pure _) (.pure _)

end Within

/-! ### From one place to the other -/

section Goes

variable {ε σ α β : Type} {π : σ → FsSt} {q q' q'' : Place} {m m' : EStateM ε σ α}

/-- `m` takes a process from `q` to `q'`, or stops after calls that are in order. -/
def Goes (π : σ → FsSt) (q q' : Place) (m : EStateM ε σ α) : Prop :=
  ∀ t₀ s, At t₀ q (π s) →
    Wp m (fun _ s' => At t₀ q' (π s')) (fun _ s' => ∃ r, At t₀ r (π s')) s

namespace Goes

theorem pure (a : α) : Goes π q q (pure a : EStateM ε σ α) := fun _ _ h => h

theorem throw (e : ε) : Goes π q q' (throw e : EStateM ε σ α) := fun _ _ h => ⟨q, h⟩

theorem get : Goes π q q (get : EStateM ε σ σ) := fun _ _ h => h

theorem bind {f : α → EStateM ε σ β} (h : Goes π q q' m) (h' : ∀ a, Goes π q' q'' (f a)) :
    Goes π q q'' (m >>= f) := fun t₀ s hs => (h t₀ s hs).seq fun a s' hs' => h' a t₀ s' hs'

theorem ite {c : Prop} [Decidable c] (h : Goes π q q' m) (h' : Goes π q q' m') :
    Goes π q q' (if c then m else m') := by
  split_ifs
  · exact h
  · exact h'

/-- A program that makes no such call stays where it is. -/
theorem of_leaves (h : Leaves (fun s => (π s).trace) m) : Goes π q q m := fun _ s hs =>
  (h s).mono (fun _ _ hs' => hs.same hs') fun _ _ hs' => ⟨q, hs.same hs'⟩

/-- A program that neither begins nor ends an operation may run inside. -/
theorem of_moves {m : FsM α} (h : Moves Within m) : Goes id .inside .inside m := fun _ s hs =>
  (h s).mono (fun _ _ hs' => hs.within hs') fun _ _ hs' => ⟨.inside, hs.within hs'⟩

theorem inside {m : FsM α} {f : α → FsM β} (h : Moves Within m)
    (h' : ∀ a, Goes id .inside q (f a)) : Goes id .inside q (m >>= f) := (of_moves h).bind h'

theorem quiet {f : α → EStateM ε σ β} (h : Leaves (fun s => (π s).trace) m)
    (h' : ∀ a, Goes π q q' (f a)) : Goes π q q' (m >>= f) := (of_leaves h).bind h'

theorem onFs {m : FsM α} (h : Goes id q q' m) : Goes SysSt.fs q q' (onFs m) :=
  fun t₀ s hs => wp_onFs.mpr (h t₀ s.fs hs)

theorem insideFs {m : FsM α} {f : α → SysM β} (h : Moves Within m)
    (h' : ∀ a, Goes SysSt.fs .inside q (f a)) : Goes SysSt.fs .inside q (Fs.onFs m >>= f) :=
  (of_moves h).onFs.bind h'

end Goes

theorem goes_beginOp : Goes id .outside .inside beginOp := fun _ _ h => h.note rfl rfl

theorem goes_endOp : Goes id .inside .outside endOp := fun _ _ h => h.note rfl rfl

theorem goes_endOp_return (a : α) : Goes id .inside .outside (do endOp; return a) :=
  goes_endOp.bind fun _ => .pure _

theorem goes_iunlockput_return (k : ℕ) (a : α) :
    Goes id .inside .outside (do iunlockput k; endOp; return a) :=
  .inside (moves_iunlockput k) fun _ => goes_endOp_return a

end Goes

/-! ### Calls on the file system -/

/-- `sys_mkdir` and `sys_mknod`. -/
theorem goes_createCall (path : Option CStr) (type major minor : Int16) :
    Goes id .outside .outside (createCall path type major minor) := by
  refine goes_beginOp.bind fun _ => ?_
  rcases path with - | path
  · exact goes_endOp_return _
  refine .inside (moves_create path.bytes type major minor) fun ip => ?_
  rcases ip with - | ip
  · exact goes_endOp_return _
  · exact goes_iunlockput_return ip _

theorem goes_sysLinkBad (ip : ℕ) : Goes id .inside .outside (sysLinkBad ip) := by
  refine .inside (moves_ilock ip) fun _ => ?_
  refine .inside (moves_modifySlot ip _) fun _ => ?_
  exact .inside (takes_within.moves_iupdate ip) fun _ => goes_iunlockput_return ip _

theorem goes_sysLink (old new : List UInt8) : Goes id .outside .outside (sysLink old new) := by
  refine goes_beginOp.bind fun _ => .inside (moves_namei old) fun ip => ?_
  rcases ip with - | ip
  · exact goes_endOp_return _
  refine .inside (moves_ilock ip) fun _ => .inside (moves_slot ip) fun i =>
    .ite (goes_iunlockput_return ip _) ?_
  refine .inside (moves_modifySlot ip _) fun _ => ?_
  refine .inside (takes_within.moves_iupdate ip) fun _ => ?_
  refine .inside (moves_iunlock ip) fun _ => ?_
  refine .inside (moves_namex new true) fun r => ?_
  rcases r with - | ⟨dp, name⟩
  · exact goes_sysLinkBad ip
  refine .inside (moves_ilock dp) fun _ => .inside (moves_slot ip) fun i => ?_
  refine .inside (moves_dirlink dp name _) fun r => .ite ?_ ?_
  · exact .inside (moves_iunlockput dp) fun _ => goes_sysLinkBad ip
  · exact .inside (moves_iunlockput dp) fun _ =>
      .inside (moves_iput ip) fun _ => goes_endOp_return _

theorem goes_sysUnlink (path : List UInt8) : Goes id .outside .outside (sysUnlink path) := by
  refine goes_beginOp.bind fun _ => .inside (moves_namex path true) fun r => ?_
  rcases r with - | ⟨dp, name⟩
  · exact goes_endOp_return _
  refine .inside (moves_ilock dp) fun _ => .ite (goes_iunlockput_return dp _) ?_
  refine .inside (moves_dirlookup dp name) fun r => ?_
  rcases r with - | ⟨ip, off⟩
  · exact goes_iunlockput_return dp _
  refine .inside (moves_ilock ip) fun _ => .inside (moves_slot ip) fun i =>
    .ite (.throw _) (.inside (moves_slot ip) fun i => ?_)
  -- the entry is cleared and the inode loses its link
  have hclear : Goes id .inside .outside (sysUnlinkClear dp ip off) := by
    have hend : Goes id .inside .outside (sysUnlinkEnd dp ip) := by
      refine .inside (moves_iunlockput dp) fun _ => ?_
      refine .inside (moves_modifySlot ip _) fun _ => ?_
      exact .inside (takes_within.moves_iupdate ip) fun _ => goes_iunlockput_return ip _
    refine .inside (takes_within.moves_writei dp _ _ _) fun r => .ite (.throw _) ?_
    refine .inside (moves_slot ip) fun i => .ite ?_ hend
    refine .inside (moves_modifySlot dp _) fun _ => ?_
    exact .inside (takes_within.moves_iupdate dp) fun _ => hend
  refine .ite (.inside (takes_within.moves_isdirempty ip) fun r => .ite ?_ hclear) hclear
  exact .inside (moves_iunlockput ip) fun _ => goes_iunlockput_return dp _

/-- `filewrite`: each part of the write is an operation of its own. -/
theorem goes_filewrite (k : ℕ) (src : Bytes) (off : ℕ) (n : ℤ) :
    Goes id .outside .outside (filewrite k src off n) := by
  have hloop : ∀ n i off, Goes id .outside .outside (filewriteLoop k src n i off) := by
    intro n i off
    induction hN : n - i using Nat.strong_induction_on generalizing i off with
    | _ N ih =>
      rw [filewriteLoop]
      have hmax : writeMax = 6656 := rfl
      by_cases hlt : i < n
      · rw [dif_pos hlt]
        refine goes_beginOp.bind fun _ => .inside (moves_ilock k) fun _ => ?_
        refine .inside (takes_within.moves_writei k _ _ _) fun r => ?_
        refine .inside (moves_iunlock k) fun _ => goes_endOp.bind fun _ => ?_
        refine .ite (.pure _) (.ite (.throw _) (ih _ ?_ _ _ rfl))
        split_ifs <;> omega
      · rw [dif_neg hlt]
        exact .pure _
  exact .ite (.pure _) (hloop _ _ _)

/-! ### Files without holes -/

/-- No block below the size of `ip` is unallocated. -/
def Dinode.NoHoles (d : Disk) (ip : Dinode) : Prop :=
  ∀ bn < MAXFILE, bn * BSIZE < ip.size.toNat → ip.HasBlock d bn

/-- No inode, on disk or in the cache, has an unallocated block below its size. -/
structure FsSt.NoHoles (s : FsSt) : Prop where
  disk : ∀ i, (dinode s.disk i).type ≠ 0 → (dinode s.disk i).NoHoles s.disk
  cache : ∀ k, (s.icache k).valid = true → (s.icache k).toDinode.NoHoles s.disk

section NoHoles

variable {s : FsSt} {k bn : ℕ}

/-- A block that is there is found without a change. -/
theorem bmap_hasBlock (h : bn < MAXFILE → (s.icache k).toDinode.HasBlock s.disk bn) :
    Wp (bmap k bn) (fun _ s' => s' = s) (fun _ s' => s' = s) s := by
  unfold bmap
  unfold Dinode.HasBlock at h
  split_ifs with hdir hind
  · have haddr := h (by simp only [MAXFILE, NINDIRECT]; omega)
    rw [dif_pos hdir] at haddr
    exact wp_bind.mpr (wp_ite.mpr ⟨fun h0 => absurd h0 haddr, fun _ => rfl⟩)
  · have haddr := h (by simp only [MAXFILE]; omega)
    rw [dif_neg hdir] at haddr
    refine wp_bind.mpr (wp_ite.mpr ⟨fun h0 => absurd h0 haddr.1, fun _ => ?_⟩)
    exact wp_bind.mpr (wp_ite.mpr ⟨fun h0 => absurd h0 haddr.2, fun _ => rfl⟩)
  · rfl

theorem readiLoop_noHoles (h : (s.icache k).toDinode.NoHoles s.disk) {n : ℕ} :
    ∀ tot off dst, off + (n - tot) ≤ (s.icache k).size.toNat →
      Wp (readiLoop k n tot off dst) (fun _ s' => s' = s) (fun _ s' => s' = s) s := by
  intro tot off dst
  induction hN : n - tot using Nat.strong_induction_on generalizing tot off dst with
  | _ N ih =>
    intro hle
    rw [readiLoop]
    have hoff : off % BSIZE < BSIZE := Nat.mod_lt _ (by decide)
    split_ifs with hlt
    · refine (bmap_hasBlock fun hbn => h _ hbn ?_).seq fun x s' hs' => ?_
      · have := Nat.div_mul_le_self off BSIZE
        omega
      · subst hs'
        exact wp_bind.mpr (ih _ (by omega) _ _ _ rfl (by omega))
    · rfl

/-- A file without holes is read without a change. -/
theorem readi_noHoles (h : (s.icache k).toDinode.NoHoles s.disk) (dst : Bytes) (off : ℕ) {n : ℕ}
    (hn : n < 2 ^ 32) :
    Wp (readi k dst off n) (fun _ s' => s' = s) (fun _ s' => s' = s) s := by
  unfold readi
  refine wp_bind.mpr (wp_ite.mpr ⟨fun _ => wp_ite.mpr ⟨fun _ => rfl, fun _ => rfl⟩, fun _ => ?_⟩)
  refine wp_ite.mpr ⟨fun _ => rfl, fun hbad => wp_bind.mpr ?_⟩
  push Not at hbad
  refine readiLoop_noHoles h 0 off dst ?_
  -- without the wrap that is refused
  have hwrap : (off + n) % 2 ^ 32 = off + n := by
    have := (s.icache k).size.toNat_lt
    by_contra hne
    omega
  rw [hwrap] at *
  split_ifs <;> omega

/-- A locked inode has no holes. -/
theorem ilock_noHoles (h : s.NoHoles) (k : ℕ) :
    Wp (ilock k) (fun _ s' => s'.trace = s.trace ∧ (s'.icache k).toDinode.NoHoles s'.disk)
      (fun _ s' => s'.trace = s.trace) s := by
  unfold ilock
  refine wp_bind.mpr (wp_ite.mpr ⟨fun _ => rfl, fun _ => wp_ite.mpr ⟨fun _ => rfl, fun _ => ?_⟩⟩)
  refine wp_bind.mpr (wp_ite.mpr ⟨fun _ => ?_, fun hv => ⟨rfl, ?_⟩⟩)
  · refine wp_bind.mpr (wp_bind.mpr (wp_ite.mpr ⟨fun _ => rfl, fun ht => ⟨rfl, ?_⟩⟩))
    simpa using h.disk _ ht
  · simpa using h.cache k (by simpa using hv)

end NoHoles

/-! ### Calls of processes -/

section calls

variable {p f : ℕ} {q : Place}

theorem goes_fileclose (f : ℕ) : Goes SysSt.fs .outside .outside (fileclose f) := by
  refine .quiet (fun _ => rfl) fun ff => .ite (.throw _) (.ite (.of_leaves fun _ => rfl) ?_)
  refine .quiet (fun _ => rfl) fun _ => ?_
  rcases ff.type with - | - | -
  · exact .pure _
  · refine .quiet (fun _ => rfl) fun _ => .quiet (fun _ => rfl) fun _ => ?_
    exact .bind .get fun s => .ite (.quiet (fun _ => rfl) fun _ => .of_leaves fun _ => rfl)
      (.pure _)
  · refine .quiet (fun _ => rfl) fun _ => goes_beginOp.onFs.bind fun _ => ?_
    exact .insideFs (moves_iput _) fun _ => goes_endOp.onFs

/-- A file that was just allocated has no inode to put: closing it makes no such call. -/
theorem fileclose_fresh {t₀ : List TxEv} {s : SysSt} (h : At t₀ q s.fs)
    (hf : (s.ftable f).ref = 1 ∧ (s.ftable f).type = .none) :
    Wp (fileclose f) (fun _ s' => At t₀ q s'.fs) (fun _ s' => ∃ r, At t₀ r s'.fs) s := by
  unfold fileclose
  refine wp_bind.mpr (wp_ite.mpr ⟨fun hbad => ?_, fun _ => wp_ite.mpr ⟨fun hbad => ?_, fun _ => ?_⟩⟩)
  · exact ⟨q, h⟩
  · rw [hf.1] at hbad
    exact absurd hbad (by decide)
  · refine wp_bind.mpr ?_
    rw [hf.2]
    exact h

theorem goes_fdalloc (p f : ℕ) : Goes SysSt.fs q q (fdalloc p f) := by
  refine .bind .get fun s => ?_
  dsimp only
  split
  · exact .quiet (fun _ => rfl) fun _ => .pure _
  · exact .pure _

theorem goes_filealloc : Goes SysSt.fs q q filealloc := by
  refine .bind .get fun s => ?_
  dsimp only
  split
  · exact .quiet (fun _ => rfl) fun _ => .pure _
  · exact .pure _

theorem goes_argfd (p : ℕ) (fd : ℤ) : Goes SysSt.fs q q (argfd p fd) :=
  .ite (.pure _) (.quiet (fun _ => rfl) fun _ => .pure _)

theorem goes_sysOpenBad (ip : ℕ) : Goes SysSt.fs .inside .outside (sysOpenBad ip) :=
  .insideFs (moves_iunlockput ip) fun _ => goes_endOp.onFs.bind fun _ => .pure _

/-- The entries of the file table that are not in use have no type. -/
def Idle (t : ℕ → File) : Prop := ∀ f, (t f).ref = 0 → (t f).type = .none

theorem filealloc_fresh {s : SysSt} (hidle : Idle s.ftable) {E : Stop → SysSt → Prop} :
    Wp filealloc (fun r s' => s'.fs = s.fs ∧
      ∀ f, r = some f → (s'.ftable f).ref = 1 ∧ (s'.ftable f).type = .none) E s := by
  unfold filealloc modifyFile
  simp only [wp_bind, wp_get]
  split
  · rename_i f hfind
    have href : (s.ftable f).ref = 0 := by simpa using List.find?_some hfind
    simp only [wp_bind, wp_modify, wp_pure]
    refine ⟨trivial, fun g hg => ?_⟩
    obtain rfl := Option.some.inj hg
    rw [Function.update_self]
    exact ⟨rfl, hidle f href⟩
  · exact ⟨rfl, by simp⟩

/-- A call from `s` makes its calls in order, and is outside of an operation when it
returns. -/
def Ordered (s : SysSt) (m : SysM ℤ) : Prop :=
  Wp m (fun _ s' => At s.fs.trace .outside s'.fs) (fun _ s' => ∃ r, At s.fs.trace r s'.fs) s

theorem Goes.ordered {m : SysM ℤ} (h : Goes SysSt.fs .outside .outside m) (s : SysSt) :
    Ordered s m := h s.fs.trace s (at_start s.fs)

theorem ordered_sysOpen {s : SysSt} (hidle : Idle s.ftable) (path : Option CStr) (omode : UInt32) :
    Ordered s (sysOpen p path omode) := by
  rcases path with - | path
  · exact at_start s.fs
  refine wp_bind.mpr (wp_onFs.mpr ((goes_beginOp _ _ (at_start s.fs)).imp fun _ fs₀ h₀ => ?_))
  refine wp_bind.mpr (wp_onFs.mpr ((Goes.of_moves (moves_openInode path.bytes omode) _ _ h₀).imp ?_))
  intro r fs h₁
  rcases r with - | ip
  · exact (goes_endOp.onFs.bind fun _ => .pure _) _ _ h₁
  refine (filealloc_fresh (s := { s with fs := fs }) hidle).seq fun r s₂ ⟨hfs, hf⟩ => ?_
  have h₂ : At s.fs.trace .inside s₂.fs := by
    rw [hfs]
    exact h₁
  rcases r with - | f
  · exact goes_sysOpenBad ip _ _ h₂
  refine wp_bind.mpr (fdalloc_spec ?_ fun fd _ _ => ?_)
  · exact (fileclose_fresh h₂ (hf f rfl)).seq fun _ s₃ h₃ => goes_sysOpenBad ip _ _ h₃
  · refine (Goes.insideFs (moves_iunlock ip) fun _ => goes_endOp.onFs.bind fun _ => ?_) _ _ h₂
    exact .quiet (fun _ => rfl) fun _ => .quiet (fun _ => rfl) fun _ => .pure _

theorem goes_sysChdir (path : Option CStr) : Goes SysSt.fs .outside .outside (sysChdir p path) := by
  refine goes_beginOp.onFs.bind fun _ => ?_
  rcases path with - | path
  · exact goes_endOp.onFs.bind fun _ => .pure _
  refine .insideFs (moves_namei path.bytes) fun ip => ?_
  rcases ip with - | ip
  · exact goes_endOp.onFs.bind fun _ => .pure _
  refine .insideFs (moves_ilock ip) fun _ => ?_
  refine .insideFs (moves_slot ip) fun i => .ite (goes_sysOpenBad ip) ?_
  refine .insideFs (moves_iunlock ip) fun _ => .bind .get fun s => ?_
  refine .insideFs (moves_iput _) fun _ => goes_endOp.onFs.bind fun _ => ?_
  exact .quiet (fun _ => rfl) fun _ => .pure _

/-- The states of a process that made only calls that belong inside. -/
def SysWithin (s s' : SysSt) : Prop := Within s.fs s'.fs

instance : IsPreorder SysSt SysWithin where
  refl s := refl_of Within s.fs
  trans _ _ _ h h' := trans_of Within h h'

theorem goes_sysExec (mem : ExecMem) (path : Option CStr) :
    Goes SysSt.fs .outside .outside (sysExec mem path) := by
  have hread : ∀ ip dst off n, Moves SysWithin (onFs (readi ip dst off n)) := fun ip dst off n s =>
    wp_onFs.mpr (takes_within.moves_readi ip dst off n s.fs)
  have hload : ∀ ip, Goes SysSt.fs .inside .inside (execLoad mem ip) := fun ip _ s hs =>
    (moves_execLoad hread mem ip s).mono (fun _ _ hs' => hs.within hs') fun _ _ hs' =>
      ⟨.inside, hs.within hs'⟩
  rcases path with - | path
  · exact .pure _
  refine goes_beginOp.onFs.bind fun _ => ?_
  refine .insideFs (moves_namei path.bytes) fun ip => ?_
  rcases ip with - | ip
  · exact goes_endOp.onFs.bind fun _ => .pure _
  refine .insideFs (moves_ilock ip) fun _ => (hload ip).bind fun loaded => ?_
  exact .insideFs (moves_iunlockput ip) fun _ => goes_endOp.onFs.bind fun _ => .pure _

theorem goes_sysWrite (fd : ℤ) (src : Bytes) (n r : ℤ) :
    Goes SysSt.fs .outside .outside (sysWrite p fd src n r) := by
  refine (goes_argfd p fd).bind fun a => ?_
  rcases a with - | ⟨fd, f⟩
  · exact .pure _
  refine .quiet (fun _ => rfl) fun x => .ite (.pure _) ?_
  rcases x.type with - | - | -
  · exact .throw _
  · exact .pure _
  · exact (goes_filewrite x.ip src x.off n).onFs.bind fun ⟨r, off⟩ =>
      .quiet (fun _ => rfl) fun _ => .pure _

theorem leaves_ilock_trace (k : ℕ) : Leaves FsSt.trace (ilock k) := by
  refine .bind (fun _ => rfl) fun ip => .ite (.throw _) (.ite (.throw _) ?_)
  refine .bind (fun _ => rfl) fun _ => .ite ?_ (.pure _)
  exact .bind .get fun s => .bind (fun _ => rfl) fun _ => .ite (.throw _) (.pure _)

theorem leaves_iunlock_trace (k : ℕ) : Leaves FsSt.trace (iunlock k) :=
  .bind (fun _ => rfl) fun _ => .ite (.throw _) fun _ => rfl

theorem goes_sysFstat (fd : ℤ) : Goes SysSt.fs .outside .outside (sysFstat p fd) := by
  refine (goes_argfd p fd).bind fun a => ?_
  rcases a with - | ⟨fd, f⟩
  · exact .pure _
  refine .quiet (fun _ => rfl) fun x => .ite ?_ (.pure _)
  refine (Goes.of_leaves (leaves_ilock_trace x.ip)).onFs.bind fun _ => ?_
  exact (Goes.of_leaves (leaves_iunlock_trace x.ip)).onFs.bind fun _ => .pure _

/-- Reading needs a file without holes: it is outside of an operation. -/
theorem ordered_sysRead {s : SysSt} (h : s.fs.NoHoles) (fd : ℤ) (n : UInt32) (r : ℤ) :
    Ordered s (sysRead p fd n r) := by
  have h₀ := at_start s.fs
  refine wp_bind.mpr (argfd_spec h₀ fun fd f _ _ => ?_)
  refine wp_bind.mpr (wp_ite.mpr ⟨fun _ => h₀, fun _ => ?_⟩)
  rcases (s.ftable f).type with - | - | -
  · exact ⟨_, h₀⟩
  · exact h₀
  refine wp_bind.mpr (wp_onFs.mpr ((ilock_noHoles h _).mono ?_ fun _ _ ht => ⟨_, h₀.same ht⟩))
  rintro - fs₁ ⟨ht₁, hno₁⟩
  have h₁ := h₀.same ht₁
  refine wp_bind.mpr (wp_onFs.mpr ((readi_noHoles hno₁ _ _ n.toNat_lt).mono ?_ ?_))
  · rintro ⟨r, b⟩ fs₂ rfl
    refine (Goes.ite ?_ ?_ : Goes SysSt.fs .outside .outside _) _ _ h₁
    · refine .quiet (fun _ => rfl) fun _ => ?_
      exact (Goes.of_leaves (leaves_iunlock_trace _)).onFs.bind fun _ => .pure _
    · exact (Goes.of_leaves (leaves_iunlock_trace _)).onFs.bind fun _ => .pure _
  · rintro e fs₂ rfl
    exact ⟨_, h₁⟩

theorem goes_filedup (f : ℕ) : Goes SysSt.fs q q (filedup f) :=
  .quiet (fun _ => rfl) fun _ => .ite (.throw _) (.of_leaves fun _ => rfl)

theorem goes_sysDup (fd : ℤ) : Goes SysSt.fs q q (sysDup p fd) := by
  refine (goes_argfd p fd).bind fun a => ?_
  rcases a with - | ⟨fd, f⟩
  · exact .pure _
  refine (goes_fdalloc p f).bind fun r => ?_
  rcases r with - | fd'
  · exact .pure _
  · exact (goes_filedup f).bind fun _ => .pure _

theorem goes_sysClose (fd : ℤ) : Goes SysSt.fs .outside .outside (sysClose p fd) := by
  refine (goes_argfd p fd).bind fun a => ?_
  rcases a with - | ⟨fd, f⟩
  · exact .pure _
  · exact .quiet (fun _ => rfl) fun _ => (goes_fileclose f).bind fun _ => .pure _

theorem goes_pipealloc (kalloc : Option ℕ) :
    Goes SysSt.fs .outside .outside (pipealloc kalloc) := by
  refine goes_filealloc.bind fun rf => ?_
  rcases rf with - | rf
  · exact .pure _
  refine goes_filealloc.bind fun wf => ?_
  rcases wf with - | wf
  · exact (goes_fileclose rf).bind fun _ => .pure _
  rcases kalloc with - | pg
  · exact (goes_fileclose rf).bind fun _ => (goes_fileclose wf).bind fun _ => .pure _
  refine .bind .get fun s => .ite (.throw _) (.quiet (fun _ => rfl) fun _ => ?_)
  refine .quiet (fun _ => rfl) fun _ => .quiet (fun _ => rfl) fun _ => ?_
  refine .quiet (fun _ => rfl) fun _ => .quiet (fun _ => rfl) fun _ => ?_
  exact .quiet (fun _ => rfl) fun _ => .pure _

theorem goes_sysPipe (kalloc : Option ℕ) :
    Goes SysSt.fs .outside .outside (sysPipe p kalloc) := by
  refine (goes_pipealloc kalloc).bind fun r => ?_
  rcases r with - | ⟨rf, wf⟩
  · exact .pure _
  have hclose : Goes SysSt.fs .outside .outside (do
      fileclose rf
      fileclose wf
      return (-1 : ℤ)) :=
    (goes_fileclose rf).bind fun _ => (goes_fileclose wf).bind fun _ => .pure _
  refine (goes_fdalloc p rf).bind fun fd0 => ?_
  rcases fd0 with - | fd0
  · exact hclose
  refine (goes_fdalloc p wf).bind fun fd1 => ?_
  rcases fd1 with - | fd1
  · exact .quiet (fun _ => rfl) fun _ => hclose
  · exact .pure _

theorem goes_fork (np : Option ℕ) (mem : Bool) : Goes SysSt.fs q q (fork p np mem) := by
  have hdup : ∀ (o : ℕ → Option ℕ) (fds : List ℕ), Goes SysSt.fs q q (dupFiles o fds) := by
    intro o fds
    induction fds with
    | nil => exact .pure _
    | cons fd fds ih =>
        rw [dupFiles]
        rcases o fd with - | f
        · exact ih
        · exact (goes_filedup f).bind fun _ => ih
  rcases np with - | np
  · exact .pure _
  refine .bind .get fun s => .ite (.throw _) (.ite (.pure _) (.bind .get fun s => ?_))
  have hidup : ∀ k, Goes id q q (idup k) := fun k => .of_leaves fun _ => rfl
  refine (hdup _ _).bind fun _ => (hidup _).onFs.bind fun cwd => ?_
  exact .quiet (fun _ => rfl) fun _ => .pure _

theorem goes_exit : Goes SysSt.fs .outside .outside (Fs.exit p) := by
  have hclose : ∀ fds : List ℕ, Goes SysSt.fs .outside .outside (closeFiles p fds) := by
    intro fds
    induction fds with
    | nil => exact .pure _
    | cons fd fds ih =>
        refine .quiet (fun _ => rfl) fun o => ?_
        rcases o with - | f
        · exact ih
        · exact (goes_fileclose f).bind fun _ => .quiet (fun _ => rfl) fun _ => ih
  refine .ite (.throw _) ((hclose _).bind fun _ => goes_beginOp.onFs.bind fun _ => .bind .get fun s => ?_)
  refine .insideFs (moves_iput _) fun _ => goes_endOp.onFs.bind fun _ => ?_
  exact .quiet (fun _ => rfl) fun _ => .pure _

/-- Every call makes its calls in order. -/
theorem ordered_body {s : SysSt} (hidle : Idle s.ftable) (hfs : s.fs.NoHoles) (c : Call) :
    Ordered s (c.body p) := by
  cases c with
  | «open» path omode => exact ordered_sysOpen hidle path omode
  | mkdir path => exact (goes_createCall path _ _ _).onFs.ordered s
  | mknod path major minor => exact (goes_createCall path _ _ _).onFs.ordered s
  | link old new =>
      rcases old with - | old <;> rcases new with - | new
      · exact (Goes.pure _).onFs.ordered s
      · exact (Goes.pure _).onFs.ordered s
      · exact (Goes.pure _).onFs.ordered s
      · exact (goes_sysLink old.bytes new.bytes).onFs.ordered s
  | unlink path =>
      rcases path with - | path
      · exact (Goes.pure _).onFs.ordered s
      · exact (goes_sysUnlink path.bytes).onFs.ordered s
  | chdir path => exact (goes_sysChdir path).ordered s
  | close fd => exact (goes_sysClose fd).ordered s
  | dup fd => exact (goes_sysDup fd).ordered s
  | read fd n r => exact ordered_sysRead hfs fd n r
  | write fd src n r => exact (goes_sysWrite fd src n r).ordered s
  | fstat fd => exact (goes_sysFstat fd).ordered s
  | pipe kalloc => exact (goes_sysPipe kalloc).ordered s
  | exec mem path => exact (goes_sysExec mem path).ordered s
  | fork np mem => exact (goes_fork np mem).ordered s
  | exit => exact goes_exit.ordered s

theorem ordered_perform {s : SysSt} (hidle : Idle s.ftable) (hfs : s.fs.NoHoles) (c : Call) :
    Ordered s (c.perform p) :=
  wp_bind.mpr (ordered_body (s := { s with fs := { s.fs with cwd := (s.proc p).cwd } }) hidle
    ⟨hfs.disk, hfs.cache⟩ c)

/-- The file table after calls from boot. -/
theorem idle_of_run {fs : FsSt} {es : List (ℕ × Call)} {s : SysSt}
    (h : run callStep (SysSt.boot fs) es = some s) : Idle s.ftable := by
  have hex : Exact s :=
    run_induction (P := fun _ s => Exact s) (Exact.boot fs) (fun _ _ _ _ _ h hs => h.step hs) h
  intro f href
  by_contra hne
  have hpos := hex.tab.files.typed hne
  have := hex.tab.files.ref f
  omega

end calls

/-! ### Several processes -/

section Several

variable {w : List (Fin NPROC × TxEv)} {p : Fin NPROC}

/-- What the calls of all processes do to `outstanding`; `log_write` panics with "log_write
outside of trans" while it is below one. -/
def logCount : ℤ → Fin NPROC × TxEv → Option ℤ
  | n, (_, .beginOp) => some (n + 1)
  | n, (_, .endOp _) => some (n - 1)
  | n, (_, .logWrite _ _) => if n < 1 then none else some n
  | n, _ => some n

/-- The calls that process `p` made. -/
def own (p : Fin NPROC) (w : List (Fin NPROC × TxEv)) : List TxEv :=
  (w.filter fun e => e.1 = p).map Prod.snd

theorem own_concat (p q : Fin NPROC) (e : TxEv) :
    own p (w ++ [(q, e)]) = own p w ++ if q = p then [e] else [] := by
  unfold own
  by_cases h : q = p
  · simp [h]
  · simp [h]

/-- The processes inside an operation. -/
def insiders (w : List (Fin NPROC × TxEv)) : Finset (Fin NPROC) :=
  Finset.univ.filter fun p => run txStep .outside (own p w) = some .inside

/-- **`outstanding` counts the processes inside**, if the calls of each process are in
order. -/
theorem logCount_eq_insiders (h : ∀ p, ∃ q, run txStep .outside (own p w) = some q) :
    run logCount 0 w = some ((insiders w).card : ℤ) := by
  induction w using List.reverseRecOn with
  | nil =>
      have hnone : insiders [] = ∅ := by
        refine Finset.filter_eq_empty_iff.mpr fun p _ => ?_
        simp [own]
      rw [hnone]
      rfl
  | append_singleton w x ih =>
      obtain ⟨p, e⟩ := x
      have hown : ∀ q, q ≠ p → own q (w ++ [(p, e)]) = own q w := fun q hq => by
        rw [own_concat, if_neg hq.symm, List.append_nil]
      have hp : own p (w ++ [(p, e)]) = own p w ++ [e] := by rw [own_concat, if_pos rfl]
      obtain ⟨q', hq'⟩ := h p
      rw [hp] at hq'
      obtain ⟨q, hq, hstep⟩ := run_concat_eq_some.mp hq'
      refine run_concat_eq_some.mpr ⟨_, ih fun r => ?_, ?_⟩
      · by_cases hr : r = p
        · exact ⟨q, hr ▸ hq⟩
        · rw [← hown r hr]
          exact h r
      -- only the place of `p` changes
      have hmem : ∀ r, r ≠ p → (r ∈ insiders (w ++ [(p, e)]) ↔ r ∈ insiders w) := fun r hr => by
        simp only [insiders, Finset.mem_filter, Finset.mem_univ, true_and, hown r hr]
      have hbefore : p ∈ insiders w ↔ q = .inside := by
        simp only [insiders, Finset.mem_filter, Finset.mem_univ, true_and, hq, Option.some.injEq]
      have hafter : p ∈ insiders (w ++ [(p, e)]) ↔ q' = .inside := by
        simp only [insiders, Finset.mem_filter, Finset.mem_univ, true_and, hp, hq',
          Option.some.injEq]
      rcases txStep_cases hstep with ⟨rfl, rfl, rfl⟩ | ⟨rfl, ⟨d, rfl⟩, rfl⟩ | ⟨rfl, he, rfl⟩
      · have hins : insiders (w ++ [(p, .beginOp)]) = insert p (insiders w) := by
          ext r
          by_cases hr : r = p
          · simp [hr, hafter]
          · simp [hr, hmem r hr]
        rw [hins, Finset.card_insert_of_notMem (by simp [hbefore])]
        simp [logCount]
      · have hins : insiders (w ++ [(p, .endOp d)]) = (insiders w).erase p := by
          ext r
          by_cases hr : r = p
          · simp [hr, hafter]
          · simp [hr, hmem r hr]
        have hpos := Finset.card_pos.mpr ⟨p, hbefore.mpr rfl⟩
        rw [hins, Finset.card_erase_of_mem (hbefore.mpr rfl), Nat.cast_sub hpos]
        rfl
      · have hins : insiders (w ++ [(p, e)]) = insiders w := by
          ext r
          by_cases hr : r = p
          · simp [hr, hafter, hbefore]
          · exact hmem r hr
        have hpos := Finset.card_pos.mpr ⟨p, hbefore.mpr rfl⟩
        rw [hins]
        -- of the calls inside, only `log_write` looks at the count
        cases e with
        | beginOp => cases he
        | endOp d => cases he
        | logWrite x b => exact if_neg (by omega)
        | balloc => rfl
        | bfree b => rfl
        | ialloc => rfl
        | iupdate k => rfl
        | iput k => rfl

/-- The calls `es` are those of a system call of process `p`, with `done` one that returned:
from a file table as system calls from boot leave it, and any file system without holes. -/
def CallEvents (p : ℕ) (done : Bool) (es : List TxEv) : Prop :=
  ∃ (fs₀ fs : FsSt) (cs : List (ℕ × Call)) (s : SysSt) (c : Call),
    run callStep (SysSt.boot fs₀) cs = some s ∧ fs.NoHoles ∧
    (after (c.perform p) { s with fs := fs }).fs.trace = es.reverse ++ fs.trace ∧
    (done = true → ∃ r s', c.perform p { s with fs := fs } = .ok r s')

/-- The calls of the system calls that process `p` makes one after another; the last one may
not have returned. -/
inductive CallsOf (p : ℕ) : List TxEv → Prop
  | none : CallsOf p []
  | last {es : List TxEv} (h : CallEvents p false es) : CallsOf p es
  | next {es fs : List TxEv} (h : CallEvents p true es) (h' : CallsOf p fs) : CallsOf p (es ++ fs)

theorem At.run_eq {t₀ es : List TxEv} {q : Place} {s : FsSt} (h : At t₀ q s)
    (hs : s.trace = es.reverse ++ t₀) : run txStep .outside es = some q := by
  obtain ⟨es', htrace, hrun⟩ := h
  have : es' = es := List.reverse_injective (List.append_cancel_right (htrace.symm.trans hs))
  rwa [← this]

theorem CallEvents.run {p : ℕ} {done : Bool} {es : List TxEv} (h : CallEvents p done es) :
    ∃ q, run txStep .outside es = some q ∧ (done = true → q = .outside) := by
  obtain ⟨fs₀, fs, cs, s, c, hrun, hno, htrace, hdone⟩ := h
  have hidle : Idle s.ftable := idle_of_run hrun
  have hord : Ordered { s with fs := fs } (c.perform p) :=
    ordered_perform (s := { s with fs := fs }) hidle hno c
  cases done with
  | true =>
      obtain ⟨r, s', hok⟩ := hdone rfl
      have hs' : after (c.perform p) { s with fs := fs } = s' := by rw [after, hok]
      rw [hs'] at htrace
      exact ⟨.outside, (hord.of_ok hok).run_eq htrace, fun _ => rfl⟩
  | false =>
      obtain ⟨q, hq⟩ := hord.after (P := fun s' => ∃ q, At fs.trace q s'.fs)
        (fun _ _ h => ⟨_, h⟩) fun _ _ h => h
      exact ⟨q, hq.run_eq htrace, nofun⟩

theorem CallsOf.run {p : ℕ} {es : List TxEv} (h : CallsOf p es) :
    ∃ q, run txStep .outside es = some q := by
  induction h with
  | none => exact ⟨_, rfl⟩
  | last h =>
      obtain ⟨q, hq, -⟩ := h.run
      exact ⟨q, hq⟩
  | next h _ ih =>
      obtain ⟨q, hq, hout⟩ := h.run
      obtain ⟨q', hq'⟩ := ih
      refine ⟨q', ?_⟩
      rw [run_append, hq, hout rfl]
      exact hq'

/-- **Transactions are balanced and cover every logged write.**  A system call, from a file
table as system calls from boot leave it and any file system without holes, makes its calls
in order: `begin_op` and `end_op` alternate, each `log_write`, `balloc`, `bfree`, `ialloc`,
`iupdate` and `iput` comes between them, and a call that returns has ended its operation.
However the calls of the processes interleave, `outstanding` is the number of processes
inside, and no `log_write` finds it below one. -/
theorem transactions_balanced :
    (∀ (fs₀ fs : FsSt) (cs : List (ℕ × Call)) (s : SysSt) (p : ℕ) (c : Call),
      run callStep (SysSt.boot fs₀) cs = some s → fs.NoHoles →
      Wp (c.perform p)
        (fun _ s' => ∃ es, s'.fs.trace = es.reverse ++ fs.trace ∧
          run txStep .outside es = some .outside)
        (fun _ s' => ∃ es q, s'.fs.trace = es.reverse ++ fs.trace ∧
          run txStep .outside es = some q) { s with fs := fs }) ∧
    ∀ w : List (Fin NPROC × TxEv), (∀ p : Fin NPROC, ∃ es, CallsOf p es ∧ own p w <+: es) →
      run logCount 0 w = some ((insiders w).card : ℤ) := by
  refine ⟨fun fs₀ fs cs s p c hrun hno => ?_, fun w hw => logCount_eq_insiders fun p => ?_⟩
  · have hidle : Idle s.ftable := idle_of_run hrun
    refine Wp.mono (ordered_perform (s := { s with fs := fs }) hidle hno c) (fun _ _ h => h)
      fun _ _ h => ?_
    obtain ⟨q, es, hes⟩ := h
    exact ⟨es, q, hes⟩
  · obtain ⟨es, hcalls, k, hk⟩ := hw p
    obtain ⟨q, hq⟩ := hcalls.run
    rw [← hk, run_append] at hq
    obtain ⟨q', hq', -⟩ := Option.bind_eq_some_iff.mp hq
    exact ⟨q', hq'⟩

/-- A file system with an empty root directory in cache entry 0. -/
def emptyRoot : FsSt :=
  { blankFs with icache := fun k =>
      ⟨{ Dinode.zero with type := T_DIR }, ROOTINO, if k = 0 then 1 else 0, false, true⟩ }

/-- Init tries to unlink "/a", which is not there. -/
theorem unlink_missing_balanced :
    ∃ s' es, (Call.unlink (some ⟨[47, 97], by decide⟩)).perform 0
        { SysSt.boot blankFs with fs := emptyRoot } = .ok (-1) s' ∧
      s'.fs.trace.length = 3 ∧ s'.fs.trace = es.reverse ++ [] ∧
      run txStep .outside es = some .outside := by
  have hno : emptyRoot.NoHoles := by
    refine ⟨fun i hi => absurd rfl hi, fun k _ bn _ hbn => absurd hbn ?_⟩
    show ¬ bn * BSIZE < 0
    omega
  have hbal := transactions_balanced.1 blankFs emptyRoot [] (SysSt.boot blankFs) 0
    (.unlink (some ⟨[47, 97], by decide⟩)) rfl hno
  have hret : EStateM.run' ((Call.unlink (some ⟨[47, 97], by decide⟩)).perform 0)
      { SysSt.boot blankFs with fs := emptyRoot } = some (-1) := by decide +kernel
  have hlen : (after ((Call.unlink (some ⟨[47, 97], by decide⟩)).perform 0)
      { SysSt.boot blankFs with fs := emptyRoot }).fs.trace.length = 3 := by decide +kernel
  rcases e : (Call.unlink (some ⟨[47, 97], by decide⟩)).perform 0
      { SysSt.boot blankFs with fs := emptyRoot } with ⟨r, s'⟩ | ⟨x, s'⟩ <;>
    simp only [EStateM.run', EStateM.run, after, e] at hret hlen
  · obtain rfl := Option.some.inj hret
    obtain ⟨es, htrace, hrun⟩ := hbal.of_ok e
    exact ⟨s', es, rfl, hlen, htrace, hrun⟩
  · cases hret

end Several

end Nunix.Fs
