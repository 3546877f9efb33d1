/-
Nunix/Fs/Frames.lean

How the contents of inodes change the state.

Reading and writing an inode, mapping and freeing its blocks change the disk, the
histories and the on-disk part of cache entries, and nothing else.  A preorder that
contains these changes (`Takes`) contains every run of the functions on contents.  A part of
the state that does not depend on them is `Inert`: the states that agree in it are such a
preorder.
-/
import Nunix.Fs.Dir

namespace Nunix.Fs

open Hoare

/-- The calls that have to happen within an operation. -/
def TxEv.within : TxEv → Bool
  | .beginOp | .endOp _ => false
  | _ => true

/-- A relation that takes in what the functions on contents do at a time. -/
structure Takes (R : FsSt → FsSt → Prop) : Prop where
  note : ∀ s (e : TxEv), e.within = true → R s { s with trace := e :: s.trace }
  logWrite : ∀ s x b, R s { s with
    disk := Function.update s.disk x b
    logged := x :: s.logged
    trace := .logWrite x b :: s.trace }
  ballocs : ∀ s l, R s { s with ballocs := l }
  slot : ∀ s k ip, ip.ref = (s.icache k).ref → ip.busy = (s.icache k).busy →
    R s { s with icache := Function.update s.icache k ip }

/-- A part of the state that sees neither blocks nor what a cache entry copies from disk. -/
structure Inert {τ : Type} (π : FsSt → τ) : Prop where
  note : ∀ s e, π { s with trace := e :: s.trace } = π s
  logWrite : ∀ s d l t, π { s with disk := d, logged := l, trace := t } = π s
  ballocs : ∀ s l, π { s with ballocs := l } = π s
  slot : ∀ s k ip, ip.ref = (s.icache k).ref → ip.busy = (s.icache k).busy →
    π { s with icache := Function.update s.icache k ip } = π s

theorem Inert.takes {τ : Type} {π : FsSt → τ} (h : Inert π) : Takes (Same π) where
  note s e _ := h.note s e
  logWrite s _ _ := h.logWrite s _ _ _
  ballocs := h.ballocs
  slot := h.slot

namespace Takes

variable {R : FsSt → FsSt → Prop} [IsPreorder FsSt R] {k : ℕ}

omit [IsPreorder FsSt R] in
theorem moves_note (h : Takes R) {e : TxEv} (he : e.within = true) : Moves R (Fs.note e) :=
  fun s => h.note s e he

omit [IsPreorder FsSt R] in
theorem moves_logWrite (h : Takes R) (x : ℕ) (b : Bytes) : Moves R (Fs.logWrite x b) :=
  fun s => h.logWrite s x b

omit [IsPreorder FsSt R] in
theorem moves_modifySlot (h : Takes R) {f : Inode → Inode}
    (hf : ∀ ip, (f ip).ref = ip.ref ∧ (f ip).busy = ip.busy) : Moves R (modifySlot k f) :=
  fun s => h.slot s k _ (hf _).1 (hf _).2

theorem moves_balloc (h : Takes R) : Moves R balloc := by
  refine (h.moves_note rfl).bind fun _ => .bind .get fun s => ?_
  dsimp only
  split
  · refine (h.moves_logWrite _ _).bind fun _ => (h.moves_logWrite _ _).bind fun _ => ?_
    exact .bind (fun s => h.ballocs s _) fun _ => .pure _
  · exact .throw _

theorem moves_bfree (h : Takes R) (b : ℕ) : Moves R (bfree b) := by
  refine (h.moves_note rfl).bind fun _ => .bind (fun s => refl_of R s) fun sb => .bind (fun s => refl_of R s)
    fun bp => ?_
  exact .ite (.throw _) (h.moves_logWrite _ _)

theorem moves_iupdate (h : Takes R) (k : ℕ) : Moves R (iupdate k) :=
  (h.moves_note rfl).bind fun _ => .bind (fun s => refl_of R s) fun _ => .bind .get fun _ =>
    h.moves_logWrite _ _

omit [IsPreorder FsSt R] in
theorem moves_setAddr (h : Takes R) (k : ℕ) (i : Fin (NDIRECT + 1)) (a : UInt32) :
    Moves R (setAddr k i a) := h.moves_modifySlot fun _ => ⟨rfl, rfl⟩

theorem moves_bmap (h : Takes R) (k bn : ℕ) : Moves R (bmap k bn) := by
  unfold bmap
  split_ifs with hdir hind
  · refine .bind (fun s => refl_of R s) fun ip => .ite ?_ (.pure _)
    exact h.moves_balloc.bind fun b => (h.moves_setAddr k _ _).bind fun _ => .pure b
  · refine .bind (fun s => refl_of R s) fun ip => ?_
    have hrest : ∀ x, Moves R (do
        let bp ← bread x
        let a := UInt32.ofNat (bp.get32 (4 * (bn - NDIRECT)))
        if a = 0 then
          let b ← balloc
          Fs.logWrite x (bp.put32 (4 * (bn - NDIRECT)) (UInt32.ofNat b).toNat)
          return b
        return a.toNat) := by
      intro x
      refine .bind (fun s => refl_of R s) fun bp => .ite ?_ (.pure _)
      exact h.moves_balloc.bind fun b => (h.moves_logWrite _ _).bind fun _ => .pure b
    refine .ite ?_ (hrest _)
    exact h.moves_balloc.bind fun b => (h.moves_setAddr k _ _).bind fun _ => hrest b
  · exact .throw _

theorem moves_itruncDirect (h : Takes R) (k : ℕ) :
    ∀ is : List (Fin (NDIRECT + 1)), Moves R (itruncDirect k is) := by
  intro is
  induction is with
  | nil => exact .pure _
  | cons i is ih =>
      refine .bind (fun s => refl_of R s) fun ip => .ite ?_ ih
      exact (h.moves_bfree _).bind fun _ => (h.moves_setAddr k i 0).bind fun _ => ih

theorem moves_itruncEntries (h : Takes R) (bp : Bytes) :
    ∀ js : List ℕ, Moves R (itruncEntries bp js) := by
  intro js
  induction js with
  | nil => exact .pure _
  | cons j js ih => exact .ite ((h.moves_bfree _).bind fun _ => ih) ih

theorem moves_itrunc (h : Takes R) (k : ℕ) : Moves R (itrunc k) := by
  have hend : Moves R (do modifySlot k fun ip => { ip with size := 0 }; iupdate k) :=
    .bind (h.moves_modifySlot (by exact fun _ => ⟨rfl, rfl⟩)) fun _ => h.moves_iupdate k
  refine (h.moves_itruncDirect k _).bind fun _ => .bind (fun s => refl_of R s) fun ip => .ite ?_ hend
  exact .bind (fun s => refl_of R s) fun bp => (h.moves_itruncEntries bp _).bind fun _ =>
    (h.moves_bfree _).bind fun _ => (h.moves_setAddr k _ 0).bind fun _ => hend

theorem moves_readiLoop (h : Takes R) (k n : ℕ) :
    ∀ tot off dst, Moves R (readiLoop k n tot off dst) := by
  intro tot off dst
  induction hN : n - tot using Nat.strong_induction_on generalizing tot off dst with
  | _ N ih =>
    rw [readiLoop]
    have hoff : off % BSIZE < BSIZE := Nat.mod_lt _ (by decide)
    split_ifs with hlt
    · refine (h.moves_bmap k _).bind fun x => .bind (fun s => refl_of R s) fun bp => ?_
      exact ih _ (by omega) _ _ _ rfl
    · exact .pure _

theorem moves_readi (h : Takes R) (k : ℕ) (dst : Bytes) (off n : ℕ) :
    Moves R (readi k dst off n) := by
  refine .bind (fun s => refl_of R s) fun ip => .ite (.ite (.pure _) (.bind .get fun _ => .pure _)) ?_
  exact .ite (.pure _) ((h.moves_readiLoop k _ 0 off dst).bind fun _ => .pure _)

theorem moves_writeiLoop (h : Takes R) (k : ℕ) (src : Bytes) (n : ℕ) :
    ∀ tot off, Moves R (writeiLoop k src n tot off) := by
  intro tot off
  induction hN : n - tot using Nat.strong_induction_on generalizing tot off with
  | _ N ih =>
    rw [writeiLoop]
    have hoff : off % BSIZE < BSIZE := Nat.mod_lt _ (by decide)
    split_ifs with hlt
    · refine (h.moves_bmap k _).bind fun x => .bind (fun s => refl_of R s) fun bp =>
        (h.moves_logWrite _ _).bind fun _ => ?_
      exact ih _ (by omega) _ _ rfl
    · exact .pure _

theorem moves_writei (h : Takes R) (k : ℕ) (src : Bytes) (off n : ℕ) :
    Moves R (writei k src off n) := by
  refine .bind (fun s => refl_of R s) fun ip => .ite (.ite (.pure _) (.pure _)) (.ite (.pure _)
    (.ite (.pure _) ((h.moves_writeiLoop k src n 0 off).bind fun _ => .ite ?_ (.pure _))))
  exact .bind (h.moves_modifySlot (by exact fun _ => ⟨rfl, rfl⟩)) fun _ =>
    (h.moves_iupdate k).bind fun _ => .pure _

theorem moves_emptyLoop (h : Takes R) (dp size : ℕ) : ∀ off, Moves R (emptyLoop dp size off) := by
  intro off
  induction hN : size - off using Nat.strong_induction_on generalizing off with
  | _ N ih =>
    rw [emptyLoop]
    split_ifs with hlt
    · refine (h.moves_readi dp _ _ _).bind fun ⟨r, de⟩ => .ite (.throw _) (.ite (.pure _) ?_)
      exact ih _ (by simp only [DESIZE]; omega) _ rfl
    · exact .pure _

theorem moves_isdirempty (h : Takes R) (dp : ℕ) : Moves R (isdirempty dp) := by
  have hloop : ∀ size off, Moves R (isdiremptyLoop dp size off) := by
    intro size off
    induction hN : size - off using Nat.strong_induction_on generalizing off with
    | _ N ih =>
      rw [isdiremptyLoop]
      split_ifs with hlt
      · refine (h.moves_readi dp _ _ _).bind fun ⟨r, de⟩ => .ite (.throw _) (.ite (.pure _) ?_)
        exact ih _ (by simp only [DESIZE]; omega) _ rfl
      · exact .pure _
  exact .bind (fun s => refl_of R s) fun _ => hloop _ _

end Takes

end Nunix.Fs
