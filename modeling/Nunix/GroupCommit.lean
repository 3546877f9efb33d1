/-
Nunix/GroupCommit.lean

Group commit is all-or-nothing per operation.

The invariant `SysInv` relates the state to the history of the run.  Between
commits the log on disk is empty and the disk is the block state of an earlier
quiet moment; during a commit the disk means the block state of that moment or of
the moment at which the commit started (`Committing`), depending on the pc.

The result is `group_commit_atomic`: crash after any event, recover, and outside
the log the disk is the block state of an earlier moment with no operation open.
-/
import Nunix.LogCrash
import Nunix.LogSys

namespace Nunix

open StateTransition Redo Runs
open Function (update update_of_ne update_self)

variable {P : Type*} [DecidableEq P] {st : LogSt}

/-- An update of a block outside the log keeps the state between commits. -/
theorem Logging.update {L : LogArea} (h : Logging L st 0) {x : UInt32} (b : Bytes)
    (hsize : st.lh.n < LOGSIZE) (hroom : st.lh.n < (L.size : ℤ) - 1) (hx : ¬ L.Contains x.toNat) :
    Logging L ⟨st.disk, Function.update st.dirty x.toNat (some b), st.lh.logWrite x⟩
      0 := by
  have hok := h.sectorsOk
  have h30 : (LOGSIZE : ℤ) = 30 := rfl
  -- a dirty buffer is the one just filled or was dirty before
  have hdirty : ∀ y, Function.update st.dirty x.toNat (some b) y ≠ none →
      y = x.toNat ∨ st.dirty y ≠ none := by
    intro y hy
    by_cases hyx : y = x.toNat
    · exact Or.inl hyx
    · rw [update_of_ne hyx] at hy
      exact Or.inr hy
  rcases LogHeader.logWrite_cases h.n_nonneg x with ⟨⟨k, hk, hkx⟩, he⟩ | ⟨hnew, he⟩
  · -- absorbed
    rw [he]
    refine ⟨h.empty, hok, h.n_nonneg, h.n_lt, ?_, fun i hi => by omega⟩
    intro y hy
    rcases hdirty y hy with rfl | hy'
    · exact ⟨k, hk, by rw [hkx]⟩
    · exact h.logged y hy'
  · -- appended
    rw [he]
    have hn := h.n_nonneg
    have hold : ∀ i : ℕ, (i : ℤ) < st.lh.n →
        Function.update st.lh.sector st.lh.n.toNat x i = st.lh.sector i := by
      intro i hi
      exact update_of_ne (by omega) _ _
    refine ⟨h.empty, ⟨?_, ?_, ?_⟩, ?_, ?_, ?_, fun i hi => by omega⟩
    · show (st.lh.n + 1).toNat + 1 ≤ L.size
      omega
    · intro i hi
      have hi' : (i : ℤ) < st.lh.n + 1 := hi
      show ¬ L.Contains (Function.update st.lh.sector st.lh.n.toNat x i).toNat
      by_cases hin : (i : ℤ) < st.lh.n
      · rw [hold i hin]
        exact hok.home i hin
      · have : i = st.lh.n.toNat := by omega
        subst this
        rw [update_self]
        exact hx
    · intro i j hi hj hij
      have hi' : (i : ℤ) < st.lh.n + 1 := hi
      have hj' : (j : ℤ) < st.lh.n + 1 := hj
      change Function.update st.lh.sector st.lh.n.toNat x i
        = Function.update st.lh.sector st.lh.n.toNat x j at hij
      by_cases hin : (i : ℤ) < st.lh.n <;> by_cases hjn : (j : ℤ) < st.lh.n
      · rw [hold i hin, hold j hjn] at hij
        exact hok.distinct i j hin hjn hij
      · have : j = st.lh.n.toNat := by omega
        subst this
        rw [hold i hin, update_self] at hij
        exact absurd hij (hnew i hin)
      · have : i = st.lh.n.toNat := by omega
        subst this
        rw [hold j hjn, update_self] at hij
        exact absurd hij.symm (hnew j hjn)
      · omega
    · show 0 ≤ st.lh.n + 1
      omega
    · show st.lh.n + 1 < 2 ^ 31
      omega
    · intro y hy
      show ∃ i : ℕ, (i : ℤ) < st.lh.n + 1 ∧
        (Function.update st.lh.sector st.lh.n.toNat x i).toNat = y
      rcases hdirty y hy with rfl | hy'
      · exact ⟨st.lh.n.toNat, by omega, by rw [update_self]⟩
      · obtain ⟨i, hi, hiy⟩ := h.logged y hy'
        exact ⟨i, by omega, by rw [hold i hi]; exact hiy⟩

/-! ### The invariant -/

/-- At moment `j` of the history no operation is open, and the block state is
`m`. -/
def QuietAt (L : LogArea) (s₀ : Sys P) (es : List (Ev P)) (j : ℕ)
    (m : ℕ → Bytes) : Prop :=
  j ≤ es.length ∧ ∃ t, sysRun L s₀ (es.take j) = some t ∧ t.outstanding = 0 ∧
    (∀ p, t.proc p ≠ .inOp) ∧ t.st.bread = m

/-- Every `end_op` that some completed commit covers comes before moment `j`. -/
def CoveredBy (es : List (Ev P)) (j : ℕ) : Prop :=
  ∀ i p, es[i]? = some (.endOp p) → (∃ f q, i < f ∧ es[f]? = some (.finish q)) → i < j

/-- Between commits: the log on disk is empty, and the disk is the block state of
the last covered moment `j`. -/
def Running (L : LogArea) (s₀ : Sys P) (es : List (Ev P)) (st : LogSt) : Prop :=
  Logging L st 0 ∧
  ∃ j m, QuietAt L s₀ es j m ∧ CoveredBy es j ∧ (logScheme L).SameHome st.disk m

/-- During a commit: the committer, at `pc`, commits the block state of moment `c`
over that of moment `j`. -/
def InCommit (L : LogArea) (s₀ : Sys P) (es : List (Ev P)) (st : LogSt) (pc : Pc) : Prop :=
  ∃ j c old new, QuietAt L s₀ es j old ∧ CoveredBy es j ∧ QuietAt L s₀ es c new ∧
    (∀ i q, es[i]? = some (.endOp q) → i < c) ∧ Committing L old new (st, pc)

/-- The invariant of the system over its history. -/
structure SysInv (L : LogArea) (s₀ : Sys P) (es : List (Ev P)) (s : Sys P) : Prop where
  roles : Roles s
  view : (logScheme L).SameHome s.st.bread (replay (updates es) s₀.st.bread)
  running : s.committing = false → Running L s₀ es s.st
  inCommit : s.committing = true → ∃ p pc, s.proc p = .committing pc ∧
    InCommit L s₀ es s.st pc

omit [DecidableEq P] in
theorem updates_concat (es : List (Ev P)) (e : Ev P) :
    updates (es ++ [e]) = updates es ++ updates [e] := by
  simp [updates, List.filterMap_append]

section Invariant

variable {L : LogArea} {s₀ s s' : Sys P} {es : List (Ev P)} {e : Ev P} {p : P}

theorem QuietAt.concat {j : ℕ} {m : ℕ → Bytes} (h : QuietAt L s₀ es j m) (e : Ev P) :
    QuietAt L s₀ (es ++ [e]) j m := by
  obtain ⟨hj, t, ht⟩ := h
  refine ⟨by rw [List.length_append]; omega, t, ?_⟩
  rw [List.take_append_of_le_length hj]
  exact ht

omit [DecidableEq P] in
/-- An event that is not a `finish` completes no commit. -/
theorem CoveredBy.concat {j : ℕ} (h : CoveredBy es j)
    (he : ∀ q, e ≠ .finish q) : CoveredBy (es ++ [e]) j := by
  rintro i p hi ⟨f, q, hif, hf⟩
  rw [getElem?_concat_eq_some] at hi hf
  have hf' : es[f]? = some (.finish q) := by
    rcases hf with hf | ⟨-, hf⟩
    · exact hf
    · exact absurd hf (he q)
  have hlt := (List.getElem?_eq_some_iff.mp hf').1
  rcases hi with hi | ⟨rfl, -⟩
  · exact h i p hi ⟨f, q, hif, hf'⟩
  · omega

theorem Running.concat (h : Running L s₀ es st) (he : ∀ q, e ≠ .finish q) :
    Running L s₀ (es ++ [e]) st := by
  obtain ⟨hl, j, m, hj, hcov, hd⟩ := h
  exact ⟨hl, j, m, hj.concat _, hcov.concat he, hd⟩

theorem SysInv.init (h : Booted L s) : SysInv L s [] s where
  roles := Roles.init h
  view := Scheme.SameHome.refl _
  running := by
    intro _
    have hlog : Logging L s.st 0 := by
      refine ⟨h.empty, ⟨?_, ?_, ?_⟩, ?_, ?_, ?_, fun i hi => by omega⟩
      · rw [h.n_zero]
        simpa using h.size_pos
      · intro i hi
        rw [h.n_zero] at hi
        omega
      · intro i j hi
        rw [h.n_zero] at hi
        omega
      · rw [h.n_zero]
      · rw [h.n_zero]
        norm_num
      · intro x hx
        exact absurd (h.clean x) hx
    refine ⟨hlog, 0, s.st.bread, ⟨le_refl _, s, rfl, h.outstanding_zero, ?_, rfl⟩, ?_, ?_⟩
    · intro p
      rw [h.idle p]
      simp
    · intro i p hi
      simp at hi
    · intro x _
      exact (LogSt.bread_of_clean (h.clean x)).symm
  inCommit := by
    intro hc
    rw [h.committing_false] at hc
    cases hc

/-- The committer's pc is the one `inCommit` speaks of. -/
theorem SysInv.committing_at (h : SysInv L s₀ es s) {pc : Pc}
    (hp : s.proc p = .committing pc) : InCommit L s₀ es s.st pc := by
  obtain ⟨hcom, -, huniq⟩ := h.roles.committer p pc hp
  obtain ⟨q, pc', hq, hin⟩ := h.inCommit hcom
  obtain rfl := huniq q pc' hq
  have hpc : pc = pc' := by
    rw [hp] at hq
    exact Role.committing.inj hq
  rw [hpc]
  exact hin

theorem sysInv_beginOp (h : SysInv L s₀ es s)
    (hstep : (sysStep L s (.beginOp p)).state? = some s') :
    SysInv L s₀ (es ++ [.beginOp p]) s' := by
  have hroles := h.roles.step hstep
  obtain ⟨-, hcom, -, rfl⟩ := sysStep_beginOp hstep
  refine ⟨hroles, ?_, fun _ => (h.running hcom).concat (by simp), ?_⟩
  · rw [updates_concat]
    simpa [updates] using h.view
  · intro hc
    rw [hcom] at hc
    cases hc

theorem sysInv_update {x : UInt32} {b : Bytes} (h : SysInv L s₀ es s)
    (hhome : ¬ L.Contains x.toNat)
    (hstep : (sysStep L s (.update p x b)).state? = some s') :
    SysInv L s₀ (es ++ [.update p x b]) s' := by
  have hroles := h.roles.step hstep
  obtain ⟨hin, hsize, hroom, -, rfl⟩ := sysStep_update hstep
  have hcom := h.roles.committing_eq_false hin
  refine ⟨hroles, ?_, ?_, ?_⟩
  · rw [updates_concat, replay_append]
    show (logScheme L).SameHome (LogSt.bread ⟨s.st.disk,
      update s.st.dirty x.toNat (some b), s.st.lh.logWrite x⟩)
      (update (replay (updates es) s₀.st.bread) x.toNat b)
    rw [bread_update]
    intro y hy
    by_cases hyx : y = x.toNat
    · subst hyx
      simp
    · rw [update_of_ne hyx, update_of_ne hyx]
      exact h.view y hy
  · intro _
    obtain ⟨hl, hrest⟩ := (h.running hcom).concat (e := .update p x b) (by simp)
    exact ⟨hl.update b hsize hroom hhome, hrest⟩
  · intro hc
    rw [hcom] at hc
    cases hc

theorem sysInv_endOp (h : SysInv L s₀ es s)
    (hstep : (sysStep L s (.endOp p)).state? = some s')
    (hrun : sysRun L s₀ (es ++ [.endOp p]) = some s') :
    SysInv L s₀ (es ++ [.endOp p]) s' := by
  have hroles := h.roles.step hstep
  obtain ⟨hin, hcom, hcase⟩ := sysStep_endOp hstep
  have hr := h.running hcom
  have hview : (logScheme L).SameHome s.st.bread
      (replay (updates (es ++ [.endOp p])) s₀.st.bread) := by
    rw [updates_concat]
    simpa [updates] using h.view
  rcases hcase with ⟨h1, rfl⟩ | ⟨h1, rfl⟩
  · -- the last operation: this very moment is the one to be committed
    refine ⟨hroles, hview, fun hc => absurd hc (by simp), fun _ => ?_⟩
    obtain ⟨hl, j, m, hj, hcov, hd⟩ := hr
    refine ⟨p, .commit, update_self .., j, es.length + 1, m, s.st.bread,
      hj.concat _, hcov.concat (by simp), ?_, ?_, ?_⟩
    · have htake : (es ++ [Ev.endOp p]).take (es.length + 1) = es ++ [Ev.endOp p] :=
        List.take_of_length_le (by rw [List.length_append, List.length_singleton])
      have hout : s.outstanding - 1 = 0 := by omega
      exact ⟨by simp, _, (congrArg _ htake).trans hrun, hout, hroles.quiet hout, rfl⟩
    · intro i q hi
      have := (List.getElem?_eq_some_iff.mp hi).1
      simpa using this
    · exact ⟨Scheme.SameHome.refl _, hl, hd⟩
  · refine ⟨hroles, hview, fun _ => hr.concat (by simp), ?_⟩
    intro hc
    rw [hcom] at hc
    cases hc

theorem sysInv_commit (h : SysInv L s₀ es s)
    (hstep : (sysStep L s (.commit p)).state? = some s') :
    SysInv L s₀ (es ++ [.commit p]) s' := by
  have hroles := h.roles.step hstep
  obtain ⟨pc, st', pc', hp, hlog, rfl⟩ := sysStep_commit hstep
  obtain ⟨j, c, old, new, hj, hcov, hc, hbefore, hcm⟩ := h.committing_at hp
  have hcm' := hcm.step hlog
  refine ⟨hroles, ?_, ?_, fun _ => ?_⟩
  · -- `commit` does not change the block state
    rw [updates_concat]
    have hb : (logScheme L).SameHome st'.bread s.st.bread := hcm'.1.trans hcm.1.symm
    simpa [updates] using hb.trans h.view
  · intro hf
    exact absurd hp (h.roles.ne_committing hf p pc)
  · refine ⟨p, pc', update_self .., j, c, old, new, hj.concat _,
      hcov.concat (by simp), hc.concat _, ?_, hcm'⟩
    intro i q hi
    rcases getElem?_concat_eq_some.mp hi with hi | ⟨-, hi⟩
    · exact hbefore i q hi
    · cases hi

/-- A completed commit leaves the state between commits, with the block state it
started from on disk. -/
theorem Committing.logging_of_done {old new : ℕ → Bytes} (h : Committing L old new (st, .done)) :
    Logging L st 0 ∧ (logScheme L).SameHome st.disk new := by
  obtain ⟨-, hrec, hclean, hn⟩ := h
  have hn' : st.lh.n = 0 := hn
  refine ⟨⟨hrec.2.2, ⟨?_, ?_, ?_⟩, ?_, ?_, ?_, fun i hi => by omega⟩,
    hrec.sameHome_of_done⟩
  · have := hrec.1.room
    show st.lh.n.toNat + 1 ≤ L.size
    omega
  · intro i hi
    omega
  · intro i j hi
    omega
  · omega
  · omega
  · intro x hx
    exact absurd (hclean x) hx

theorem sysInv_finish (h : SysInv L s₀ es s)
    (hstep : (sysStep L s (.finish p)).state? = some s') :
    SysInv L s₀ (es ++ [.finish p]) s' := by
  have hroles := h.roles.step hstep
  obtain ⟨hp, rfl⟩ := sysStep_finish hstep
  obtain ⟨j, c, old, new, hj, hcov, hc, hbefore, hcm⟩ := h.committing_at hp
  obtain ⟨hl, hd⟩ := hcm.logging_of_done
  refine ⟨hroles, ?_, fun _ => ?_, fun hf => absurd hf (by simp)⟩
  · rw [updates_concat]
    simpa [updates] using h.view
  · refine ⟨hl, c, new, hc.concat _, ?_, hd⟩
    -- every `end_op` so far precedes the moment just committed
    intro i q hi _
    rcases getElem?_concat_eq_some.mp hi with hi | ⟨-, hi⟩
    · exact hbefore i q hi
    · cases hi

/-- The invariant holds at the end of every run that logs no block of the log. -/
theorem sysInv_run (h₀ : Booted L s₀) (hhome : ∀ e ∈ es, e.Home L)
    (hrun : sysRun L s₀ es = some s) : SysInv L s₀ es s := by
  refine run_induction (P := fun es t => (∀ e ∈ es, e.Home L) → SysInv L s₀ es t)
    (fun _ => SysInv.init h₀) ?_ hrun hhome
  intro es t e u ht ih hu hh
  have hinv := ih fun e' he' => hh e' (List.mem_append_left _ he')
  have hhe : e.Home L := hh e (by simp)
  cases e with
  | beginOp p => exact sysInv_beginOp hinv hu
  | update p x b => exact sysInv_update hinv hhe hu
  | endOp p => exact sysInv_endOp hinv hu (run_concat_eq_some.mpr ⟨t, ht, hu⟩)
  | commit p => exact sysInv_commit hinv hu
  | finish p => exact sysInv_finish hinv hu

/-- At every moment the disk means, outside the log, the block state of a quiet
moment that covers all completed commits. -/
theorem SysInv.meaning (h : SysInv L s₀ es s) :
    ∃ j m, QuietAt L s₀ es j m ∧ CoveredBy es j ∧ LogSound L s.st.disk ∧
      (logScheme L).SameHome ((logScheme L).recovered s.st.disk) m := by
  rcases e : s.committing with - | -
  · obtain ⟨hl, j, m, hj, hcov, hd⟩ := h.running e
    refine ⟨j, m, hj, hcov, hl.sound, ?_⟩
    rw [hl.recovered_eq]
    exact hd
  · obtain ⟨p, pc, -, j, c, old, new, hj, hcov, hc, hbefore, hcm⟩ := h.inCommit e
    obtain ⟨hs, hm⟩ := hcm.meaning
    by_cases hpc : pc.committed = true
    · rw [if_pos hpc] at hm
      exact ⟨c, new, hc, fun i q hi _ => hbefore i q hi, hs, hm⟩
    · rw [if_neg hpc] at hm
      exact ⟨j, old, hj, hcov, hs, hm⟩

end Invariant

/-- **Group commit is all-or-nothing per operation.**  Take a run of any number of
processes, crash at its end and recover.  The recovered disk is, outside the log,
the block state of a moment `j` at which no operation was open: the effect of
exactly the updates before `j`.  An `end_op` covered by a completed commit lies
before `j`, an update before `j` belongs to an operation that ended before `j`,
and no update is ever made while a commit is in progress. -/
theorem group_commit_atomic (L : LogArea) (s₀ s : Sys P) (es : List (Ev P))
    (h₀ : Booted L s₀) (hhome : ∀ e ∈ es, e.Home L) (hrun : sysRun L s₀ es = some s) :
    (∃ (j : ℕ) (t : Sys P) (r : LogSt),
      j ≤ es.length ∧ sysRun L s₀ (es.take j) = some t ∧ t.outstanding = 0 ∧
      Reaches (logStep L) (LogSt.boot s.st.disk, .readHead) (r, .done) ∧
      (∀ x, ¬ L.Contains x → r.disk x = t.st.bread x ∧
        t.st.bread x = replay (updates (es.take j)) s₀.st.bread x) ∧
      (∀ i p, es[i]? = some (.endOp p) →
        (∃ f q, i < f ∧ es[f]? = some (.finish q)) → i < j) ∧
      (∀ i p x b, i < j → es[i]? = some (.update p x b) →
        ∃ k, i < k ∧ k < j ∧ es[k]? = some (.endOp p))) ∧
    (∀ i p x b, es[i]? = some (.update p x b) →
      ∃ u, sysRun L s₀ (es.take i) = some u ∧ u.committing = false) := by
  have hinv := fun {k t} (hk : sysRun L s₀ (es.take k) = some t) =>
    sysInv_run h₀ (fun e he => hhome e (List.mem_of_mem_take he)) hk
  constructor
  · obtain ⟨j, m, ⟨hj, t, ht, hout, hquiet, rfl⟩, hcov, hs, hm⟩ :=
      (sysInv_run h₀ hhome hrun).meaning
    obtain ⟨r, hr⟩ := recover_reaches_done hs
    have hfinal := ((recovering_boot hs).reaches hr).sameHome_of_done.trans hm
    refine ⟨j, t, r, hj, ht, hout, hr, fun x hx => ⟨hfinal x hx, (hinv ht).view x hx⟩,
      hcov, ?_⟩
    intro i p x b hij hi
    rw [← List.getElem?_take_of_lt hij] at hi
    rcases inOp_or_ended ht hi with hp | ⟨k, hik, hk⟩
    · exact absurd hp (hquiet p)
    · have hkj : k < j := by
        have := (List.getElem?_eq_some_iff.mp hk).1
        rw [List.length_take] at this
        omega
      rw [List.getElem?_take_of_lt hkj] at hk
      exact ⟨k, hik, hkj, hk⟩
  · intro i p x b hi
    obtain ⟨u, v, hu, hstep, -⟩ := run_getElem hrun hi
    exact ⟨u, hu, (roles_run h₀ hu).committing_eq_false (sysStep_update hstep).1⟩

/-- Two overlapping operations that commit together, cut inside `commit`. -/
def overlapping : List (Ev Bool) :=
  [.beginOp false, .beginOp true, .update false 5 (fun _ => 1), .endOp false,
    .update true 6 (fun _ => 2), .endOp true, .commit true, .commit true]

/-- Group commit at work on `overlapping`. -/
theorem group_commit_atomic_overlapping :
    ∃ s, sysRun ⟨10, 6⟩ Sys.boot overlapping = some s ∧
      ∃ j t r, sysRun ⟨10, 6⟩ Sys.boot (overlapping.take j) = some t ∧
        t.outstanding = 0 ∧
        Reaches (logStep ⟨10, 6⟩) (LogSt.boot s.st.disk, .readHead) (r, .done) ∧
        ∀ x, ¬ LogArea.Contains ⟨10, 6⟩ x →
          r.disk x = replay (updates (overlapping.take j)) (fun _ => Bytes.zero) x := by
  obtain ⟨s, hs⟩ : ∃ s, sysRun ⟨10, 6⟩ Sys.boot overlapping = some s := ⟨_, rfl⟩
  have hhome : ∀ e ∈ overlapping, e.Home ⟨10, 6⟩ := by
    simp [overlapping, Ev.Home, LogArea.Contains]
  obtain ⟨⟨j, t, r, -, ht, hout, hr, hx, -⟩, -⟩ :=
    group_commit_atomic ⟨10, 6⟩ Sys.boot s overlapping (Sys.boot_booted (by decide)) hhome hs
  exact ⟨s, hs, j, t, r, ht, hout, hr, fun x hx' => (hx x hx').1.trans (hx x hx').2⟩

/-- One operation that also logs sector 13, the log block of the third entry, run
to the end of its commit. -/
def logsLogBlock : List (Ev Unit) :=
  [.beginOp (), .update () 5 (fun _ => 1), .update () 13 (fun _ => 2),
    .update () 6 (fun _ => 3), .endOp ()] ++ List.replicate 12 (.commit ()) ++ [.finish ()]

/-- Without `Ev.Home` atomicity fails: `write_log` writes sector 6 to log block 13
and `install_trans` installs the logged sector 13 over it, so that sector 6
receives the contents of sector 13 although the commit completed. -/
theorem logged_log_block_clobbers :
    Booted ⟨10, 6⟩ (Sys.boot : Sys Unit) ∧ ¬ LogArea.Contains ⟨10, 6⟩ 6 ∧
    ∃ s, sysRun ⟨10, 6⟩ Sys.boot logsLogBlock = some s ∧
      logsLogBlock[4]? = some (.endOp ()) ∧ logsLogBlock[17]? = some (.finish ()) ∧
      ∃ r, Reaches (logStep ⟨10, 6⟩) (LogSt.boot s.st.disk, .readHead) (r, .done) ∧
        ∀ j, 4 < j → r.disk 6 ≠
          replay (updates (logsLogBlock.take j)) (fun _ => Bytes.zero) 6 := by
  have hrun : (sysRun ⟨10, 6⟩ Sys.boot logsLogBlock).map
      (fun s => (headN (s.st.disk 10), s.st.disk 6 0)) = some (0, 2) := by
    decide +kernel
  obtain ⟨s, hs, hs'⟩ := Option.map_eq_some_iff.mp hrun
  obtain ⟨hn, h6⟩ := Prod.mk.inj hs'
  have hsound : LogSound ⟨10, 6⟩ s.st.disk := logSound_of_empty (by decide) hn
  obtain ⟨r, hr⟩ := recover_reaches_done hsound
  have hd := ((recovering_boot hsound).reaches hr).sameHome_of_done
  rw [Scheme.recovered_of_nil (S := logScheme ⟨10, 6⟩) (logEntries_eq_nil hn)] at hd
  refine ⟨Sys.boot_booted (by decide), by decide, s, hs, rfl, rfl, r, hr, ?_⟩
  intro j hj heq
  have hupd : updates (logsLogBlock.take j) = updates (logsLogBlock.take 5) := by
    rcases le_or_gt 18 j with h18 | h18
    · rw [List.take_of_length_le (by exact h18)]
      rfl
    · interval_cases j <;> rfl
  rw [hupd, hd 6 (show ¬ LogArea.Contains ⟨10, 6⟩ 6 by decide)] at heq
  have h3 := congrFun heq 0
  rw [h6] at h3
  exact absurd h3 (by decide)

end Nunix
