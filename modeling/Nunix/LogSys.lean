/-
Nunix/LogSys.lean

The log as its users see it (log.c): any number of processes bracket file system
operations by `begin_op` and `end_op`; the last `end_op` commits for all of them.

The system `Sys P` over a set `P` of processes performs one event at a time:

* `beginOp p`: the body of `begin_op` under `log.lock`; refused while `p` would
  sleep;
* `update p x b`: `p` fills the buffer of sector `x` with `b` and calls
  `log_write`, as one step;
* `endOp p`: the first critical section of `end_op`; if no operation is left
  outstanding `p` becomes the committer;
* `commit p`: one step of `commit()`, outside any lock (`logStep`);
* `finish p`: the second critical section of `end_op`.

`sysStep` answers with the next state, with a panic, or refuses (`blocked`); what
each event can do is stated once, in the lemmas `sysStep_beginOp` to
`sysStep_finish`.  `Roles` is the invariant of the bookkeeping: `outstanding`
counts the open operations, and while one process commits there are none.
-/
import Nunix.Log
import Nunix.Runs

namespace Nunix

open StateTransition Runs
open Function (update update_eq_self update_of_ne update_self)

/-! ### log_write -/

/-- The index at which the scan of `log_write` stops: the first entry equal to
`x`, or `n` if there is none. -/
def LogHeader.find (lh : LogHeader) (x : UInt32) : ℕ :=
  ((List.range lh.n.toNat).find? fun i => lh.sector i == x).getD lh.n.toNat

/-- `log_write` on the header: store the sector where the scan stopped, count it
if it is new. -/
def LogHeader.logWrite (lh : LogHeader) (x : UInt32) : LogHeader where
  n := if (lh.find x : ℤ) = lh.n then lh.n + 1 else lh.n
  sector := update lh.sector (lh.find x) x

/-- The test in front of `panic("too big a transaction")`. -/
def LogHeader.tooBig (L : LogArea) (lh : LogHeader) : Bool :=
  decide (lh.n ≥ LOGSIZE) || decide (lh.n ≥ (L.size : ℤ) - 1)

/-! ### The system -/

/-- What a process is doing. -/
inductive Role
  | idle
  /-- Between its `begin_op` and its `end_op`. -/
  | inOp
  /-- In `commit()`, called from `end_op`. -/
  | committing (pc : Pc)
  deriving DecidableEq

/-- The panics of log.c. -/
inductive LogPanic
  | tooBigATransaction
  | logWriteOutsideOfTrans
  | logCommitting
  deriving DecidableEq

/-- The text `panic` is called with. -/
def LogPanic.text : LogPanic → String
  | .tooBigATransaction => "too big a transaction"
  | .logWriteOutsideOfTrans => "log_write outside of trans"
  | .logCommitting => "log.committing"

/-- The disk, the cache and the log, with what every process is doing. -/
structure Sys (P : Type*) where
  st : LogSt
  outstanding : ℤ
  committing : Bool
  proc : P → Role

/-- The events of the system. -/
inductive Ev (P : Type*)
  | beginOp (p : P)
  | update (p : P) (x : UInt32) (b : Bytes)
  | endOp (p : P)
  | commit (p : P)
  | finish (p : P)

/-- The answer of a step. -/
inductive Outcome (σ : Type*)
  | next (s : σ)
  | panic (msg : LogPanic)
  | blocked

/-- The next state, if the step ends in one. -/
def Outcome.state? {σ : Type*} : Outcome σ → Option σ
  | .next s => some s
  | _ => none

variable {P : Type*} [DecidableEq P]

/-- One event of the system. -/
def sysStep (L : LogArea) (s : Sys P) : Ev P → Outcome (Sys P)
  | .beginOp p =>
      if s.proc p ≠ .idle then .blocked
      else if s.committing then .blocked
      else if s.st.lh.n + (s.outstanding + 1) * MAXOPBLOCKS > LOGSIZE then .blocked
      else .next { s with
        outstanding := s.outstanding + 1
        proc := update s.proc p .inOp }
  | .update p x b =>
      if s.proc p ≠ .inOp then .blocked
      else if s.st.lh.tooBig L then .panic .tooBigATransaction
      else if s.outstanding < 1 then .panic .logWriteOutsideOfTrans
      else .next { s with
        st := { s.st with
          dirty := update s.st.dirty x.toNat (some b)
          lh := s.st.lh.logWrite x } }
  | .endOp p =>
      if s.proc p ≠ .inOp then .blocked
      else if s.committing then .panic .logCommitting
      else if s.outstanding - 1 = 0 then .next { s with
        outstanding := s.outstanding - 1
        committing := true
        proc := update s.proc p (.committing .commit) }
      else .next { s with
        outstanding := s.outstanding - 1
        proc := update s.proc p .idle }
  | .commit p =>
      match s.proc p with
      | .committing pc =>
          match logStep L (s.st, pc) with
          | some (st', pc') => .next { s with
              st := st'
              proc := update s.proc p (.committing pc') }
          | none => .blocked
      | _ => .blocked
  | .finish p =>
      if s.proc p ≠ .committing .done then .blocked
      else .next { s with
        committing := false
        proc := update s.proc p .idle }

/-- The runs of the system: events that neither panic nor are refused. -/
def sysRun (L : LogArea) (s : Sys P) (es : List (Ev P)) : Option (Sys P) :=
  run (fun s e => (sysStep L s e).state?) s es

/-- The state `initlog` leaves: an empty log on disk and in memory, nothing
dirty, nobody in an operation. -/
structure Booted (L : LogArea) (s : Sys P) : Prop where
  size_pos : 1 ≤ L.size
  empty : headN (s.st.disk L.start) = 0
  n_zero : s.st.lh.n = 0
  clean : ∀ x, s.st.dirty x = none
  outstanding_zero : s.outstanding = 0
  committing_false : s.committing = false
  idle : ∀ p, s.proc p = .idle

/-- The block writes of a history, oldest first. -/
def updates (es : List (Ev P)) : List (ℕ × Bytes) :=
  es.filterMap fun
    | .update _ x b => some (x.toNat, b)
    | _ => none

/-- The event logs no block of the log itself. -/
def Ev.Home (L : LogArea) : Ev P → Prop
  | .update _ x _ => ¬ L.Contains x.toNat
  | _ => True

/-! ### What one event can do -/

section Inversion

variable {L : LogArea} {s s' : Sys P} {p : P}

theorem sysStep_beginOp (h : (sysStep L s (.beginOp p)).state? = some s') :
    s.proc p = .idle ∧ s.committing = false ∧
      s.st.lh.n + (s.outstanding + 1) * MAXOPBLOCKS ≤ LOGSIZE ∧
      s' = { s with outstanding := s.outstanding + 1
                    proc := update s.proc p .inOp } := by
  simp only [sysStep] at h
  split_ifs at h with h₁ h₂ h₃
  · cases h
  · cases h
  · cases h
  · refine ⟨not_not.mp h₁, by simpa using h₂, by omega, ?_⟩
    exact (Option.some.inj h).symm

theorem sysStep_update {x : UInt32} {b : Bytes}
    (h : (sysStep L s (.update p x b)).state? = some s') :
    s.proc p = .inOp ∧ s.st.lh.n < LOGSIZE ∧ s.st.lh.n < (L.size : ℤ) - 1 ∧
      1 ≤ s.outstanding ∧
      s' = { s with st := { s.st with
        dirty := update s.st.dirty x.toNat (some b)
        lh := s.st.lh.logWrite x } } := by
  simp only [sysStep] at h
  split_ifs at h with h₁ h₂ h₃
  · cases h
  · cases h
  · cases h
  · rw [LogHeader.tooBig, Bool.or_eq_true, decide_eq_true_eq, decide_eq_true_eq] at h₂
    push Not at h₂
    exact ⟨not_not.mp h₁, h₂.1, h₂.2, by omega, (Option.some.inj h).symm⟩

theorem sysStep_endOp (h : (sysStep L s (.endOp p)).state? = some s') :
    s.proc p = .inOp ∧ s.committing = false ∧
      ((s.outstanding = 1 ∧ s' = { s with
          outstanding := s.outstanding - 1
          committing := true
          proc := update s.proc p (.committing .commit) }) ∨
        (s.outstanding ≠ 1 ∧ s' = { s with
          outstanding := s.outstanding - 1
          proc := update s.proc p .idle })) := by
  simp only [sysStep] at h
  split_ifs at h with h₁ h₂ h₃
  · cases h
  · cases h
  · exact ⟨not_not.mp h₁, by simpa using h₂, Or.inl ⟨by omega, (Option.some.inj h).symm⟩⟩
  · exact ⟨not_not.mp h₁, by simpa using h₂, Or.inr ⟨by omega, (Option.some.inj h).symm⟩⟩

theorem sysStep_commit (h : (sysStep L s (.commit p)).state? = some s') :
    ∃ pc st' pc', s.proc p = .committing pc ∧ logStep L (s.st, pc) = some (st', pc') ∧
      s' = { s with st := st'
                    proc := update s.proc p (.committing pc') } := by
  simp only [sysStep] at h
  rcases e : s.proc p with - | - | pc
  · simp [e, Outcome.state?] at h
  · simp [e, Outcome.state?] at h
  · rcases e' : logStep L (s.st, pc) with - | ⟨st', pc'⟩
    · simp [e, e', Outcome.state?] at h
    · simp only [e, e', Outcome.state?, Option.some.injEq] at h
      exact ⟨pc, st', pc', rfl, e', h.symm⟩

theorem sysStep_finish (h : (sysStep L s (.finish p)).state? = some s') :
    s.proc p = .committing .done ∧
      s' = { s with committing := false
                    proc := update s.proc p .idle } := by
  simp only [sysStep] at h
  split_ifs at h with h₁
  · cases h
  · exact ⟨not_not.mp h₁, (Option.some.inj h).symm⟩

end Inversion

/-! ### log_write, again -/

/-- `log_write` either finds the sector and changes nothing, or appends it. -/
theorem LogHeader.logWrite_cases {lh : LogHeader} (hn : 0 ≤ lh.n) (x : UInt32) :
    ((∃ i : ℕ, (i : ℤ) < lh.n ∧ lh.sector i = x) ∧ lh.logWrite x = lh) ∨
    ((∀ i : ℕ, (i : ℤ) < lh.n → lh.sector i ≠ x) ∧
      lh.logWrite x = ⟨lh.n + 1, update lh.sector lh.n.toNat x⟩) := by
  rcases e : (List.range lh.n.toNat).find? (fun i => lh.sector i == x) with - | i
  · right
    have hf : lh.find x = lh.n.toNat := by simp [find, e]
    have hfn : (lh.find x : ℤ) = lh.n := by omega
    constructor
    · intro i hi
      have := List.find?_eq_none.mp e i (List.mem_range.mpr (by omega))
      simpa using this
    · rw [logWrite, if_pos hfn, hf]
  · left
    have hmem := List.mem_of_find?_eq_some e
    rw [List.mem_range] at hmem
    have hx : lh.sector i = x := by simpa using List.find?_some e
    have hf : lh.find x = i := by simp [find, e]
    have hfn : ¬ (lh.find x : ℤ) = lh.n := by omega
    refine ⟨⟨i, by omega, hx⟩, ?_⟩
    rw [logWrite, if_neg hfn, hf, ← hx, update_eq_self]

/-- Filling a buffer changes the block state at its sector. -/
theorem bread_update (st : LogSt) (lh : LogHeader) (x : ℕ) (b : Bytes) :
    LogSt.bread ⟨st.disk, update st.dirty x (some b), lh⟩
      = update st.bread x b := by
  funext y
  by_cases hy : y = x
  · subst hy
    simp [LogSt.bread]
  · simp [LogSt.bread, update_of_ne hy]

/-! ### The bookkeeping -/

section Roles

variable {L : LogArea} {s₀ s s' : Sys P} {es : List (Ev P)} {e : Ev P} {p : P} {r : Role}

/-- Only its own `end_op` takes a process out of an operation. -/
theorem inOp_of_step (hp : s.proc p = .inOp) (he : e ≠ .endOp p)
    (hstep : (sysStep L s e).state? = some s') : s'.proc p = .inOp := by
  cases e with
  | beginOp q =>
      obtain ⟨-, -, -, rfl⟩ := sysStep_beginOp hstep
      show update s.proc q .inOp p = .inOp
      by_cases hq : p = q
      · rw [hq, update_self]
      · rw [update_of_ne hq, hp]
  | update q x b =>
      obtain ⟨-, -, -, -, rfl⟩ := sysStep_update hstep
      exact hp
  | endOp q =>
      have hq : p ≠ q := fun h => he (by rw [h])
      obtain ⟨-, -, ⟨-, rfl⟩ | ⟨-, rfl⟩⟩ := sysStep_endOp hstep
      · exact (update_of_ne hq _ _).trans hp
      · exact (update_of_ne hq _ _).trans hp
  | commit q =>
      obtain ⟨pc, st', pc', hpc, -, rfl⟩ := sysStep_commit hstep
      have hq : p ≠ q := by
        rintro rfl
        rw [hp] at hpc
        cases hpc
      exact (update_of_ne hq _ _).trans hp
  | finish q =>
      obtain ⟨hpc, rfl⟩ := sysStep_finish hstep
      have hq : p ≠ q := by
        rintro rfl
        rw [hp] at hpc
        cases hpc
      exact (update_of_ne hq _ _).trans hp

/-- A process that has logged a block is still in the operation or has left it by
its `end_op`. -/
theorem inOp_or_ended (hrun : sysRun L s₀ es = some s) {i : ℕ} {x : UInt32} {b : Bytes}
    (hi : es[i]? = some (.update p x b)) :
    s.proc p = .inOp ∨ ∃ k, i < k ∧ es[k]? = some (.endOp p) := by
  refine run_induction (P := fun es t => ∀ i, es[i]? = some (.update p x b) →
    t.proc p = .inOp ∨ ∃ k, i < k ∧ es[k]? = some (.endOp p)) ?_ ?_ hrun i hi
  · intro i hi
    simp at hi
  · intro es t e u _ ih hu i hi
    by_cases he : e = .endOp p
    · subst he
      rcases getElem?_concat_eq_some.mp hi with hi | ⟨-, hi⟩
      · have hlt := (List.getElem?_eq_some_iff.mp hi).1
        exact Or.inr ⟨es.length, hlt, by simp⟩
      · cases hi
    · have hopen : t.proc p = .inOp ∨ ∃ k, i < k ∧ es[k]? = some (.endOp p) := by
        rcases getElem?_concat_eq_some.mp hi with hi | ⟨-, rfl⟩
        · exact ih i hi
        · exact Or.inl (sysStep_update hu).1
      rcases hopen with hp | ⟨k, hk, hek⟩
      · exact Or.inl (inOp_of_step hp he hu)
      · exact Or.inr ⟨k, hk, getElem?_concat_eq_some.mpr (Or.inl hek)⟩

/-- The bookkeeping of `outstanding` and `committing`: `outstanding` counts the
open operations; a committer is the only one, and then no operation is open. -/
structure Roles (s : Sys P) : Prop where
  counted : ∃ F : Finset P, (∀ p, p ∈ F ↔ s.proc p = .inOp) ∧ s.outstanding = F.card
  committer : ∀ p pc, s.proc p = .committing pc →
    s.committing = true ∧ s.outstanding = 0 ∧ ∀ q pc', s.proc q = .committing pc' → q = p
  busy : s.committing = true → s.outstanding = 0

omit [DecidableEq P] in
theorem Roles.quiet (h : Roles s) (h0 : s.outstanding = 0) (q : P) :
    s.proc q ≠ .inOp := by
  intro hq
  obtain ⟨F, hF, hc⟩ := h.counted
  have hF0 : F = ∅ := Finset.card_eq_zero.mp (by omega)
  have := (hF q).mpr hq
  rw [hF0] at this
  exact absurd this (Finset.notMem_empty q)

omit [DecidableEq P] in
/-- While an operation is open nobody commits. -/
theorem Roles.committing_eq_false (h : Roles s) (hp : s.proc p = .inOp) :
    s.committing = false := by
  by_contra hcom
  exact h.quiet (h.busy (by simpa using hcom)) p hp

omit [DecidableEq P] in
theorem Roles.ne_committing (h : Roles s) (hcom : s.committing = false) (q : P) (pc : Pc) :
    s.proc q ≠ .committing pc := by
  intro hq
  have := (h.committer q pc hq).1
  rw [hcom] at this
  cases this

omit [DecidableEq P] in
theorem Roles.init (h : Booted L s) : Roles s where
  counted := ⟨∅, by simp [h.idle], by simp [h.outstanding_zero]⟩
  committer := by
    intro p pc hp
    rw [h.idle p] at hp
    cases hp
  busy := fun _ => h.outstanding_zero

/-- Opening an operation adds its process to the open ones. -/
theorem counted_open (h : Roles s) (hp : s.proc p ≠ .inOp) :
    ∃ F : Finset P, (∀ q, q ∈ F ↔ update s.proc p .inOp q = .inOp) ∧
      s.outstanding + 1 = F.card := by
  obtain ⟨F, hF, hc⟩ := h.counted
  have hpF : p ∉ F := fun hmem => hp ((hF p).mp hmem)
  refine ⟨insert p F, ?_, ?_⟩
  · intro q
    by_cases hq : q = p
    · subst hq
      simp
    · rw [update_of_ne hq, Finset.mem_insert, ← hF q]
      simp [hq]
  · rw [Finset.card_insert_of_notMem hpF, hc]
    push_cast
    rfl

/-- Closing an operation removes its process from the open ones. -/
theorem counted_close (h : Roles s) (hin : s.proc p = .inOp) (hr : r ≠ .inOp) :
    ∃ F : Finset P, (∀ q, q ∈ F ↔ update s.proc p r q = .inOp) ∧
      s.outstanding - 1 = F.card := by
  obtain ⟨F, hF, hc⟩ := h.counted
  have hpF : p ∈ F := (hF p).mpr hin
  refine ⟨F.erase p, ?_, ?_⟩
  · intro q
    by_cases hq : q = p
    · subst hq
      simp [hr]
    · rw [update_of_ne hq, Finset.mem_erase, hF q]
      simp [hq]
  · have := Finset.card_erase_add_one hpF
    omega

/-- A move of a process outside operations opens and closes none. -/
theorem counted_same (h : Roles s) (hp : s.proc p ≠ .inOp) (hr : r ≠ .inOp) :
    ∃ F : Finset P, (∀ q, q ∈ F ↔ update s.proc p r q = .inOp) ∧
      s.outstanding = F.card := by
  obtain ⟨F, hF, hc⟩ := h.counted
  refine ⟨F, ?_, hc⟩
  intro q
  by_cases hq : q = p
  · subst hq
    rw [update_self, hF q]
    simp [hr, hp]
  · rw [update_of_ne hq]
    exact hF q

/-- A process that takes up a role other than committing adds no committer. -/
theorem committing_of_update (hr : ∀ pc, r ≠ .committing pc) {q : P} {pc : Pc}
    (h : update s.proc p r q = .committing pc) : q ≠ p ∧ s.proc q = .committing pc := by
  by_cases hq : q = p
  · subst hq
    rw [update_self] at h
    exact absurd h (hr pc)
  · rw [update_of_ne hq] at h
    exact ⟨hq, h⟩

/-- When only `p` may commit, `p` is the committer after it moves on. -/
theorem committer_unique (huniq : ∀ q pc, s.proc q = .committing pc → q = p) {q : P} {pc : Pc}
    (h : update s.proc p r q = .committing pc) : q = p := by
  by_contra hq
  rw [update_of_ne hq] at h
  exact hq (huniq q pc h)

/-- Every event keeps the bookkeeping. -/
theorem Roles.step (h : Roles s) (hstep : (sysStep L s e).state? = some s') :
    Roles s' := by
  cases e with
  | beginOp p =>
      obtain ⟨hidle, hcom, -, rfl⟩ := sysStep_beginOp hstep
      refine ⟨counted_open h (by rw [hidle]; simp), ?_, ?_⟩
      · intro q pc hq
        exact absurd (committing_of_update (by simp) hq).2 (h.ne_committing hcom q pc)
      · intro hc
        rw [hcom] at hc
        cases hc
  | update p x b =>
      obtain ⟨-, -, -, -, rfl⟩ := sysStep_update hstep
      exact ⟨h.counted, h.committer, h.busy⟩
  | endOp p =>
      obtain ⟨hin, hcom, ⟨h1, rfl⟩ | ⟨h1, rfl⟩⟩ := sysStep_endOp hstep
      · -- the last operation: `p` is the committer
        have hnone := h.ne_committing hcom
        have h0 : s.outstanding - 1 = 0 := by omega
        refine ⟨counted_close h hin (by simp), ?_, fun _ => h0⟩
        intro q pc hq
        obtain rfl := committer_unique (fun q pc hq => absurd hq (hnone q pc)) hq
        exact ⟨rfl, h0, fun q' pc' hq' =>
          committer_unique (fun q pc hq => absurd hq (hnone q pc)) hq'⟩
      · refine ⟨counted_close h hin (by simp), ?_, ?_⟩
        · intro q pc hq
          exact absurd (committing_of_update (by simp) hq).2 (h.ne_committing hcom q pc)
        · intro hc
          rw [hcom] at hc
          cases hc
  | commit p =>
      obtain ⟨pc, st', pc', hp, -, rfl⟩ := sysStep_commit hstep
      obtain ⟨hcom, hout, huniq⟩ := h.committer p pc hp
      refine ⟨counted_same h (by rw [hp]; simp) (by simp), ?_, fun _ => hout⟩
      intro q pc'' hq
      obtain rfl := committer_unique huniq hq
      exact ⟨hcom, hout, fun q' pc3 hq' => committer_unique huniq hq'⟩
  | finish p =>
      obtain ⟨hp, rfl⟩ := sysStep_finish hstep
      obtain ⟨-, hout, huniq⟩ := h.committer p _ hp
      refine ⟨counted_same h (by rw [hp]; simp) (by simp), ?_, fun _ => hout⟩
      intro q pc hq
      obtain ⟨hqp, hq⟩ := committing_of_update (by simp) hq
      exact absurd (huniq q pc hq) hqp

/-- The bookkeeping is right in every reachable state. -/
theorem roles_run (h₀ : Booted L s₀) (hrun : sysRun L s₀ es = some s) : Roles s :=
  run_induction (P := fun _ t => Roles t) (Roles.init h₀)
    (fun _ _ _ _ _ h hu => h.step hu) hrun

end Roles

/-- The system on a zero disk, as `initlog` leaves it. -/
def Sys.boot : Sys P where
  st := LogSt.boot fun _ => Bytes.zero
  outstanding := 0
  committing := false
  proc := fun _ => .idle

omit [DecidableEq P] in
theorem Sys.boot_booted {L : LogArea} (hsz : 1 ≤ L.size) :
    Booted L (Sys.boot : Sys P) :=
  ⟨hsz, rfl, rfl, fun _ => rfl, rfl, rfl, fun _ => rfl⟩

end Nunix
