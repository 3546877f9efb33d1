/-
Nunix/ProcTrace.lean

System-call tracing (syscall.c, sysproc.c).

The dispatcher counts a call in `totalSysCall` while `traceFlag` is set, `trace(0)`
returns the count and clears it.  The count lives in the process table, and `allocproc`
clears the flag but not the count, so the first `trace(0)` of a process may return calls
of the process that had the slot before (`trace_counts_previous_process`).  When slots
are given out with a count of zero, `trace(0)` returns the process's own calls
(`trace_counts_own_calls`).

`sys_trace` takes its argument as a C parameter, and the dispatcher calls it without one:
what it obeys is a word of the kernel stack (`trace_obeys_argument_iff`).
-/
import Nunix.ProcTable
import Nunix.UserAccess

namespace Nunix.Sched

open Runs

variable {N : ℕ} {R : Pages N} {s s' : St N} {a : ℕ × Go} {i j : Fin N}

/-! ### Counting -/

/-- The count of process `i` starts again: it was created, or called `trace(0)`. -/
def Ev.resets (i : Fin N) : Ev N → Bool
  | .created p _ => p = i
  | .traced p _ => p = i
  | _ => false

/-- The calls that process `i` has had dispatched with its `traceFlag` set since it was
created or called `trace(0)`. -/
def tracedCalls (i : Fin N) (hist : List (Ev N)) : ℕ :=
  (hist.takeWhile fun e => !e.resets i).countP fun e => e = .dispatched i true

theorem tracedCalls_reset {e : Ev N} (he : e.resets i = true) (hist : List (Ev N)) :
    tracedCalls i (e :: hist) = 0 := by
  unfold tracedCalls
  rw [List.takeWhile_cons, he]
  rfl

theorem tracedCalls_cons {e : Ev N} (he : e.resets i = false) (hist : List (Ev N)) :
    tracedCalls i (e :: hist) = tracedCalls i hist + if e = .dispatched i true then 1 else 0 := by
  unfold tracedCalls
  rw [List.takeWhile_cons, he]
  simp [List.countP_cons]

theorem tracedCalls_skip {e : Ev N} (he : e.resets i = false) (hne : e ≠ .dispatched i true)
    (hist : List (Ev N)) : tracedCalls i (e :: hist) = tracedCalls i hist := by
  rw [tracedCalls_cons he, if_neg hne, Nat.add_zero]

/-- `allocproc` gives out no slot with a count left in it. -/
def givesCleared (s : St N) (a : ℕ × Go) : Bool :=
  match (s.cpu a.1).sched, a.2 with
  | .away i, .next _ =>
      match (s.proc i).pc with
      | .allocproc => (findUnused s.proc).all fun p => (s.proc p).totalSysCall = 0
      | _ => true
  | _, _ => true

theorem givesCleared_alloc {page : Option ℕ} {np : Fin N} (hG : givesCleared s a = true)
    (hact : Acts s a i .allocproc page) (hnp : findUnused s.proc = some np) :
    (s.proc np).totalSysCall = 0 := by
  obtain ⟨hc, hpc, ha⟩ := hact
  unfold givesCleared at hG
  rw [hc, ha] at hG
  simp only [hpc, hnp] at hG
  simpa using hG

/-- The counter of a process in use is the number of its own calls, as an `int`. -/
def Counted (s : St N) : Prop :=
  ∀ i, (s.proc i).state ≠ .UNUSED → (s.proc i).totalSysCall = Int32.ofNat (tracedCalls i s.hist)

/-- A step that neither creates a process nor dispatches a call. -/
theorem Counted.keep (h : Counted s) (es : List (Ev N)) (hhist : s'.hist = es ++ s.hist)
    (hes : ∀ e ∈ es, ∀ j, e.resets j = false ∧ e ≠ .dispatched j true)
    (hproc : ∀ j, (s'.proc j).state ≠ .UNUSED →
      (s.proc j).state ≠ .UNUSED ∧ (s'.proc j).totalSysCall = (s.proc j).totalSysCall) :
    Counted s' := by
  have hcalls : ∀ (j : Fin N) (es : List (Ev N)),
      (∀ e ∈ es, ∀ j, e.resets j = false ∧ e ≠ .dispatched j true) →
        tracedCalls j (es ++ s.hist) = tracedCalls j s.hist := by
    intro j es hes
    induction es with
    | nil => rfl
    | cons e es ih =>
        obtain ⟨h₁, h₂⟩ := hes e List.mem_cons_self j
        rw [List.cons_append, tracedCalls_skip h₁ h₂,
          ih fun e he => hes e (List.mem_cons_of_mem _ he)]
  intro j hj
  obtain ⟨h₁, h₂⟩ := hproc j hj
  rw [hhist, hcalls j es hes, h₂]
  exact h j h₁

theorem Counted.slot (h : Counted s) (es : List (Ev N)) (hhist : s'.hist = es ++ s.hist)
    (hes : ∀ e ∈ es, ∀ j, e.resets j = false ∧ e ≠ .dispatched j true) {k : Fin N}
    (hothers : ∀ j, j ≠ k → Calm (s.proc j) (s'.proc j))
    (hk : (s'.proc k).state ≠ .UNUSED →
      (s.proc k).state ≠ .UNUSED ∧ (s'.proc k).totalSysCall = (s.proc k).totalSysCall) :
    Counted s' := by
  refine h.keep es hhist hes fun j hj => ?_
  by_cases hjk : j = k
  · rw [hjk] at hj ⊢
    exact hk hj
  · exact ⟨mt (hothers j hjk).unused.mpr hj, (hothers j hjk).total⟩

/-- The dispatcher keeps the count. -/
theorem count_total (P : Proc N) (n : ℕ) (h : P.totalSysCall = Int32.ofNat n) :
    P.count.totalSysCall = Int32.ofNat (n + if P.traceFlag = true then 1 else 0) := by
  unfold Proc.count
  split_ifs
  · rw [Int32.ofNat_add, ← h]
    rfl
  · exact h

theorem count_flag (P : Proc N) : P.count.traceFlag = P.traceFlag := by
  unfold Proc.count
  split_ifs <;> rfl

/-- What `trace(0)` returns. -/
theorem Counted.traced (h : Counted s) (hi : (s.proc i).state ≠ .UNUSED) :
    ((s.proc i).count.sysTrace 0).2 = Int32.ofNat
      (tracedCalls i (.dispatched i (s.proc i).traceFlag :: s.hist)) := by
  rw [tracedCalls_cons rfl]
  have := count_total (s.proc i) _ (h i hi)
  simpa [Proc.sysTrace] using this

theorem Counted.syscall (h : Counted s) (num x : Int32) : Counted (s.syscall i num x) := by
  intro j hj
  obtain ⟨flag, total, hproc⟩ := syscall_proc s i num x
  by_cases hji : j = i
  · subst hji
    have hj : (s.proc j).state ≠ .UNUSED := by
      rw [hproc, Function.update_self] at hj
      exact hj
    have hcount := count_total (s.proc j) _ (h j hj)
    have hcalls : tracedCalls j (.dispatched j (s.proc j).count.traceFlag :: s.hist) =
        tracedCalls j s.hist + if (s.proc j).traceFlag = true then 1 else 0 := by
      rw [tracedCalls_cons rfl, count_flag]
      simp
    unfold St.syscall
    split_ifs with hv ht hx
    · simp only [St.note, St.setProc_self]
      rw [tracedCalls_reset (by simp [Ev.resets])]
      unfold Proc.sysTrace
      rw [if_neg (by simp [hx])]
      rfl
    · simp only [St.setProc_self]
      unfold Proc.sysTrace
      rw [if_pos hx]
      show _ = Int32.ofNat (tracedCalls j (.dispatched j (s.proc j).count.traceFlag :: s.hist))
      rw [hcalls]
      exact hcount
    · show ((s.setProc j _).proc j).totalSysCall =
        Int32.ofNat (tracedCalls j (.dispatched j (s.proc j).count.traceFlag :: s.hist))
      rw [St.setProc_self, hcalls]
      exact hcount
    · exact h j hj
  · -- events of process `i` are not counted for another one
    obtain ⟨es, hhist, hes⟩ := syscall_hist s i num x
    have hcalls : ∀ es : List (Ev N), (∀ e ∈ es, (∃ b, e = .dispatched i b) ∨ ∃ r, e = .traced i r) →
        tracedCalls j (es ++ s.hist) = tracedCalls j s.hist := by
      intro es hes
      induction es with
      | nil => rfl
      | cons e es ih =>
          rw [List.cons_append, tracedCalls_skip, ih fun e he => hes e (List.mem_cons_of_mem _ he)]
          · rcases hes e List.mem_cons_self with ⟨b, rfl⟩ | ⟨r, rfl⟩ <;>
              simp [Ev.resets, Ne.symm hji]
          · rcases hes e List.mem_cons_self with ⟨b, rfl⟩ | ⟨r, rfl⟩ <;> simp [Ne.symm hji]
    rw [hproc, Function.update_of_ne hji] at hj ⊢
    rw [hhist, hcalls es hes]
    exact h j hj

theorem Counted.step (h : Counted s) (hI : Inv R s) (hG : givesCleared s a = true)
    (hs : step s a = some s') : Counted s' := by
  obtain ⟨-, he⟩ := step_effect hI hs
  cases he with
  | within hw =>
      obtain ⟨es, hhist, hes, -, hproc⟩ := hw.stays
      refine h.keep es hhist (fun e he j => ?_)
        fun j hj => ⟨mt (hproc j).unused.mpr hj, (hproc j).total⟩
      have := hes e he
      cases e <;> cases this <;> exact ⟨rfl, nofun⟩
  | alloc i np page hact hfind hothers hst hproc hhist =>
      intro j hj
      rw [hhist]
      by_cases hjn : j = np
      · rw [hjn, hproc, tracedCalls_reset (by simp [Ev.resets])]
        exact givesCleared_alloc hG hact hfind
      · have hnew : (Ev.created np s.nextpid).resets j = false := by
          simp [Ev.resets, Ne.symm hjn]
        rw [(hothers j hjn).total, tracedCalls_skip hnew nofun]
        exact h j (mt (hothers j hjn).unused.mpr hj)
  | drop i np hact hothers hst kstack pgdir hproc hnot hhist =>
      refine h.slot [] hhist nofun hothers ?_
      rw [hproc]
      exact fun hu => absurd rfl hu
  | reap i p hothers hpar hst hproc hhist =>
      refine h.slot [_] hhist (by simp [Ev.resets]) hothers ?_
      rw [hproc]
      exact fun hu => absurd rfl hu
  | kill i pid page hact p hp hcalm hkilled hhist =>
      exact h.keep [_] hhist (by simp [Ev.resets])
        fun j hj => ⟨mt (hcalm j).unused.mpr hj, (hcalm j).total⟩
  | fault i hrun hproc hhist =>
      refine h.keep [_] hhist (by simp [Ev.resets]) fun j => ?_
      rw [hproc]
      by_cases hj : j = i
      · rw [hj, Function.update_self]
        exact fun hu => ⟨hu, rfl⟩
      · rw [Function.update_of_ne hj]
        exact fun hu => ⟨hu, rfl⟩
  | syscall i num x hs =>
      subst hs
      exact h.syscall num x

theorem Counted.boot [NeZero N] : Counted (boot : St N) := by
  intro i hi
  have htotal : ((Sched.boot : St N).proc i).totalSysCall = 0 := by
    rcases boot_proc i with ⟨-, h⟩ | ⟨-, h⟩ <;> rw [h]
  have hcalls : tracedCalls i (Sched.boot : St N).hist = 0 := by
    by_cases h : i = 0
    · exact tracedCalls_reset (by simp [Ev.resets, h]) _
    · have hres : (Ev.created 0 1 : Ev N).resets i = false := by simp [Ev.resets, Ne.symm h]
      exact tracedCalls_skip hres nofun _
  rw [htotal, hcalls]
  rfl

/-- What a call of `trace(0)` does. -/
theorem step_trace {c : ℕ} (hc : (s.cpu c).sched = .away i)
    (hs : step s (c, .call (.syscall SYS_trace 0)) = some s') :
    s'.hist = .traced i ((s.proc i).count.sysTrace 0).2 ::
      .dispatched i (s.proc i).traceFlag :: s.hist := by
  unfold step at hs
  simp only [hc] at hs
  split at hs
  · rename_i lk _
    cases lk with
    | some l => cases hs
    | none =>
        obtain rfl := Option.some.inj hs
        rw [← count_flag]
        rfl
  · cases hs

/-- **`trace(0)` returns the process's own calls**, as long as `allocproc` gives out slots
whose count is zero: after every run of such steps the next `trace(0)` returns, as an
`int`, the number of calls the calling process had dispatched with its flag set since its
creation or last `trace(0)`, this one included. -/
theorem trace_counts_own_calls [NeZero N] (as : List (ℕ × Go)) (s : St N)
    (hG : Along step (fun s a => givesCleared s a = true) (boot : St N) as)
    (h : Runs.run step boot as = some s) (c : ℕ) (i : Fin N) (s' : St N)
    (hc : (s.cpu c).sched = .away i)
    (hs : step s (c, .call (.syscall SYS_trace 0)) = some s') :
    ∃ r : Int32, s'.hist = .traced i r :: .dispatched i (s.proc i).traceFlag :: s.hist ∧
      r = Int32.ofNat (tracedCalls i (.dispatched i (s.proc i).traceFlag :: s.hist)) ∧
      (tracedCalls i (.dispatched i (s.proc i).traceFlag :: s.hist) < 2 ^ 31 →
        r.toInt = tracedCalls i (.dispatched i (s.proc i).traceFlag :: s.hist)) := by
  have hinv : (∃ R, Inv R s) ∧ Counted s :=
    Along.induction (I := fun t => (∃ R, Inv R t) ∧ Counted t)
      (fun _ _ _ ⟨⟨_, hI⟩, hM⟩ hG hs => ⟨hI.step hs, hM.step hI hG hs⟩)
      ⟨⟨_, Inv.boot⟩, Counted.boot⟩ hG h
  obtain ⟨⟨R, hI⟩, hM⟩ := hinv
  have hused : (s.proc i).state ≠ .UNUSED := by
    intro hu
    have hoff := (hI.fits i).2
    rw [hu] at hoff
    exact absurd (hoff.symm.trans (hI.away hc).2.2.2) nofun
  refine ⟨_, step_trace hc hs, hM.traced hused, fun hlt => ?_⟩
  rw [hM.traced hused]
  exact Int32.toInt_ofNat_of_lt hlt

/-- Init calls `trace(1)` and `getpid()`. -/
def traceGetpid : List (ℕ × Go) :=
  List.replicate 6 (0, .next none) ++ [(0, .call (.syscall SYS_trace 1)), (0, .call (.syscall 11 0))]

theorem init_traces_two_calls :
    ∃ s s' : St NPROC,
      Along step (fun s a => givesCleared s a = true) (boot : St NPROC) traceGetpid ∧
      Runs.run step boot traceGetpid = some s ∧ (s.cpu 0).sched = .away 0 ∧
      step s (0, .call (.syscall SYS_trace 0)) = some s' ∧
      ∃ r : Int32, s'.hist = .traced 0 r :: .dispatched 0 true :: s.hist ∧ r.toInt = 2 := by
  have halong : Along step (fun s a => givesCleared s a = true) (boot : St NPROC)
      traceGetpid := by decide +kernel
  have hview : (Runs.run step (boot : St NPROC) traceGetpid).map (fun s =>
      ((s.cpu 0).sched, (s.proc 0).traceFlag, tracedCalls 0 (.dispatched 0 true :: s.hist),
        (step s (0, .call (.syscall SYS_trace 0))).isSome)) = some (.away 0, true, 2, true) := by
    decide +kernel
  obtain ⟨s, hs, hv⟩ := Option.map_eq_some_iff.mp hview
  simp only [Prod.mk.injEq] at hv
  obtain ⟨hc, hflag, hcalls, hsome⟩ := hv
  obtain ⟨s', hs'⟩ := Option.isSome_iff_exists.mp hsome
  obtain ⟨r, hhist, -, hr⟩ := trace_counts_own_calls _ s halong hs 0 0 s' hc hs'
  rw [hflag] at hhist hr
  rw [hcalls] at hr
  exact ⟨s, s', halong, hs, hc, hs', r, hhist, hr (by norm_num)⟩

/-- Init forks and waits; the child calls `trace(1)` and `exit()`; init forks and waits
again. -/
def traceAndExit : List (ℕ × Go) :=
  let forkWait : List (ℕ × Go) :=
    (0, .call (.syscall 1 0)) :: (0, .call .fork) :: List.replicate 3 (0, .next none) ++
      (0, .next (some 2)) :: (0, .next (some 3)) :: List.replicate 4 (0, .next none) ++
      (0, .call (.syscall 3 0)) :: (0, .call .wait) :: List.replicate 10 (0, .next none)
  List.replicate 6 (0, .next none) ++ forkWait ++
    [(0, .call (.syscall SYS_trace 1)), (0, .call (.syscall 2 0)), (0, .call .exit)] ++
    List.replicate 141 (0, .next none) ++ forkWait

/-- The second child gets the slot of the first, and with it the count of one call, the
`exit`.  Its first call is `trace(0)` and returns 1, with its flag never set. -/
theorem trace_counts_previous_process :
    ∃ s s' : St NPROC, Runs.run step boot traceAndExit = some s ∧
      (s.cpu 0).sched = .away 1 ∧ (s.proc 1).pid = 3 ∧
      step s (0, .call (.syscall SYS_trace 0)) = some s' ∧
      s'.hist = .traced 1 1 :: .dispatched 1 false :: s.hist ∧
      tracedCalls 1 (.dispatched 1 false :: s.hist) = 0 := by
  have hview : (Runs.run step (boot : St NPROC) traceAndExit).map (fun s =>
      ((s.cpu 0).sched, (s.proc 1).pid, tracedCalls 1 (.dispatched 1 false :: s.hist),
        (s.proc 1).traceFlag, ((s.proc 1).count.sysTrace 0).2,
        (step s (0, .call (.syscall SYS_trace 0))).isSome)) =
        some (.away 1, 3, 0, false, 1, true) := by
    decide +kernel
  obtain ⟨s, hs, hv⟩ := Option.map_eq_some_iff.mp hview
  simp only [Prod.mk.injEq] at hv
  obtain ⟨hc, hpid, hcalls, hflag, hr, hsome⟩ := hv
  obtain ⟨s', hs'⟩ := Option.isSome_iff_exists.mp hsome
  have hhist := step_trace hc hs'
  rw [hflag, hr] at hhist
  exact ⟨s, s', hs, hc, hpid, hs', hhist, hcalls⟩

/-! ### The argument of `trace` -/

/-- The argument that the user passed, as `argint(0, &x)` would fetch it. -/
def userArg (u : UserAccess.Proc) : Option ℤ := (UserAccess.argint u 0).result.join

/-- A system call about to be dispatched: the user memory and stack pointer of the caller,
its slot of the table, and the word that the kernel stack holds where a handler expects its
first parameter. -/
structure Dispatch (N : ℕ) where
  user : UserAccess.Proc
  proc : Proc N
  word : Int32

/-- `syscall` for `trace`: the call is counted, then `syscalls[num]()` passes no argument
and `sys_trace(int x)` finds `x` on the kernel stack. -/
def Dispatch.trace (d : Dispatch N) : Proc N × Int32 := d.proc.count.sysTrace d.word

/-- The three things that a `trace` call determines. -/
def Dispatch.outcome (d : Dispatch N) : Bool × Int32 × Int32 :=
  (d.trace.1.traceFlag, d.trace.1.totalSysCall, d.trace.2)

theorem outcome_flag (d : Dispatch N) : d.outcome.1 = true ↔ d.word ≠ 0 := by
  unfold Dispatch.outcome Dispatch.trace Proc.sysTrace
  split_ifs with h <;> simp [h]

/-- The outcome depends on the word only through its being zero. -/
theorem outcome_congr (u : UserAccess.Proc) (P : Proc N) {w₁ w₂ : Int32}
    (h : w₁ ≠ 0 ↔ w₂ ≠ 0) :
    (Dispatch.mk u P w₁).outcome = (Dispatch.mk u P w₂).outcome := by
  unfold Dispatch.outcome Dispatch.trace Proc.sysTrace
  simp only [h]

/-- **When `trace` obeys its argument.**  Two calls with the same user stack, holding
argument `x`, and the same process state have the same outcome and leave the flag set just
when `x` is not zero, if and only if both words of the kernel stack are zero just when `x`
is. -/
theorem trace_obeys_argument_iff (u : UserAccess.Proc) (x : ℤ) (hx : userArg u = some x)
    (P : Proc N) (w₁ w₂ : Int32) :
    ((Dispatch.mk u P w₁).outcome = (Dispatch.mk u P w₂).outcome ∧
        ∀ w ∈ [w₁, w₂], ((Dispatch.mk u P w).outcome.1 = true ↔ x ≠ 0)) ↔
      ∀ w ∈ [w₁, w₂], (w ≠ 0 ↔ userArg u ≠ some 0) := by
  have harg : userArg u ≠ some 0 ↔ x ≠ 0 := by rw [hx, Ne, Option.some.injEq]
  simp only [outcome_flag, harg]
  constructor
  · exact fun h => h.2
  · intro h
    exact ⟨outcome_congr u P ((h w₁ (by simp)).trans (h w₂ (by simp)).symm), h⟩

/-- A process with 8 bytes of memory: the return address of the stub and an argument. -/
def passing (b : UInt8) : UserAccess.Proc where
  sz := 8
  esp := 0
  mem := fun k => if k = 4 then b else 0
  ofile := fun _ => none

theorem trace_one_obeyed :
    userArg (passing 1) = some 1 ∧
      (Dispatch.mk (passing 1) ({} : Proc NPROC) 1).outcome =
        (Dispatch.mk (passing 1) ({} : Proc NPROC) 5).outcome := by
  have harg : userArg (passing 1) = some 1 := by decide
  refine ⟨harg, ((trace_obeys_argument_iff (passing 1) 1 harg {} 1 5).mpr ?_).1⟩
  rw [harg]
  simp

/-- `trace(1)` with a zero on the kernel stack is taken for `trace(0)`. -/
theorem trace_ignores_argument :
    userArg (passing 1) = some 1 ∧
      (Dispatch.mk (passing 1) ({} : Proc NPROC) 0).outcome = (false, 0, 0) ∧
      (Dispatch.mk (passing 1) ({} : Proc NPROC) 1).outcome = (true, 0, 0) := by
  decide

end Nunix.Sched
