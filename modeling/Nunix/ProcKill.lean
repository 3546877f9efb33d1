/-
Nunix/ProcKill.lean

Who is killed.

`kill` looks for a slot with the given pid and does not look at its state; `wait` clears
the pid and the `killed` flag of a slot, `allocproc` and the failure paths of `fork` clear
neither.  So `kill(0)` marks a slot that was never used, `kill` of the pid of a failed
`fork` marks the slot it left behind, and a process that is killed while it is being made
leaves its mark in the slot if its `fork` fails; the next process in the slot starts life
killed (`kill_marks_unused_slot`).  As long as none of this happens, whoever is marked was
addressed, or faulted (`only_addressed_killed`).
-/
import Nunix.ProcTable

namespace Nunix.Sched

open Runs

variable {N : ℕ} {R : Pages N} {s s' : St N} {a : ℕ × Go} {i : Fin N} {pid : Int32} {p np k : Fin N}

/-! ### The history of a slot -/

/-- Slot `i` was given out. -/
def Ev.creates (i : Fin N) : Ev N → Bool
  | .created p _ => p = i
  | _ => false

/-- What happened since slot `i` was given out. -/
def since (i : Fin N) (hist : List (Ev N)) : List (Ev N) := hist.takeWhile fun e => !e.creates i

theorem since_cons {e : Ev N} (he : e.creates i = false) (hist : List (Ev N)) :
    since i (e :: hist) = e :: since i hist := by
  unfold since
  rw [List.takeWhile_cons, he]
  rfl

theorem since_append {es : List (Ev N)} (he : ∀ e ∈ es, e.creates i = false)
    (hist : List (Ev N)) : since i (es ++ hist) = es ++ since i hist := by
  induction es with
  | nil => rfl
  | cons e es ih =>
      rw [List.cons_append, since_cons (he e List.mem_cons_self),
        ih fun e he' => he e (List.mem_cons_of_mem _ he')]
      rfl

/-- Since the process in slot `i` was created, a `kill` that names its pid has returned 0,
or it has faulted. -/
def Blamed (s : St N) (i : Fin N) : Prop :=
  .killed (s.proc i).pid ∈ since i s.hist ∨ .fault i ∈ since i s.hist

instance (s : St N) (i : Fin N) : Decidable (Blamed s i) := inferInstanceAs (Decidable (_ ∨ _))

/-- The step does not mark a slot that is not in use: `kill` does not hit an UNUSED slot,
and a slot that `fork` gives back is not marked. -/
def marksProcesses (s : St N) (a : ℕ × Go) : Bool :=
  match (s.cpu a.1).sched, a.2 with
  | .away i, .next page =>
      match (s.proc i).pc, page with
      | .kill pid, _ => (findPid s.proc pid).all fun p => (s.proc p).state ≠ .UNUSED
      | .kalloc np, none | .copyuvm np, none => !(s.proc np).killed
      | _, _ => true
  | _, _ => true

theorem marksProcesses_kill {page : Option ℕ} (hG : marksProcesses s a = true)
    (hact : Acts s a i (.kill pid) page) (hp : findPid s.proc pid = some p) :
    (s.proc p).state ≠ .UNUSED := by
  obtain ⟨hc, hpc, ha⟩ := hact
  unfold marksProcesses at hG
  rw [hc, ha] at hG
  simp only [hpc, hp] at hG
  simpa using hG

theorem marksProcesses_drop (hG : marksProcesses s a = true)
    (hact : Acts s a i (.kalloc np) none ∨ Acts s a i (.copyuvm np) none) :
    (s.proc np).killed = false := by
  unfold marksProcesses at hG
  rcases hact with ⟨hc, hpc, ha⟩ | ⟨hc, hpc, ha⟩ <;> rw [hc, ha] at hG <;>
    simp only [hpc] at hG <;> simpa using hG

/-! ### The invariant -/

/-- Slots that are not in use are not marked, and every process that is marked was
addressed or has faulted. -/
structure Marked (s : St N) : Prop where
  unused : ∀ {i}, (s.proc i).state = .UNUSED → (s.proc i).killed = false
  blamed : ∀ {i}, (s.proc i).state ≠ .UNUSED → (s.proc i).killed = true → Blamed s i

/-- Events are only added. -/
theorem Blamed.mono (h : Blamed s i) (es : List (Ev N)) (hhist : s'.hist = es ++ s.hist)
    (hes : ∀ e ∈ es, e.creates i = false) (hpid : (s'.proc i).pid = (s.proc i).pid) :
    Blamed s' i := by
  unfold Blamed
  rw [hhist, since_append hes, hpid]
  exact h.imp (List.mem_append_right _) (List.mem_append_right _)

/-- A step that creates nobody: the slots keep their pids and marks, or are cleared. -/
theorem Marked.keep (h : Marked s) (es : List (Ev N)) (hhist : s'.hist = es ++ s.hist)
    (hes : ∀ e ∈ es, ∀ j, e.creates j = false)
    (hproc : ∀ j, ((s'.proc j).killed = true → (s.proc j).killed = true) ∧
      ((s.proc j).state = .UNUSED → (s'.proc j).state = .UNUSED) ∧
      ((s'.proc j).state ≠ .UNUSED → (s'.proc j).pid = (s.proc j).pid) ∧
      ((s'.proc j).state = .UNUSED → (s.proc j).state = .UNUSED ∨ (s'.proc j).killed = false)) :
    Marked s' := by
  constructor
  · intro j hj
    obtain ⟨h₁, -, -, h₄⟩ := hproc j
    rcases h₄ hj with hu | hk
    · rw [← Bool.not_eq_true]
      intro hk
      rw [h.unused hu] at h₁
      cases h₁ hk
    · exact hk
  · intro j hj hk
    obtain ⟨h₁, h₂, h₃, -⟩ := hproc j
    exact (h.blamed (fun hu => hj (h₂ hu)) (h₁ hk)).mono es hhist (fun e he => hes e he j) (h₃ hj)

/-- A record whose state, pid and mark are as before. -/
theorem Marked.slot (h : Marked s) (es : List (Ev N)) (hhist : s'.hist = es ++ s.hist)
    (hes : ∀ e ∈ es, ∀ j, e.creates j = false) (hothers : ∀ j, j ≠ k → Calm (s.proc j) (s'.proc j))
    (hk : ((s'.proc k).killed = true → (s.proc k).killed = true) ∧
      ((s.proc k).state = .UNUSED → (s'.proc k).state = .UNUSED) ∧
      ((s'.proc k).state ≠ .UNUSED → (s'.proc k).pid = (s.proc k).pid) ∧
      ((s'.proc k).state = .UNUSED → (s.proc k).state = .UNUSED ∨ (s'.proc k).killed = false)) :
    Marked s' := by
  refine h.keep es hhist hes fun j => ?_
  by_cases hj : j = k
  · rw [hj]
    exact hk
  · have hc := hothers j hj
    exact ⟨fun hk => hc.killed ▸ hk, hc.unused.mpr, fun _ => hc.pid,
      fun hu => Or.inl (hc.unused.mp hu)⟩

theorem findPid_pid {t : Fin N → Proc N} (h : findPid t pid = some p) : (t p).pid = pid := by
  simpa using List.find?_some h

theorem Marked.step (h : Marked s) (hI : Inv R s) (hG : marksProcesses s a = true)
    (hs : step s a = some s') : Marked s' := by
  obtain ⟨-, he⟩ := step_effect hI hs
  cases he with
  | within hw =>
      obtain ⟨es, hhist, hes, -, hproc⟩ := hw.stays
      refine h.keep es hhist (fun e he j => ?_) fun j => ⟨fun hk => (hproc j).killed ▸ hk,
        (hproc j).unused.mpr, fun _ => (hproc j).pid, fun hu => Or.inl ((hproc j).unused.mp hu)⟩
      have := hes e he
      cases e <;> first | rfl | cases this
  | alloc i np page hact hfind hothers hst hproc hhist =>
      constructor
      · intro j hj
        by_cases hjn : j = np
        · rw [hjn, hproc] at hj
          cases hj
        · rw [(hothers j hjn).killed]
          exact h.unused ((hothers j hjn).unused.mp hj)
      · intro j hj hk
        by_cases hjn : j = np
        · rw [hjn, hproc] at hk
          have := h.unused hst
          rw [show _ = true from hk] at this
          cases this
        · refine Blamed.mono (h.blamed ?_ ?_) [_] hhist ?_ (hothers j hjn).pid
          · exact mt (hothers j hjn).unused.mpr hj
          · rw [← (hothers j hjn).killed]
            exact hk
          · simp [Ev.creates, Ne.symm hjn]
  | drop i np hact hothers hst kstack pgdir hproc hnot hhist =>
      refine h.slot [] hhist nofun hothers ?_
      rw [hproc]
      exact ⟨id, fun _ => rfl, fun hu => absurd rfl hu,
        fun _ => Or.inr (marksProcesses_drop hG hact)⟩
  | reap i p hothers hpar hst hproc hhist =>
      refine h.slot [_] hhist (by simp [Ev.creates]) hothers ?_
      rw [hproc]
      exact ⟨nofun, fun _ => rfl, fun hu => absurd rfl hu, fun _ => Or.inr rfl⟩
  | kill i pid page hact p hp hcalm hkilled hhist =>
      have hused := marksProcesses_kill hG hact hp
      constructor
      · intro j hj
        have hj := (hcalm j).unused.mp hj
        rw [hkilled, if_neg]
        · exact h.unused hj
        · rintro rfl
          exact hused hj
      · intro j hj hk
        by_cases hjp : j = p
        · subst hjp
          left
          rw [hhist, since_cons rfl, (hcalm j).pid]
          exact findPid_pid hp ▸ List.mem_cons_self
        · rw [hkilled, if_neg hjp] at hk
          exact Blamed.mono (h.blamed (mt (hcalm j).unused.mpr hj) hk) [_] hhist
            (by simp [Ev.creates]) (hcalm j).pid
  | fault i hrun hproc hhist =>
      constructor
      · intro j hj
        rw [hproc] at hj ⊢
        by_cases hji : j = i
        · rw [hji, Function.update_self] at hj
          rw [show _ = ProcState.UNUSED from hj] at hrun
          cases hrun
        · rw [Function.update_of_ne hji] at hj ⊢
          exact h.unused hj
      · intro j hj hk
        by_cases hji : j = i
        · right
          rw [hji, hhist, since_cons rfl]
          exact List.mem_cons_self
        · rw [hproc, Function.update_of_ne hji] at hj hk
          refine Blamed.mono (h.blamed hj hk) [_] hhist (by simp [Ev.creates]) ?_
          rw [hproc, Function.update_of_ne hji]
  | syscall i num x hs hrun =>
      subst hs
      obtain ⟨flag, total, hproc⟩ := syscall_proc s i num x
      obtain ⟨es, hhist, hes⟩ := syscall_hist s i num x
      refine h.keep es hhist ?_ fun j => ?_
      · intro e he j
        rcases hes e he with ⟨b, rfl⟩ | ⟨r, rfl⟩ <;> rfl
      · rw [hproc]
        by_cases hj : j = i
        · rw [hj, Function.update_self]
          exact ⟨id, id, fun _ => rfl, Or.inl⟩
        · rw [Function.update_of_ne hj]
          exact ⟨id, id, fun _ => rfl, Or.inl⟩

theorem Marked.boot [NeZero N] : Marked (boot : St N) := by
  have hk : ∀ i, ((Sched.boot : St N).proc i).killed = false := by
    intro i
    rcases boot_proc i with ⟨-, h⟩ | ⟨-, h⟩ <;> rw [h]
  exact ⟨fun _ => hk _, fun _ hi => absurd ((hk _).symm.trans hi) nofun⟩

/-- `kill` returns 0 for a slot with that pid. -/
theorem killed_step (hI : Inv R s) (hG : marksProcesses s a = true) (hs : step s a = some s')
    (hhist : s'.hist = .killed pid :: s.hist) :
    ∃ p, (s.proc p).state ≠ .UNUSED ∧ (s.proc p).pid = pid := by
  obtain ⟨-, he⟩ := step_effect hI hs
  cases he
  case within hw => cases hw.noted hhist
  case kill i pid' page hact p hp hcalm hkilled hh _ =>
    rw [hh] at hhist
    obtain rfl := Ev.killed.inj (List.cons.inj hhist).1
    exact ⟨p, marksProcesses_kill hG hact hp, findPid_pid hp⟩
  case syscall i num x hs _ =>
    subst hs
    rcases syscall_not_noted hhist with ⟨b, he⟩ | ⟨r, he⟩ <;> cases he
  all_goals
    rename_i hh _
    rw [hh] at hhist
    first
    | exact absurd hhist.symm (List.cons_ne_self _ _)
    | cases (List.cons.inj hhist).1

/-- **Only the addressed process is killed**, as long as no step marks a slot that is not
in use: after every run of such steps a process that is marked was addressed since its
creation by a `kill` that returned 0, or has faulted, and the next `kill` that returns 0
names the pid of a process that is not UNUSED. -/
theorem only_addressed_killed [NeZero N] (as : List (ℕ × Go)) (s : St N)
    (hG : Along step (fun s a => marksProcesses s a = true) (boot : St N) as)
    (h : Runs.run step boot as = some s) :
    (∀ i, (s.proc i).state ≠ .UNUSED → (s.proc i).killed = true → Blamed s i) ∧
    ∀ a s', marksProcesses s a = true → step s a = some s' → ∀ pid,
      s'.hist = .killed pid :: s.hist →
        ∃ p, (s.proc p).state ≠ .UNUSED ∧ (s.proc p).pid = pid := by
  have hinv : (∃ R, Inv R s) ∧ Marked s :=
    Along.induction (I := fun t => (∃ R, Inv R t) ∧ Marked t)
      (fun _ _ _ ⟨⟨_, hI⟩, hM⟩ hG hs => ⟨hI.step hs, hM.step hI hG hs⟩)
      ⟨⟨_, Inv.boot⟩, Marked.boot⟩ hG h
  obtain ⟨⟨R, hI⟩, hM⟩ := hinv
  exact ⟨fun i => hM.blamed, fun a s' hG hs pid => killed_step hI hG hs⟩

/-- Init forks and kills its child. -/
def forkAndKill : List (ℕ × Go) :=
  List.replicate 6 (0, .next none) ++ (0, .call .fork) :: List.replicate 3 (0, .next none) ++
    (0, .next (some 2)) :: (0, .next (some 3)) :: List.replicate 4 (0, .next none) ++
    (0, .call (.kill 2)) :: List.replicate 2 (0, .next none)

theorem child_killed_by_init :
    ∃ s : St NPROC,
      Along step (fun s a => marksProcesses s a = true) (boot : St NPROC) forkAndKill ∧
      Runs.run step boot forkAndKill = some s ∧
      (s.proc 1).state ≠ .UNUSED ∧ (s.proc 1).killed = true ∧ Blamed s 1 := by
  have halong : Along step (fun s a => marksProcesses s a = true) (boot : St NPROC)
      forkAndKill := by decide +kernel
  have hview : (Runs.run step (boot : St NPROC) forkAndKill).map
      (fun s => ((s.proc 1).state, (s.proc 1).killed)) = some (.RUNNABLE, true) := by
    decide +kernel
  obtain ⟨s, hs, hv⟩ := Option.map_eq_some_iff.mp hview
  obtain ⟨hst, hk⟩ := Prod.mk.inj hv
  have hst : (s.proc 1).state ≠ .UNUSED := by
    rw [hst]
    exact nofun
  exact ⟨s, halong, hs, hst, hk, (only_addressed_killed _ s halong hs).1 1 hst hk⟩

/-- Init calls `kill(0)`, up to the body of `kill`. -/
def killZero : List (ℕ × Go) :=
  List.replicate 6 (0, .next none) ++ [(0, .call (.kill 0)), (0, .next none)]

/-- After that it forks. -/
def killZeroFork : List (ℕ × Go) :=
  killZero ++ List.replicate 2 (0, .next none) ++ (0, .call .fork) ::
    List.replicate 3 (0, .next none) ++ (0, .next (some 2)) :: (0, .next (some 3)) ::
    List.replicate 4 (0, .next none)

/-- `kill(0)` returns 0 although no process has pid 0: it marks the first slot that was
never used, and the process that `fork` puts there is born killed. -/
theorem kill_marks_unused_slot :
    (∃ s s' : St NPROC, Runs.run step boot killZero = some s ∧
      step s (0, .next none) = some s' ∧ s'.hist = .killed 0 :: s.hist ∧
      ∀ p, (s.proc p).state ≠ .UNUSED → (s.proc p).pid ≠ 0) ∧
    ∃ s : St NPROC, Runs.run step boot killZeroFork = some s ∧
      (s.proc 1).state = .RUNNABLE ∧ (s.proc 1).killed = true ∧ ¬ Blamed s 1 := by
  constructor
  · have hview : (Runs.run step (boot : St NPROC) killZero).map (fun s =>
        (decide (∀ p, (s.proc p).state ≠ .UNUSED → (s.proc p).pid ≠ 0), s.hist,
          (step s (0, .next none)).map St.hist)) =
        some (true, [.created 0 1], some [.killed 0, .created 0 1]) := by decide +kernel
    obtain ⟨s, hs, hv⟩ := Option.map_eq_some_iff.mp hview
    simp only [Prod.mk.injEq, decide_eq_true_eq] at hv
    obtain ⟨hnone, hhist, hstep⟩ := hv
    obtain ⟨s', hs', hv'⟩ := Option.map_eq_some_iff.mp hstep
    exact ⟨s, s', hs, hs', by rw [hv', hhist], hnone⟩
  · have hview : (Runs.run step (boot : St NPROC) killZeroFork).map (fun s =>
        ((s.proc 1).state, (s.proc 1).killed, decide (Blamed s 1))) =
        some (.RUNNABLE, true, false) := by decide +kernel
    obtain ⟨s, hs, hv⟩ := Option.map_eq_some_iff.mp hview
    simp only [Prod.mk.injEq, decide_eq_false_iff_not] at hv
    exact ⟨s, hs, hv⟩

end Nunix.Sched
