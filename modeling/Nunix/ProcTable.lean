/-
Nunix/ProcTable.lean

What a step does to the process table.

Most steps leave what the life cycle of processes is about alone (`Calm`); the others are
listed in `Effect`, with what the machine's invariant says about the process that acts.
The invariants of the life cycle, of `kill` and of tracing are proved by going through
this list, not through the code again.
-/
import Nunix.SchedRun

namespace Nunix.Sched

open Function (update update_eq_self update_idem update_of_ne update_self)

variable {N : ℕ} {P P' : Proc N} {page lk : Option ℕ}

/-- The thread is in `exit`. -/
def Pc.exiting : Pc N → Bool
  | .exitWake | .exitLoop _ => true
  | .acquire n | .release n | .sched n | .off n | .wakeup _ n | .yield n => n.exiting
  | _ => false

/-- The process sleeps in `wait`. -/
def Proc.waits (P : Proc N) (q : Fin N) : Prop := P.state = .SLEEPING ∧ P.chan = some (.proc q)

/-- The channel and the lock of a thread that is in `sleep` and has not yet released the
lock. -/
def Pc.sleepOn : Pc N → Option (ℕ × ℕ)
  | .sleepUnlock ch l => some (ch, l)
  | .acquire n | .release n | .wakeup _ n | .yield n => n.sleepOn
  | _ => none

theorem Pc.lk_of_sleepOn {pc : Pc N} {ch lk : ℕ} (h : pc.sleepOn = some (ch, lk)) :
    pc.lk = some lk := by
  induction pc with
  | sleepUnlock => cases h; rfl
  | acquire n ih | release n ih | wakeup _ n ih | yield n ih => exact ih h
  | _ => cases h

/-- A thread without a spin lock is not about to sleep. -/
theorem Pc.sleepOn_of_lk {pc : Pc N} (h : pc.lk = none) : pc.sleepOn = none := by
  rcases hs : pc.sleepOn with - | ⟨ch, l⟩
  · rfl
  · exact absurd (h.symm.trans (lk_of_sleepOn hs)) nofun

/-- A change of a slot that the life cycle does not notice. -/
structure Mild (P P' : Proc N) : Prop where
  pid : P'.pid = P.pid
  parent : P'.parent = P.parent
  killed : P'.killed = P.killed
  total : P'.totalSysCall = P.totalSysCall
  unused : P'.state = .UNUSED ↔ P.state = .UNUSED
  embryo : P'.state = .EMBRYO ↔ P.state = .EMBRYO
  zombie : P'.state = .ZOMBIE ↔ P.state = .ZOMBIE
  waits : ∀ {q}, P'.waits q → P.waits q
  forking : ∀ {k}, P'.pc.forking = some (3, k) → P.pc.forking = some (3, k)
  exiting : P'.pc.exiting = true → P.pc.exiting = true
  looping : ∀ {n}, P'.pc = .exitLoop n → P.pc = .exitLoop n

/-- A change of a slot that brings its process no nearer to sleeping on a channel. -/
structure Awake (P P' : Proc N) : Prop where
  decided : ∀ {x}, P'.pc.sleepOn = some x → P.pc.sleepOn = some x
  set : ∀ {ch l}, P'.pc = .sleepSet ch l → P.pc = .sleepSet ch l
  sleeps : ∀ {ch : ℕ}, P'.state = .SLEEPING ∧ P'.chan = some (.other ch) →
    P.state = .SLEEPING ∧ P.chan = some (.other ch)

/-- Fields other than `pc`, `chan` and `state` do not matter. -/
theorem Awake.fields (hpc : P'.pc = P.pc) (hchan : P'.chan = P.chan)
    (hst : P'.state = .SLEEPING → P.state = .SLEEPING) : Awake P P' :=
  ⟨fun h => hpc ▸ h, fun h => hpc ▸ h, fun h => ⟨hst h.1, hchan ▸ h.2⟩⟩

/-- The process goes to a place outside `sleep`. -/
theorem Awake.out (hpc : P'.pc.sleepOn = none) (hset : ∀ ch l, P'.pc ≠ .sleepSet ch l)
    (hs : ∀ {ch : ℕ}, P'.state = .SLEEPING ∧ P'.chan = some (.other ch) →
      P.state = .SLEEPING ∧ P.chan = some (.other ch)) : Awake P P' :=
  ⟨fun h => absurd (hpc.symm.trans h) nofun, fun h => absurd h (hset _ _), hs⟩

/-- A change that neither the life cycle nor `sleep` notices. -/
structure Calm (P P' : Proc N) : Prop extends Mild P P', Awake P P'

theorem Mild.refl (P : Proc N) : Mild P P :=
  ⟨rfl, rfl, rfl, rfl, Iff.rfl, Iff.rfl, Iff.rfl, id, id, id, id⟩

theorem Calm.refl (P : Proc N) : Calm P P := ⟨Mild.refl P, id, id, id⟩

/-- A thread goes on outside `exit`. -/
theorem Mild.goto (P : Proc N) (pc : Pc N)
    (hfork : ∀ {k}, pc.forking = some (3, k) → P.pc.forking = some (3, k))
    (hexit : pc.exiting = true → P.pc.exiting = true) (hloop : ∀ {n}, pc ≠ .exitLoop n) :
    Mild P { P with pc := pc } :=
  ⟨rfl, rfl, rfl, rfl, Iff.rfl, Iff.rfl, Iff.rfl, id, hfork, hexit, fun h => absurd h hloop⟩

theorem Calm.trans {P'' : Proc N} (h : Calm P P') (h' : Calm P' P'') : Calm P P'' where
  pid := h'.pid.trans h.pid
  parent := h'.parent.trans h.parent
  killed := h'.killed.trans h.killed
  total := h'.total.trans h.total
  unused := h'.unused.trans h.unused
  embryo := h'.embryo.trans h.embryo
  zombie := h'.zombie.trans h.zombie
  waits hq := h.waits (h'.waits hq)
  forking hk := h.forking (h'.forking hk)
  exiting he := h.exiting (h'.exiting he)
  looping hn := h.looping (h'.looping hn)
  decided hd := h.decided (h'.decided hd)
  set hs := h.set (h'.set hs)
  sleeps hs := h.sleeps (h'.sleeps hs)

/-- A process is woken. -/
theorem Calm.rouse (hst : P.state = .SLEEPING) : Calm P { P with state := .RUNNABLE } := by
  refine ⟨⟨rfl, rfl, rfl, rfl, ?_, ?_, ?_, fun hq => absurd hq.1 nofun, id, id, id⟩,
    .fields rfl rfl nofun⟩ <;> simp [hst]

theorem Calm.wakeup1 (t : Fin N → Proc N) (ch : Chan N) (q : Fin N) :
    Calm (t q) (Sched.wakeup1 t ch q) := by
  unfold Sched.wakeup1
  split_ifs with h
  · exact .rouse h.1
  · exact Calm.refl _

/-- In the step `a` process `i` goes on from `pc`. -/
def Acts (s : St N) (a : ℕ × Go) (i : Fin N) (pc : Pc N) (page : Option ℕ) : Prop :=
  (s.cpu a.1).sched = .away i ∧ (s.proc i).pc = pc ∧ a.2 = .next page

/-- A step of process `i` in `sleep` on channel `ch`, which leaves the record `P`; the last
one makes the process SLEEPING. -/
inductive ToSleep (ch : ℕ) (s : St N) (a : ℕ × Go) (i : Fin N) (P : Proc N) : Prop
  | call (l : ℕ) (hc : (s.cpu a.1).sched = .away i) (ha : a.2 = .call (.sleep ch))
      (hpc : (s.proc i).pc = .run (some l))
      (hP : P = { s.proc i with pc := .acquire (.sleepUnlock ch l) })
  | unlock (l : ℕ) (hpc : (s.proc i).pc = .sleepUnlock ch l)
      (hP : P = { s.proc i with pc := .sleepSet ch l })
  | set (l : ℕ) (hpc : (s.proc i).pc = .sleepSet ch l)
      (hP : P = { s.proc i with
        chan := some (.other ch), state := .SLEEPING, pc := .sched (.sleepWoken ch l) })

/-- What a step does to the table in which every slot keeps its process.  `i` is the process
that acts. -/
inductive Within (s : St N) (a : ℕ × Go) (s' : St N) : Prop
  | quiet (hproc : ∀ j, Calm (s.proc j) (s'.proc j)) (hhist : s'.hist = s.hist)
      (hnext : s'.nextpid = s.nextpid)
  | sleep (ch : ℕ) (i : Fin N) (hothers : ∀ j, j ≠ i → s'.proc j = s.proc j)
      (hsleep : ToSleep ch s a i (s'.proc i)) (hmild : Mild (s.proc i) (s'.proc i))
      (hhist : s'.hist = s.hist) (hnext : s'.nextpid = s.nextpid)
  /-- `fork` sets the parent -/
  | adopt (i np : Fin N) (hothers : ∀ j, j ≠ np → j ≠ i → s'.proc j = s.proc j)
      (hst : (s.proc np).state = .EMBRYO) (hrun : (s.proc i).state = .RUNNING)
      (hpc : (s.proc i).pc = .setParent np)
      (hproc : s'.proc np = { s.proc np with parent := some i })
      (hi : s'.proc i = { s.proc i with pc := .acquire (.setRunnable np) })
      (hhist : s'.hist = s.hist) (hnext : s'.nextpid = s.nextpid)
  /-- `fork` makes the new process runnable -/
  | ready (i np : Fin N) (hothers : ∀ j, j ≠ np → Calm (s.proc j) (s'.proc j))
      (hst : (s.proc np).state = .EMBRYO) (hfork : (s.proc i).pc.forking = some (3, np))
      (hproc : s'.proc np = { s.proc np with state := .RUNNABLE })
      (hhist : s'.hist = s.hist) (hnext : s'.nextpid = s.nextpid)
  /-- a process other than init calls `exit` -/
  | exitCall (i : Fin N) (hothers : ∀ j, j ≠ i → Calm (s.proc j) (s'.proc j))
      (hne : i ≠ s.initproc) (hproc : s'.proc i = { s.proc i with pc := .acquire .exitWake })
      (hhist : s'.hist = s.hist) (hnext : s'.nextpid = s.nextpid)
  /-- `exit` wakes the parent -/
  | exitWake (i : Fin N) (hothers : ∀ j, j ≠ i → Calm (s.proc j) (s'.proc j))
      (hpc : (s.proc i).pc = .exitWake)
      (hproc : s'.proc i = { s.proc i with pc := .exitLoop 0 })
      (hwoken : ∀ q, (s.proc i).parent = some q → ¬ (s'.proc q).waits q)
      (hhist : s'.hist = s.hist) (hnext : s'.nextpid = s.nextpid)
  /-- `exit` passes on a child, if slot `p` is one -/
  | exitPass (i p : Fin N) (hpc : (s.proc i).pc = .exitLoop p)
      (halone : ∀ j n, (s.proc j).pc = .exitLoop n → j = i)
      (hproc : s'.proc = ((s.passOn i p).goto i (.exitLoop (p + 1))).proc)
      (hhist : s'.hist = s.hist) (hnext : s'.nextpid = s.nextpid)
  /-- `exit` is done -/
  | exitEnd (i : Fin N) (hothers : ∀ j, j ≠ i → s'.proc j = s.proc j) (n : ℕ) (hn : N ≤ n)
      (hpc : (s.proc i).pc = .exitLoop n) (hrun : (s.proc i).state = .RUNNING)
      (hproc : s'.proc i = { s.proc i with state := .ZOMBIE, pc := .sched .dead })
      (hhist : s'.hist = .exited (s.proc i).pid :: s.hist) (hnext : s'.nextpid = s.nextpid)
  /-- `wait` returns -1 -/
  | waitFail (i : Fin N) (hproc : ∀ j, Calm (s.proc j) (s'.proc j))
      (hkids : (s.proc i).killed = false → ∀ p, (s.proc p).parent ≠ some i)
      (hhist : s'.hist = .waitFailed i :: s.hist) (hnext : s'.nextpid = s.nextpid)
  /-- `wait` goes to sleep -/
  | waitSleep (i : Fin N) (hothers : ∀ j, j ≠ i → s'.proc j = s.proc j)
      (hrun : (s.proc i).state = .RUNNING)
      (hkids : ∀ p, (s.proc p).parent = some i → (s.proc p).state ≠ .ZOMBIE)
      (halone : ∀ j n, (s.proc j).pc ≠ .exitLoop n)
      (hproc : s'.proc i = { s.proc i with
        chan := some (.proc i), state := .SLEEPING, pc := .sched .waitWoken })
      (hhist : s'.hist = s.hist) (hnext : s'.nextpid = s.nextpid)
  | killFail (pid : Int32) (hproc : ∀ j, Calm (s.proc j) (s'.proc j))
      (hhist : s'.hist = .killFailed pid :: s.hist) (hnext : s'.nextpid = s.nextpid)

/-- What the step `a` does to the table. -/
inductive Effect (s : St N) (a : ℕ × Go) (s' : St N) : Prop
  | within (h : Within s a s')
  /-- `allocproc` gives out a slot -/
  | alloc (i np : Fin N) (page : Option ℕ) (hact : Acts s a i .allocproc page)
      (hfind : findUnused s.proc = some np)
      (hothers : ∀ j, j ≠ np → Calm (s.proc j) (s'.proc j))
      (hst : (s.proc np).state = .UNUSED)
      (hproc : s'.proc np = { s.proc np with state := .EMBRYO, pid := s.nextpid })
      (hhist : s'.hist = .created np s.nextpid :: s.hist) (hnext : s'.nextpid = s.nextpid + 1)
  /-- `fork` fails after `allocproc` -/
  | drop (i np : Fin N) (hact : Acts s a i (.kalloc np) none ∨ Acts s a i (.copyuvm np) none)
      (hothers : ∀ j, j ≠ np → Calm (s.proc j) (s'.proc j))
      (hst : (s.proc np).state = .EMBRYO) (kstack pgdir : Option ℕ)
      (hproc : s'.proc np = { s.proc np with
        state := .UNUSED, kstack := kstack, pgdir := pgdir })
      (hnot : ∀ j, (s.proc j).pc.forking ≠ some (3, np))
      (hhist : s'.hist = s.hist) (hnext : s'.nextpid = s.nextpid)
  /-- `wait` returns the pid of a zombie -/
  | reap (i p : Fin N) (hothers : ∀ j, j ≠ p → Calm (s.proc j) (s'.proc j))
      (hpar : (s.proc p).parent = some i) (hst : (s.proc p).state = .ZOMBIE)
      (hproc : s'.proc p = { s.proc p with
        kstack := none, state := .UNUSED, pid := 0, parent := none, killed := false })
      (hhist : s'.hist = .reaped i (s.proc p).pid :: s.hist) (hnext : s'.nextpid = s.nextpid)
  /-- `kill` finds its process -/
  | kill (i : Fin N) (pid : Int32) (page : Option ℕ) (hact : Acts s a i (.kill pid) page)
      (p : Fin N) (hp : findPid s.proc pid = some p)
      (hcalm : ∀ j, Calm { s.proc j with killed := (s'.proc j).killed } (s'.proc j))
      (hkilled : ∀ j, (s'.proc j).killed = if j = p then true else (s.proc j).killed)
      (hhist : s'.hist = .killed pid :: s.hist) (hnext : s'.nextpid = s.nextpid)
  /-- a fault in user space -/
  | fault (i : Fin N) (hrun : (s.proc i).state = .RUNNING)
      (hproc : s'.proc = update s.proc i { s.proc i with killed := true })
      (hhist : s'.hist = .fault i :: s.hist) (hnext : s'.nextpid = s.nextpid)
  /-- a valid system call is dispatched -/
  | syscall (i : Fin N) (num x : Int32) (hs : s' = s.syscall i num x)
      (hrun : (s.proc i).state = .RUNNING)

/-! ### Every step is in the list -/

variable {R : Pages N} {s s' : St N} {a : ℕ × Go} {c : ℕ} {i : Fin N}

theorem calm_update (hP : Calm (s.proc i) P) (j : Fin N) :
    Calm (s.proc j) (update s.proc i P j) := by
  by_cases hj : j = i
  · rw [hj, update_self]
    exact hP
  · rw [update_of_ne hj]
    exact Calm.refl _

theorem Effect.sleep {ch : ℕ} (hP : Mild (s.proc i) P) (hsleep : ToSleep ch s a i P)
    (hproc : s'.proc = update s.proc i P) (hhist : s'.hist = s.hist)
    (hnext : s'.nextpid = s.nextpid) : Effect s a s' := by
  have hi : s'.proc i = P := by rw [hproc, update_self]
  refine .within <| .sleep ch i (fun j hj => ?_) (hi ▸ hsleep) (hi ▸ hP) hhist hnext
  rw [hproc, update_of_ne hj]

/-- Only the record of one process changes, calmly. -/
theorem Effect.one (hP : Calm (s.proc i) P) (hproc : s'.proc = update s.proc i P)
    (hhist : s'.hist = s.hist) (hnext : s'.nextpid = s.nextpid) : Effect s a s' :=
  .within <| .quiet (fun j => hproc ▸ calm_update hP j) hhist hnext

theorem Effect.none (hproc : s'.proc = s.proc) (hhist : s'.hist = s.hist)
    (hnext : s'.nextpid = s.nextpid) : Effect s a s' :=
  .within <| .quiet (fun _ => hproc ▸ Calm.refl _) hhist hnext

/-- A place `pc` that is reached from `pc₀` outside the steps in the list. -/
theorem Calm.move {pc₀ : Pc N} (hpc : P.pc = pc₀) (pc : Pc N)
    (hfork : ∀ {k}, pc.forking = some (3, k) → pc₀.forking = some (3, k))
    (hexit : pc.exiting = true → pc₀.exiting = true) (hloop : ∀ {n}, pc ≠ .exitLoop n)
    (hsleep : ∀ {x}, pc.sleepOn = some x → pc₀.sleepOn = some x)
    (hset : ∀ ch l, pc ≠ .sleepSet ch l) : Calm P { P with pc := pc } := by
  subst hpc
  exact ⟨Mild.goto P pc hfork hexit hloop, hsleep, fun h => absurd h (hset _ _), id⟩

/-- A place outside `exit` and `sleep` and the end of `fork`. -/
def Pc.plain : Pc N → Bool
  | .acquire n | .release n | .wakeup _ n => n.plain
  | .run _ | .allocproc | .kalloc _ | .copyuvm _ | .setParent _ | .waitScan | .kill _ | .relock _ => true
  | _ => false

theorem Pc.forking_exiting_sleepOn {pc : Pc N} (h : pc.plain = true) :
    (∀ k, pc.forking ≠ some (3, k)) ∧ pc.exiting = false ∧ pc.sleepOn = none := by
  induction pc with
  | acquire n ih | release n ih | wakeup _ n ih => exact ih h
  | run | allocproc | kalloc | copyuvm | setParent | waitScan | kill | relock =>
    exact ⟨by simp [forking], rfl, rfl⟩
  | _ => cases h

theorem Calm.plain (P : Proc N) (pc : Pc N) (h : pc.plain = true) : Calm P { P with pc := pc } := by
  obtain ⟨hfork, hexit, hsleep⟩ := Pc.forking_exiting_sleepOn h
  refine .move rfl pc (fun hk => absurd hk (hfork _)) ?_ ?_ ?_ ?_
  · simp [hexit]
  · rintro n rfl
    cases h
  · simp [hsleep]
  · rintro ch l rfl
    cases h

/-- The same for a thread that was woken. -/
theorem Calm.woken (P : Proc N) (pc : Pc N) (h : pc.plain = true) :
    Calm P { P with chan := none, pc := pc } :=
  (Calm.plain P pc h).trans ⟨⟨rfl, rfl, rfl, rfl, Iff.rfl, Iff.rfl, Iff.rfl, (fun hw => by cases hw.2),
    id, id, id⟩, id, id, (fun hw => by cases hw.2)⟩

/-- A system call changes the trace fields of the caller only. -/
theorem syscall_proc (s : St N) (i : Fin N) (num x : Int32) : ∃ flag total,
    (s.syscall i num x).proc = update s.proc i
      { s.proc i with traceFlag := flag, totalSysCall := total } := by
  have hcount : ∃ total, (s.proc i).count = { s.proc i with totalSysCall := total } := by
    unfold Proc.count
    split_ifs
    · exact ⟨_, rfl⟩
    · exact ⟨(s.proc i).totalSysCall, rfl⟩
  have htrace : ∀ P : Proc N, ∃ flag total, (P.sysTrace x).1 =
      { P with traceFlag := flag, totalSysCall := total } := by
    intro P
    unfold Proc.sysTrace
    split_ifs
    · exact ⟨true, P.totalSysCall, rfl⟩
    · exact ⟨false, 0, rfl⟩
  obtain ⟨total, hcount⟩ := hcount
  obtain ⟨flag', total', htrace⟩ := htrace { s.proc i with totalSysCall := total }
  unfold St.syscall
  rw [hcount]
  split_ifs
  · refine ⟨flag', total', ?_⟩
    simp only [St.setProc, St.note, update_idem, htrace]
  · refine ⟨flag', total', ?_⟩
    simp only [St.setProc, St.note, update_idem, htrace]
  · exact ⟨(s.proc i).traceFlag, total, rfl⟩
  · exact ⟨(s.proc i).traceFlag, (s.proc i).totalSysCall, (update_eq_self i _).symm⟩

theorem syscall_nextpid (s : St N) (i : Fin N) (num x : Int32) :
    (s.syscall i num x).nextpid = s.nextpid := by
  unfold St.syscall
  split_ifs <;> rfl

/-- What a system call notes. -/
theorem syscall_hist (s : St N) (i : Fin N) (num x : Int32) : ∃ es,
    (s.syscall i num x).hist = es ++ s.hist ∧
      ∀ e ∈ es, (∃ b, e = .dispatched i b) ∨ ∃ r, e = .traced i r := by
  unfold St.syscall
  split_ifs
  · exact ⟨[.traced i _, .dispatched i _], rfl, by simp⟩
  · exact ⟨[.dispatched i _], rfl, by simp⟩
  · exact ⟨[.dispatched i _], rfl, by simp⟩
  · exact ⟨[], rfl, by simp⟩

/-- A system call notes neither what `wait` returns nor what `kill` does. -/
theorem syscall_not_noted {num x : Int32} {e : Ev N}
    (hhist : (s.syscall i num x).hist = e :: s.hist) :
    (∃ b, e = .dispatched i b) ∨ ∃ r, e = .traced i r := by
  obtain ⟨es, hh, hes⟩ := syscall_hist s i num x
  rw [hh] at hhist
  obtain rfl : es = [e] := List.append_cancel_right hhist
  exact hes e (List.mem_singleton_self e)

theorem call_effect (h : Inv R s) (hc : (s.cpu c).sched = .away i) (hpc : (s.proc i).pc = .run lk)
    {k : Call} (hs : s.call c i k lk = some s') :
    s'.initproc = s.initproc ∧ Effect s (c, .call k) s' := by
  have hrun : (s.proc i).state = .RUNNING :=
    (h.fits i).running (h.away hc).2.2.2 (by rw [hpc]; rfl)
  cases k with
  | fork =>
      cases lk <;> cases hs
      exact ⟨rfl, .one (Calm.plain _ (.acquire .allocproc) rfl) rfl rfl rfl⟩
  | exit =>
      rcases lk with - | _
      · obtain ⟨hne, ⟨⟩⟩ := Option.ite_none_left_eq_some.mp hs
        refine ⟨rfl, .within <| .exitCall i (fun j hj => ?_) hne (update_self ..) rfl rfl⟩
        have : (s.goto i (.acquire .exitWake)).proc j = s.proc j := update_of_ne hj ..
        rw [this]
        exact Calm.refl _
      · cases hs
  | wait =>
      cases lk <;> cases hs
      exact ⟨rfl, .one (Calm.plain _ (.acquire .waitScan) rfl) rfl rfl rfl⟩
  | kill pid =>
      cases lk <;> cases hs
      exact ⟨rfl, .one (Calm.plain _ (.acquire (.kill pid)) rfl) rfl rfl rfl⟩
  | wakeup =>
      cases hs
      exact ⟨rfl, .one (Calm.plain _ (.acquire (.wakeup (.other _) (.run _))) rfl) rfl rfl rfl⟩
  | sleep ch =>
      rcases lk with - | lk <;> cases hs
      exact ⟨rfl, .sleep (Mild.goto _ (.acquire (.sleepUnlock ch lk)) nofun nofun nofun)
        (.call lk hc rfl hpc rfl) rfl rfl rfl⟩
  | acquire l =>
      rcases lk with - | _
      · obtain ⟨-, ⟨⟩⟩ := Option.ite_none_right_eq_some.mp hs
        exact ⟨rfl, .one (Calm.plain _ (.run (some l)) rfl) rfl rfl rfl⟩
      · cases hs
  | release =>
      cases lk <;> cases hs
      exact ⟨rfl, .one (Calm.plain _ (.run none) rfl) rfl rfl rfl⟩
  | fault =>
      cases lk <;> cases hs
      exact ⟨rfl, .fault i hrun rfl rfl rfl⟩
  | syscall num x =>
      cases lk <;> cases hs
      refine ⟨?_, .syscall i num x rfl hrun⟩
      unfold St.syscall
      split_ifs <;> rfl

/-- What the scan of `wait` means when it finds no zombie. -/
theorem waitScan_inr {t : Fin N → Proc N} {me : Fin N} {ps : List (Fin N)} {b b' : Bool}
    (h : waitScan t me ps b = .inr b') :
    (∀ p ∈ ps, (t p).parent = some me → (t p).state ≠ .ZOMBIE) ∧
      (b' = false → ∀ p ∈ ps, (t p).parent ≠ some me) ∧ (b = true → b' = true) := by
  induction ps generalizing b with
  | nil =>
      obtain rfl := Sum.inr.inj h
      exact ⟨nofun, fun _ => nofun, id⟩
  | cons q ps ih =>
      unfold waitScan at h
      split_ifs at h with hpar hst
      · obtain ⟨h₁, h₂, h₃⟩ := ih h
        refine ⟨?_, fun hb => ?_, h₃⟩
        · rintro p (_ | ⟨_, hp⟩)
          · exact fun hq => absurd hq hpar
          · exact h₁ p hp
        · rintro p (_ | ⟨_, hp⟩)
          · exact hpar
          · exact h₂ hb p hp
      · obtain ⟨h₁, h₂, h₃⟩ := ih h
        refine ⟨?_, fun hb => ?_, fun _ => h₃ rfl⟩
        · rintro p (_ | ⟨_, hp⟩)
          · exact fun _ => hst
          · exact h₁ p hp
        · rw [h₃ rfl] at hb
          cases hb

/-- While a thread is in a critical section no other one is. -/
theorem Inv.alone (h : Inv R s) (hc : (s.cpu c).sched = .away i)
    (hl : (s.proc i).pc.locked = true) {j : Fin N} (hj : (s.proc j).pc.locked = true)
    (hoff : (s.proc j).pc.isOff = false) : j = i := by
  obtain ⟨c', hc'⟩ := h.on hoff
  have : c' = c := h.lock.unique ((holds_away hc').trans hj) ((holds_away hc).trans hl)
  subst this
  exact SchedPc.away.inj (hc'.symm.trans hc)

theorem waitBody_effect (h : Inv R s) (hc : (s.cpu c).sched = .away i)
    (hpc : (s.proc i).pc = .waitScan) :
    (s.waitBody i).initproc = s.initproc ∧ Effect s a (s.waitBody i) := by
  have hrun : (s.proc i).state = .RUNNING :=
    (h.fits i).running (h.away hc).2.2.2 (by rw [hpc]; rfl)
  unfold St.waitBody
  split
  · rename_i p hscan
    obtain ⟨hpar, hst⟩ := waitScan_inl hscan
    have hne : i ≠ p := by
      rintro rfl
      rw [hrun] at hst
      cases hst
    refine ⟨by simp [St.goto, St.setProc, St.note], .reap i p (fun j hj => ?_) hpar hst ?_ ?_ ?_⟩
    · by_cases hji : j = i
      · subst hji
        simp only [St.goto, St.setProc, St.note, update_self, St.kfree_proc,
          update_of_ne hj]
        exact Calm.plain _ _ rfl
      · simp only [St.goto, St.setProc, St.note, St.kfree_proc, update_of_ne hj,
          update_of_ne hji]
        exact Calm.refl _
    · simp [St.goto, St.setProc, St.note, update_of_ne hne.symm]
    · simp [St.goto, St.setProc, St.note]
    · simp [St.goto, St.setProc, St.note]
  · rename_i havekids hscan
    obtain ⟨hzombie, hkids, -⟩ := waitScan_inr hscan
    split_ifs with hb
    · refine ⟨rfl, .within <| .waitFail i (calm_update (Calm.plain _ (.release (.run none)) rfl)) ?_ rfl rfl⟩
      intro hk p
      rw [hk, Bool.or_false, Bool.not_eq_true'] at hb
      exact hkids hb p (List.mem_finRange p)
    · refine ⟨rfl, .within <| .waitSleep i (fun j hj => update_of_ne hj ..) hrun
        (fun p => hzombie p (List.mem_finRange p)) ?_ (update_self ..) rfl rfl⟩
      intro j n hj
      have := h.alone hc (by rw [hpc]; rfl) (j := j) (by rw [hj]; rfl) (by rw [hj]; rfl)
      rw [this, hpc] at hj
      cases hj

theorem allocproc_effect (h : Inv R s) (hact : Acts s a i .allocproc page) :
    (s.allocproc i).initproc = s.initproc ∧ Effect s a (s.allocproc i) := by
  obtain ⟨hc, hpc, -⟩ := id hact
  unfold St.allocproc
  split
  · exact ⟨rfl, .one (Calm.plain _ (.release (.run none)) rfl) rfl rfl rfl⟩
  · rename_i np hnp
    have hst := findUnused_state hnp
    have hne : i ≠ np := by
      rintro rfl
      have := (h.fits i).running (h.away hc).2.2.2 (by rw [hpc]; rfl)
      rw [hst] at this
      cases this
    refine ⟨rfl, .alloc i np page hact hnp (fun j hj => ?_) hst ?_ rfl rfl⟩
    · by_cases hji : j = i
      · subst hji
        simp only [St.goto, St.setProc, St.note, update_self, update_of_ne hj]
        exact Calm.plain _ (.release (.kalloc np)) rfl
      · simp only [St.goto, St.setProc, St.note, update_of_ne hj,
          update_of_ne hji]
        exact Calm.refl _
    · simp [St.goto, St.setProc, St.note, update_of_ne hne.symm]

theorem killBody_effect {pid : Int32} (hact : Acts s a i (.kill pid) page) :
    (s.killBody i pid).initproc = s.initproc ∧ Effect s a (s.killBody i pid) := by
  unfold St.killBody
  split
  · exact ⟨rfl, .within <| .killFail pid (calm_update (Calm.plain _ (.release (.run none)) rfl))
      rfl rfl⟩
  · rename_i p hp
    set P : Proc N := { s.proc p with
      killed := true
      state := if (s.proc p).state = .SLEEPING then .RUNNABLE else (s.proc p).state } with hP
    have hflag : Calm { s.proc p with killed := true } P := by
      rw [hP]
      split_ifs with hst
      · exact .rouse hst
      · exact Calm.refl _
    refine ⟨rfl, .kill i pid page hact p hp (fun j => ?_) (fun j => ?_) rfl rfl⟩ <;>
      simp only [St.goto, St.setProc, St.note]
    · by_cases hji : j = i <;> by_cases hjp : j = p
      · subst hji hjp
        simp only [update_self]
        exact hflag.trans (Calm.plain P (.release (.run none)) rfl)
      · subst hji
        simp only [update_self, update_of_ne hjp]
        exact Calm.plain _ (.release (.run none)) rfl
      · subst hjp
        simp only [update_of_ne hji, update_self]
        exact hflag
      · simp only [update_of_ne hji, update_of_ne hjp]
        exact Calm.refl _
    · simp only [Function.update_apply]
      split_ifs <;> simp_all

theorem waits_wakeup1 (t : Fin N → Proc N) (q p : Fin N) :
    ¬ (wakeup1 t (.proc q) p).waits q := by
  unfold wakeup1
  split_ifs with h
  · exact fun hw => absurd hw.1 nofun
  · exact h

theorem passOn_same (s : St N) (i p : Fin N) : (s.passOn i p).initproc = s.initproc ∧
    (s.passOn i p).hist = s.hist ∧ (s.passOn i p).nextpid = s.nextpid := by
  unfold St.passOn
  split_ifs <;> exact ⟨rfl, rfl, rfl⟩

theorem passOn_parent (s : St N) (i p j : Fin N) : ((s.passOn i p).proc j).parent =
    if j = p ∧ (s.proc j).parent = some i then some s.initproc else (s.proc j).parent := by
  unfold St.passOn
  by_cases hjp : j = p
  · subst hjp
    split_ifs <;> simp_all [St.setProc, (Calm.wakeup1 _ _ _).parent]
  · split_ifs <;> simp_all [St.setProc, (Calm.wakeup1 _ _ _).parent]

/-- Passing on a child changes parents only, and may wake init. -/
theorem passOn_calm (s : St N) (i p j : Fin N) :
    Calm { s.proc j with parent := ((s.passOn i p).proc j).parent } ((s.passOn i p).proc j) := by
  set t : St N := s.setProc p { s.proc p with parent := some s.initproc } with ht
  have hset : { s.proc j with parent := (t.proc j).parent } = t.proc j := by
    by_cases hjp : j = p
    · subst hjp
      simp [ht, St.setProc]
    · simp [ht, St.setProc, hjp]
  unfold St.passOn
  split_ifs
  · have hw := Calm.wakeup1 t.proc (.proc s.initproc) j
    simp only
    rw [hw.parent, hset]
    exact hw
  · simp only
    rw [hset]
    exact Calm.refl _
  · exact Calm.refl _

/-- A zombie that is passed on has woken init. -/
theorem passOn_woken {p : Fin N} (hpar : (s.proc p).parent = some i)
    (hst : (s.proc p).state = .ZOMBIE) : ¬ ((s.passOn i p).proc s.initproc).waits s.initproc := by
  unfold St.passOn
  rw [if_pos hpar, if_pos hst]
  exact waits_wakeup1 _ _ _

theorem exitBody_effect (h : Inv R s) (hc : (s.cpu c).sched = .away i) {n : ℕ}
    (hpc : (s.proc i).pc = .exitLoop n) :
    (s.exitBody i n).initproc = s.initproc ∧ Effect s a (s.exitBody i n) := by
  have hrun : (s.proc i).state = .RUNNING :=
    (h.fits i).running (h.away hc).2.2.2 (by rw [hpc]; rfl)
  unfold St.exitBody
  split_ifs with hn
  · have halone : ∀ j n, (s.proc j).pc = .exitLoop n → j = i := fun j n hj =>
      h.alone hc (by rw [hpc]; rfl) (by rw [hj]; rfl) (by rw [hj]; rfl)
    obtain ⟨hinit, hhist, hnext⟩ := passOn_same s i ⟨n, hn⟩
    exact ⟨hinit, .within <| .exitPass i ⟨n, hn⟩ hpc halone rfl hhist hnext⟩
  · exact ⟨rfl, .within <| .exitEnd i (fun j hj => update_of_ne hj ..) n (not_lt.mp hn) hpc hrun
      (update_self ..) rfl rfl⟩

theorem schedNext_effect (h : Inv R s) (hs : s.schedNext c = some s') :
    s'.initproc = s.initproc ∧ Effect s a s' := by
  have hcpu := h.cpu c
  unfold St.schedNext at hs
  unfold CpuOk at hcpu
  rcases hq : (s.cpu c).sched with _ | n | p | p | p | p | p | p | ch | ch | _ <;>
    rw [hq] at hs hcpu <;> simp only at hs hcpu
  case loaded =>
    obtain rfl := Option.some.inj hs
    obtain ⟨-, -, -, hst, -⟩ := hcpu
    refine ⟨rfl, .one (P := { s.proc p with state := .RUNNING })
      ⟨⟨rfl, rfl, rfl, rfl, ?_, ?_, ?_, fun hw => absurd hw.1 nofun, id, id, id⟩,
        .fields rfl rfl nofun⟩ rfl rfl rfl⟩ <;> simp [hst]
  case ready =>
    obtain rfl := Option.some.inj hs
    obtain ⟨m, hm⟩ := exists_off hcpu.2.2.2.2
    have hok := (h.fits p).1
    rw [hm] at hok
    have hret := (Bool.and_eq_true_iff.mp hok).2
    have hres : (s.proc p).pc.resume = m := by rw [hm]; rfl
    refine ⟨rfl, .one (Calm.move hm (s.proc p).pc.resume ?_ ?_ ?_ ?_ ?_) rfl rfl rfl⟩ <;> rw [hres]
    · exact id
    · exact id
    · rintro n rfl
      cases hret
    · -- a thread that `sched` returns to holds no spin lock
      rw [Pc.sleepOn_of_lk (Pc.lk_of_returns hret)]
      exact nofun
    · rintro ch l rfl
      cases hret
  case waking =>
    obtain rfl := Option.some.inj hs
    exact ⟨rfl, .within <| .quiet (Calm.wakeup1 s.proc ch) rfl rfl⟩
  case scan =>
    split_ifs at hs <;> obtain rfl := Option.some.inj hs <;> exact ⟨rfl, .none rfl rfl rfl⟩
  case picked =>
    split at hs
    · cases hs
    · obtain rfl := Option.some.inj hs
      exact ⟨rfl, .none rfl rfl rfl⟩
  case idle | wakeAcquire | wakeRelease =>
    split_ifs at hs
    obtain rfl := Option.some.inj hs
    exact ⟨rfl, .none rfl rfl rfl⟩
  case back | cleared =>
    obtain rfl := Option.some.inj hs
    exact ⟨rfl, .none rfl rfl rfl⟩
  case away => cases hs

theorem next_effect (h : Inv R s) (hc : (s.cpu c).sched = .away i) (hs : s.next c i page = some s') :
    s'.initproc = s.initproc ∧ Effect s (c, .next page) s' := by
  have hok := (h.fits i).1
  have hst : (s.proc i).pc.resting = none → (s.proc i).state = .RUNNING :=
    (h.fits i).running (h.away hc).2.2.2
  unfold St.next at hs
  rcases hpc : (s.proc i).pc with lk | n | n | n | n | _ | np | np | np | np | _ | n | _ | _ | pid |
    ⟨ch, ret⟩ | ⟨ch, l⟩ | ⟨ch, l⟩ | ⟨ch, l⟩ | l | ret | _ <;>
    rw [hpc] at hs hok hst <;> simp only at hs
  case run | off | dead => cases hs
  case acquire | release =>
    split_ifs at hs
    obtain rfl := Option.some.inj hs
    refine ⟨rfl, .one (Calm.move hpc n id id ?_ id ?_) rfl rfl rfl⟩
    · rintro m rfl
      cases (Bool.and_eq_true_iff.mp hok).2
    · rintro ch l rfl
      cases (Bool.and_eq_true_iff.mp hok).2
  case sched =>
    split_ifs at hs
    obtain rfl := Option.some.inj hs
    exact ⟨rfl, .one (Calm.move hpc (.off n) id id (by simp) (by simp [Pc.sleepOn]) (by simp)) rfl rfl rfl⟩
  case allocproc =>
    obtain rfl := Option.some.inj hs
    exact allocproc_effect h ⟨hc, hpc, rfl⟩
  case exitLoop =>
    obtain rfl := Option.some.inj hs
    exact exitBody_effect h hc hpc
  case waitScan =>
    obtain rfl := Option.some.inj hs
    exact waitBody_effect h hc hpc
  case kill =>
    obtain rfl := Option.some.inj hs
    exact killBody_effect ⟨hc, hpc, rfl⟩
  case waitWoken =>
    obtain rfl := Option.some.inj hs
    exact ⟨rfl, .one (Calm.woken _ .waitScan rfl) rfl rfl rfl⟩
  case sleepWoken =>
    obtain rfl := Option.some.inj hs
    exact ⟨rfl, .one (Calm.woken _ (.release (.relock l)) rfl) rfl rfl rfl⟩
  case sleepSet =>
    obtain rfl := Option.some.inj hs
    refine ⟨rfl, .sleep ?_ (.set l hpc rfl) rfl rfl rfl⟩
    refine ⟨rfl, rfl, rfl, rfl, ?_, ?_, ?_, (fun hw => by cases hw.2), ?_, ?_, ?_⟩ <;>
      simp [hst rfl, Pc.forking, Pc.exiting]
  case yield =>
    obtain rfl := Option.some.inj hs
    refine ⟨rfl, .one (P := { s.proc i with
      state := .RUNNABLE, pc := .sched (.release ret) }) ?_ rfl rfl rfl⟩
    refine ⟨⟨rfl, rfl, rfl, rfl, ?_, ?_, ?_, (fun hw => by cases hw.1), ?_, ?_, by simp⟩,
      .out rfl (by simp) (by simp)⟩
    · simp [hst rfl]
    · simp [hst rfl]
    · simp [hst rfl]
    · rw [hpc]
      exact id
    · rw [hpc]
      exact id
  case sleepUnlock =>
    obtain rfl := Option.some.inj hs
    exact ⟨rfl, .sleep (Mild.goto _ (.sleepSet ch l) (by simp [Pc.forking]) (by simp [Pc.exiting])
      (by simp)) (.unlock l hpc rfl) rfl rfl rfl⟩
  case relock =>
    split_ifs at hs
    obtain rfl := Option.some.inj hs
    exact ⟨rfl, .one (Calm.plain _ (.run (some l)) rfl) rfl rfl rfl⟩
  case wakeup =>
    obtain rfl := Option.some.inj hs
    have hpc' : (wakeup1 s.proc ch i).pc = .wakeup ch ret := (Touched.wakeup1 s.proc ch i).pc.trans hpc
    refine ⟨rfl, .within <| .quiet (fun j => ?_) rfl rfl⟩
    exact (Calm.wakeup1 s.proc ch j).trans
      (calm_update (s := { s with proc := wakeup1 s.proc ch }) (Calm.move hpc' (.release ret) id id (by simp) id (by simp)) j)
  case exitWake =>
    -- the process itself runs, so waking does not touch it
    have hsleep : (s.proc i).state ≠ .SLEEPING := by
      rw [hst rfl]
      decide
    have hi : ∀ ch, wakeup1 s.proc ch i = s.proc i := fun ch => if_neg fun hw => hsleep hw.1
    rcases hpar : (s.proc i).parent with - | q <;> rw [hpar] at hs <;>
      obtain rfl := Option.some.inj hs
    · refine ⟨rfl, .within <| .exitWake i (fun j hj => ?_) hpc (update_self ..) ?_ rfl rfl⟩
      · rw [St.goto_of_ne hj]
        exact Calm.refl _
      · rw [hpar]
        rintro _ ⟨⟩
    · refine ⟨rfl, .within <| .exitWake i (fun j hj => ?_) hpc ?_ ?_ rfl rfl⟩ <;>
        simp only [St.goto, St.setProc]
      · rw [update_of_ne hj]
        exact Calm.wakeup1 s.proc _ j
      · rw [update_self, hi]
      · intro q' hq'
        obtain rfl := Option.some.inj (hpar.symm.trans hq')
        by_cases hqi : q = i
        · rw [hqi, update_self, hi]
          exact fun hw => hsleep hw.1
        · rw [update_of_ne hqi]
          exact waits_wakeup1 s.proc q q
  all_goals
    obtain ⟨he, hoff, -, -, hothers⟩ := h.filling hpc rfl
    have hne : i ≠ np := by
      rintro rfl
      rw [hpc] at hoff
      cases hoff
    -- the slot is not the one of a process further on in `fork`
    have hnot : ∀ n, n ≠ 3 → (Pc.forking (s.proc i).pc = some (n, np)) →
        ∀ j, (s.proc j).pc.forking ≠ some (3, np) := by
      intro n hn hi j hj
      by_cases hji : j = i
      · rw [hji, hi] at hj
        exact hn (Prod.mk.inj (Option.some.inj hj)).1
      · exact hothers j 3 hji hj
  case kalloc =>
    rcases page with - | k <;> simp only at hs
    · obtain rfl := Option.some.inj hs
      refine ⟨rfl, .drop i np (Or.inl ⟨hc, hpc, rfl⟩) (fun j hj => ?_) he.state none (s.proc np).pgdir St.setProc_self
        (hnot 0 (by decide) (by rw [hpc]; rfl)) rfl rfl⟩
      rw [St.setProc_of_ne hj]
      exact calm_update (Calm.plain _ (.run none) rfl) j
    · split_ifs at hs
      obtain rfl := Option.some.inj hs
      refine ⟨rfl, .within <| .quiet (fun j => ?_) rfl rfl⟩
      by_cases hj : j = i
      · subst hj
        rw [St.goto_self, St.setProc_of_ne hne]
        exact Calm.plain _ (.copyuvm np) rfl
      · rw [St.goto_of_ne hj]
        refine calm_update ?_ j
        exact ⟨⟨rfl, rfl, rfl, rfl, Iff.rfl, Iff.rfl, Iff.rfl, id, by simp [Pc.forking, Pc.forkret],
          by simp [Pc.exiting, Pc.forkret], by simp⟩, .out rfl (by simp) id⟩
  case copyuvm =>
    rcases page with - | d <;> simp only at hs
    · obtain rfl := Option.some.inj hs
      refine ⟨by simp [St.goto, St.setProc], .drop i np (Or.inr ⟨hc, hpc, rfl⟩) (fun j hj => ?_) he.state none none
        St.setProc_self (hnot 1 (by decide) (by rw [hpc]; rfl)) (by simp [St.goto, St.setProc])
        (by simp [St.goto, St.setProc])⟩
      rw [St.setProc_of_ne hj]
      by_cases hji : j = i
      · subst hji
        rw [St.goto_self, St.kfree_proc]
        exact Calm.plain _ (.run none) rfl
      · rw [St.goto_of_ne hji, St.kfree_proc]
        exact Calm.refl _
    · split_ifs at hs
      obtain rfl := Option.some.inj hs
      refine ⟨rfl, .within <| .quiet (fun j => ?_) rfl rfl⟩
      by_cases hj : j = i
      · subst hj
        rw [St.goto_self, St.setProc_of_ne hne]
        exact Calm.plain _ (.setParent np) rfl
      · rw [St.goto_of_ne hj]
        refine calm_update ?_ j
        exact ⟨⟨rfl, rfl, rfl, rfl, Iff.rfl, Iff.rfl, Iff.rfl, id, id, id, id⟩, .fields rfl rfl id⟩
  case setParent =>
    obtain rfl := Option.some.inj hs
    refine ⟨rfl, .within <| .adopt i np (fun j hj hji => ?_) he.state (hst rfl) hpc ?_ ?_ rfl rfl⟩
    · rw [St.goto_of_ne hji, St.setProc_of_ne hj]
    · rw [St.goto_of_ne hne.symm, St.setProc_self]
    · rw [St.goto_self, St.setProc_of_ne hne]
  case setRunnable =>
    obtain rfl := Option.some.inj hs
    refine ⟨rfl, .within <| .ready i np (fun j hj => ?_) he.state (by rw [hpc]; rfl) St.setProc_self rfl rfl⟩
    rw [St.setProc_of_ne hj]
    exact calm_update (Calm.plain _ (.release (.run none)) rfl) j

/-- **Every step is in the list.** -/
theorem step_effect (h : Inv R s) (hs : step s a = some s') :
    s'.initproc = s.initproc ∧ Effect s a s' := by
  obtain ⟨c, go⟩ := a
  unfold step at hs
  split at hs
  · rename_i i hc
    split at hs
    · rename_i hgo
      rw [show go = .call _ from hgo]
      split at hs
      · rename_i lk hpc
        exact call_effect h hc hpc hs
      · cases hs
    · rename_i w _
      split_ifs at hs
      obtain rfl := Option.some.inj hs
      refine ⟨rfl, .one (Calm.move rfl ((s.proc i).pc.handler w) ?_ ?_ ?_ ?_ ?_) rfl rfl rfl⟩ <;>
        rcases w with - | ch
      all_goals first
      | exact id
      | exact nofun
    · rename_i hgo
      rw [show go = .next _ from hgo]
      exact next_effect h hc hs
  · split at hs
    · obtain rfl := Option.some.inj hs
      exact ⟨rfl, .none rfl rfl rfl⟩
    · exact schedNext_effect h hs
    · cases hs
  · split at hs
    · exact schedNext_effect h hs
    · cases hs

/-! ### Slots that keep their process -/

/-- The slot keeps its pid, its mark and its count, and if its process has ended the events
`es` say so. -/
structure Stays (es : List (Ev N)) (P P' : Proc N) : Prop where
  pid : P'.pid = P.pid
  killed : P'.killed = P.killed
  total : P'.totalSysCall = P.totalSysCall
  unused : P'.state = .UNUSED ↔ P.state = .UNUSED
  zombie : P'.state = .ZOMBIE → P.state = .ZOMBIE ∨ .exited P'.pid ∈ es

theorem Mild.stays (h : Mild P P') (es : List (Ev N)) : Stays es P P' :=
  ⟨h.pid, h.killed, h.total, h.unused, fun hz => Or.inl (h.zombie.mp hz)⟩

/-- The events of a step in which every slot keeps its process. -/
def Ev.plain : Ev N → Bool
  | .exited _ | .waitFailed _ | .killFailed _ => true
  | _ => false

theorem Within.stays (h : Within s a s') : ∃ es, s'.hist = es ++ s.hist ∧
    (∀ e ∈ es, e.plain = true) ∧ s'.nextpid = s.nextpid ∧
      ∀ j, Stays es (s.proc j) (s'.proc j) := by
  -- one slot and the others
  have hslots : ∀ {es} {k : Fin N}, Stays es (s.proc k) (s'.proc k) →
      (∀ j, j ≠ k → Stays es (s.proc j) (s'.proc j)) → ∀ j, Stays es (s.proc j) (s'.proc j) := by
    intro es k hk hothers j
    by_cases hj : j = k
    · exact hj ▸ hk
    · exact hothers j hj
  have hsame : ∀ {es j}, s'.proc j = s.proc j → Stays es (s.proc j) (s'.proc j) := fun he =>
    he ▸ (Mild.refl _).stays _
  cases h with
  | quiet hproc hhist hnext => exact ⟨[], hhist, nofun, hnext, fun j => (hproc j).toMild.stays _⟩
  | sleep ch i hothers hsleep hmild hhist hnext =>
      exact ⟨[], hhist, nofun, hnext, hslots (hmild.stays _) fun j hj => hsame (hothers j hj)⟩
  | adopt i np hothers hst hrun hpc hproc hi hhist hnext =>
      refine ⟨[], hhist, nofun, hnext, hslots (k := np) ?_ fun j hj => ?_⟩
      · rw [hproc]
        exact ⟨rfl, rfl, rfl, Iff.rfl, Or.inl⟩
      · by_cases hji : j = i
        · rw [hji, hi]
          exact ⟨rfl, rfl, rfl, Iff.rfl, Or.inl⟩
        · exact hsame (hothers j hj hji)
  | ready i np hothers hst hfork hproc hhist hnext =>
      refine ⟨[], hhist, nofun, hnext, hslots ?_ fun j hj => (hothers j hj).toMild.stays _⟩
      rw [hproc]
      exact ⟨rfl, rfl, rfl, by simp [hst], nofun⟩
  | exitCall i hothers hne hproc hhist hnext | exitWake i hothers hpc hproc hwoken hhist hnext =>
      refine ⟨[], hhist, nofun, hnext, hslots ?_ fun j hj => (hothers j hj).toMild.stays _⟩
      rw [hproc]
      exact ⟨rfl, rfl, rfl, Iff.rfl, Or.inl⟩
  | exitPass i p hpc halone hproc hhist hnext =>
      have hcalm := passOn_calm s i p
      refine ⟨[], hhist, nofun, hnext, hslots (k := i) ?_ fun j hj => ?_⟩ <;> rw [hproc]
      · rw [St.goto_self]
        exact ⟨(hcalm i).pid, (hcalm i).killed, (hcalm i).total, (hcalm i).unused,
          fun hz => Or.inl ((hcalm i).zombie.mp hz)⟩
      · rw [St.goto_of_ne hj]
        exact ⟨(hcalm j).pid, (hcalm j).killed, (hcalm j).total, (hcalm j).unused,
          fun hz => Or.inl ((hcalm j).zombie.mp hz)⟩
  | exitEnd i hothers n hn hpc hrun hproc hhist hnext =>
      refine ⟨[_], hhist, by simp [Ev.plain], hnext, hslots (k := i) ?_ fun j hj =>
        hsame (hothers j hj)⟩
      rw [hproc]
      exact ⟨rfl, rfl, rfl, by simp [hrun], fun _ => Or.inr (List.mem_singleton_self _)⟩
  | waitSleep i hothers hrun hkids halone hproc hhist hnext =>
      refine ⟨[], hhist, nofun, hnext, hslots (k := i) ?_ fun j hj => hsame (hothers j hj)⟩
      rw [hproc]
      exact ⟨rfl, rfl, rfl, by simp [hrun], nofun⟩
  | waitFail i hproc hkids hhist hnext | killFail pid hproc hhist hnext =>
      exact ⟨[_], hhist, by simp [Ev.plain], hnext, fun j => (hproc j).toMild.stays _⟩

/-- What such a step notes. -/
theorem Within.noted (h : Within s a s') {e : Ev N} (hhist : s'.hist = e :: s.hist) :
    e.plain = true := by
  obtain ⟨es, hes, hplain, -⟩ := h.stays
  rw [hes] at hhist
  obtain rfl : es = [e] := List.append_cancel_right hhist
  exact hplain e (List.mem_singleton_self e)

end Nunix.Sched
