/-
Nunix/Sched.lean

Processes, CPUs and `ptable.lock` (proc.c, vm.c's `switchuvm` and `switchkvm`, and the
parts of trap.c, syscall.c and sysproc.c that touch the process table).

A CPU executes its scheduler or the kernel thread of a process.  A thread is given by
where it stands (`Pc`); the place of a process that is switched out is the context saved
on its kernel stack.  Everything between two places is one step: taking or releasing a
lock, the body of a critical section of `ptable.lock`, a write made outside the lock, a
switch of stacks.  The loops of `wakeup1`, `kill`, `allocproc` and `wait` run inside one
critical section; the loop of `exit` is taken slot by slot, and so is the scheduler's,
which gives up the CPU in the middle.

What the code keeps no record of, and the statements speak about, is written down in
`St.hist`.
-/
import Nunix.Params
import Nunix.Runs

namespace Nunix.Sched

open Function (update update_of_ne update_self)

/-! ### The process table -/

/-- `enum procstate`. -/
inductive ProcState
  | UNUSED | EMBRYO | SLEEPING | RUNNABLE | RUNNING | ZOMBIE
  deriving DecidableEq, Repr

instance : NeZero NPROC := ⟨by decide⟩

-- the number of slots; the code has `NPROC`
variable {N : ℕ}

/-- What a process sleeps on: a process (in `wait`) or another kernel object. -/
inductive Chan (N : ℕ)
  | proc (p : Fin N)
  | other (addr : ℕ)
  deriving DecidableEq, Repr

/-- Where the kernel thread of a process stands. -/
inductive Pc (N : ℕ)
  /-- in user space, or in kernel code that holds no spin lock but `lk` -/
  | run (lk : Option ℕ)
  /-- about to acquire `ptable.lock` and to go on at `next` -/
  | acquire (next : Pc N)
  /-- about to release `ptable.lock` -/
  | release (next : Pc N)
  /-- in `sched`, about to switch to the scheduler -/
  | sched (next : Pc N)
  /-- switched out -/
  | off (next : Pc N)
  /-- `allocproc`: search for a slot -/
  | allocproc
  /-- `allocproc`: allocate the kernel stack of `np` -/
  | kalloc (np : Fin N)
  /-- `fork`: copy the address space -/
  | copyuvm (np : Fin N)
  /-- `fork`: `np->parent = proc` and the other fields -/
  | setParent (np : Fin N)
  /-- `fork`: `np->state = RUNNABLE` -/
  | setRunnable (np : Fin N)
  /-- `exit`: wake the parent -/
  | exitWake
  /-- `exit`: pass on the children from slot `n` on -/
  | exitLoop (n : ℕ)
  /-- `wait`: scan the table -/
  | waitScan
  /-- `wait`: back from `sched` -/
  | waitWoken
  /-- `kill`: search for `pid` -/
  | kill (pid : Int32)
  /-- `wakeup`: wake the sleepers, then go on at `ret` -/
  | wakeup (ch : Chan N) (ret : Pc N)
  /-- `sleep`: release `lk` -/
  | sleepUnlock (ch lk : ℕ)
  /-- `sleep`: write `chan` and `state` -/
  | sleepSet (ch lk : ℕ)
  /-- `sleep`: back from `sched` -/
  | sleepWoken (ch lk : ℕ)
  /-- `sleep`: acquire `lk` again -/
  | relock (lk : ℕ)
  /-- `yield`, called from `trap` at `ret` -/
  | yield (ret : Pc N)
  /-- `exit`: `sched` has returned, `panic("zombie exit")` -/
  | dead
  deriving DecidableEq, Repr

/-- Where a new process starts: `forkret` releases `ptable.lock`. -/
def Pc.forkret : Pc N := .release (.run none)

/-- `struct proc`.  `pc` is the saved context. -/
structure Proc (N : ℕ) where
  state : ProcState := .UNUSED
  pid : Int32 := 0
  parent : Option (Fin N) := none
  chan : Option (Chan N) := none
  killed : Bool := false
  kstack : Option ℕ := none
  pgdir : Option ℕ := none
  traceFlag : Bool := false
  totalSysCall : Int32 := 0
  pc : Pc N := .off .forkret

/-- Where the scheduler of a CPU stands. -/
inductive SchedPc (N : ℕ)
  /-- about to acquire `ptable.lock`, interrupts enabled -/
  | idle
  /-- in the loop, at slot `n` -/
  | scan (n : ℕ)
  /-- `proc = p` done -/
  | picked (p : Fin N)
  /-- `switchuvm(p)` done -/
  | loaded (p : Fin N)
  /-- `p->state = RUNNING` done -/
  | ready (p : Fin N)
  /-- in `swtch`: the CPU executes process `p` -/
  | away (p : Fin N)
  /-- `swtch` has returned -/
  | back (p : Fin N)
  /-- `switchkvm()` done -/
  | cleared (p : Fin N)
  /-- an interrupt handler has called `wakeup` -/
  | wakeAcquire (ch : Chan N)
  | waking (ch : Chan N)
  | wakeRelease
  deriving DecidableEq, Repr

/-- `struct cpu`.  `stack` is the page the stack pointer points into, `none` for the
scheduler's own stack; `cr3` is the page directory loaded, `none` for `kpgdir`. -/
structure Cpu (N : ℕ) where
  proc : Option (Fin N) := none
  sched : SchedPc N := .idle
  stack : Option ℕ := none
  cr3 : Option ℕ := none

/-- What happened. -/
inductive Ev (N : ℕ)
  /-- `allocproc` gave slot `p` to a new process -/
  | created (p : Fin N) (pid : Int32)
  /-- a process became a zombie -/
  | exited (pid : Int32)
  /-- `wait` in process `q` returned `pid` -/
  | reaped (q : Fin N) (pid : Int32)
  /-- `wait` in process `q` returned -1 -/
  | waitFailed (q : Fin N)
  /-- `kill(pid)` returned 0 -/
  | killed (pid : Int32)
  /-- `kill(pid)` returned -1 -/
  | killFailed (pid : Int32)
  /-- `trap` set the flag of process `p` -/
  | fault (p : Fin N)
  /-- `syscall` dispatched a valid call of process `p`, with its `traceFlag` as it was -/
  | dispatched (p : Fin N) (flag : Bool)
  /-- `trace(0)` in process `p` returned `ret` -/
  | traced (p : Fin N) (ret : Int32)
  deriving DecidableEq, Repr

/-- The state of the machine.  `lock` and `locks` give the CPU that holds `ptable.lock`
and every other spin lock, `used` the pages `kalloc` has given out. -/
structure St (N : ℕ) where
  proc : Fin N → Proc N
  cpu : ℕ → Cpu N
  initproc : Fin N
  nextpid : Int32
  lock : Option ℕ
  locks : ℕ → Option ℕ
  used : ℕ → Bool
  hist : List (Ev N)

namespace St

def setProc (s : St N) (i : Fin N) (P : Proc N) : St N :=
  { s with proc := update s.proc i P }

/-- The thread of process `i` goes on at `pc`. -/
def goto (s : St N) (i : Fin N) (pc : Pc N) : St N := s.setProc i { s.proc i with pc := pc }

def setCpu (s : St N) (c : ℕ) (C : Cpu N) : St N :=
  { s with cpu := update s.cpu c C }

def setSched (s : St N) (c : ℕ) (q : SchedPc N) : St N := s.setCpu c { s.cpu c with sched := q }

def note (s : St N) (e : Ev N) : St N := { s with hist := e :: s.hist }

/-- `kfree`. -/
def kfree (s : St N) (page : Option ℕ) : St N :=
  match page with
  | none => s
  | some k => { s with used := update s.used k false }

/-- `kalloc` returns `k`. -/
def take (s : St N) (k : ℕ) : St N := { s with used := update s.used k true }

variable {s : St N} {i j : Fin N} {P : Proc N} {pc : Pc N}

@[simp] theorem setProc_self : (s.setProc i P).proc i = P := update_self ..

theorem setProc_of_ne (h : j ≠ i) : (s.setProc i P).proc j = s.proc j :=
  update_of_ne h ..

@[simp] theorem goto_self : (s.goto i pc).proc i = { s.proc i with pc := pc } :=
  update_self ..

theorem goto_of_ne (h : j ≠ i) : (s.goto i pc).proc j = s.proc j := update_of_ne h ..

@[simp] theorem kfree_proc (s : St N) (page : Option ℕ) : (s.kfree page).proc = s.proc := by
  cases page <;> rfl

@[simp] theorem kfree_cpu (s : St N) (page : Option ℕ) : (s.kfree page).cpu = s.cpu := by
  cases page <;> rfl

@[simp] theorem kfree_hist (s : St N) (page : Option ℕ) : (s.kfree page).hist = s.hist := by
  cases page <;> rfl

@[simp] theorem kfree_nextpid (s : St N) (page : Option ℕ) :
    (s.kfree page).nextpid = s.nextpid := by
  cases page <;> rfl

@[simp] theorem kfree_initproc (s : St N) (page : Option ℕ) :
    (s.kfree page).initproc = s.initproc := by
  cases page <;> rfl

end St

/-! ### Bodies of critical sections -/

/-- `wakeup1`. -/
def wakeup1 (t : Fin N → Proc N) (ch : Chan N) : Fin N → Proc N := fun p =>
  if (t p).state = .SLEEPING ∧ (t p).chan = some ch then { t p with state := .RUNNABLE } else t p

/-- The search of `allocproc`. -/
def findUnused (t : Fin N → Proc N) : Option (Fin N) :=
  (List.finRange N).find? fun p => (t p).state = .UNUSED

/-- The search of `kill`. -/
def findPid (t : Fin N → Proc N) (pid : Int32) : Option (Fin N) :=
  (List.finRange N).find? fun p => (t p).pid = pid

/-- The scan of `wait` by process `me`: the first zombie child, or whether it has kids. -/
def waitScan (t : Fin N → Proc N) (me : Fin N) : List (Fin N) → Bool → Fin N ⊕ Bool
  | [], havekids => .inr havekids
  | p :: ps, havekids =>
      if (t p).parent ≠ some me then waitScan t me ps havekids
      else if (t p).state = .ZOMBIE then .inl p
      else waitScan t me ps true

namespace St

variable (s : St N) (c : ℕ) (i : Fin N)

/-- `allocproc` up to the release of `ptable.lock`. -/
def allocproc : St N :=
  match findUnused s.proc with
  | none => s.goto i (.release (.run none))
  | some np =>
      { (s.setProc np { s.proc np with state := .EMBRYO, pid := s.nextpid }) with
        nextpid := s.nextpid + 1 }.note (.created np s.nextpid) |>.goto i (.release (.kalloc np))

/-- `kill` up to the release of `ptable.lock`. -/
def killBody (pid : Int32) : St N :=
  match findPid s.proc pid with
  | none => (s.note (.killFailed pid)).goto i (.release (.run none))
  | some p =>
      let P := s.proc p
      ((s.setProc p { P with
          killed := true
          state := if P.state = .SLEEPING then .RUNNABLE else P.state }).note (.killed pid)).goto i
        (.release (.run none))

/-- One round of `wait`. -/
def waitBody : St N :=
  match Sched.waitScan s.proc i (List.finRange N) false with
  | .inl p =>
      let P := s.proc p
      ((((s.kfree P.kstack).kfree P.pgdir).setProc p { P with
          kstack := none, state := .UNUSED, pid := 0, parent := none, killed := false }).note
        (.reaped i P.pid)).goto i (.release (.run none))
  | .inr havekids =>
      if !havekids || (s.proc i).killed then
        (s.note (.waitFailed i)).goto i (.release (.run none))
      else
        s.setProc i { s.proc i with
          chan := some (.proc i), state := .SLEEPING, pc := .sched .waitWoken }

/-- One slot of the loop of `exit`: a child is passed on to init. -/
def passOn (p : Fin N) : St N :=
  if (s.proc p).parent = some i then
    let t := s.setProc p { s.proc p with parent := some s.initproc }
    if (s.proc p).state = .ZOMBIE then { t with proc := wakeup1 t.proc (.proc s.initproc) } else t
  else s

/-- `exit` from slot `n` of its loop on. -/
def exitBody (n : ℕ) : St N :=
  if h : n < N then (s.passOn i ⟨n, h⟩).goto i (.exitLoop (n + 1))
  else
    (s.note (.exited (s.proc i).pid)).setProc i
      { s.proc i with state := .ZOMBIE, pc := .sched .dead }

end St

/-! ### System calls and tracing (syscall.c, sysproc.c) -/

/-- Number of `trace`. -/
def SYS_trace : Int32 := 22

/-- `NELEM(syscalls)`; every entry from 1 on is filled. -/
def NSYSCALLS : Int32 := 23

/-- `sys_trace(x)`: the new fields and the value returned. -/
def Proc.sysTrace (P : Proc N) (x : Int32) : Proc N × Int32 :=
  if x ≠ 0 then ({ P with traceFlag := true }, P.totalSysCall)
  else ({ P with traceFlag := false, totalSysCall := 0 }, P.totalSysCall)

/-- The dispatcher counts the call. -/
def Proc.count (P : Proc N) : Proc N :=
  if P.traceFlag then { P with totalSysCall := P.totalSysCall + 1 } else P

namespace St

variable (s : St N) (c : ℕ) (i : Fin N)

/-- `syscall` of process `i` up to the handler, and the handler of `trace`; what another
handler does are steps of their own. -/
def syscall (num x : Int32) : St N :=
  if 0 < num ∧ num < NSYSCALLS then
    let P := (s.proc i).count
    let s' := (s.setProc i P).note (.dispatched i P.traceFlag)
    if num = SYS_trace then
      let r := P.sysTrace x
      if x = 0 then (s'.setProc i r.1).note (.traced i r.2) else s'.setProc i r.1
    else s'
  else s

end St

/-! ### Steps -/

/-- `ptable.lock` is held at this place. -/
def Pc.locked : Pc N → Bool
  | .run _ | .acquire _ | .kalloc _ | .copyuvm _ | .setParent _ | .relock _ => false
  | _ => true

/-- The other spin lock held at this place. -/
def Pc.lk : Pc N → Option ℕ
  | .run lk => lk
  | .acquire n | .release n | .wakeup _ n | .yield n => n.lk
  | .sleepUnlock _ lk => some lk
  | _ => none

/-- Where `swtch` goes on. -/
def Pc.resume : Pc N → Pc N
  | .off n => n
  | pc => pc

/-- What a process does next of its own accord, where it holds no lock or only `lk`. -/
inductive Call
  | fork
  | exit
  | wait
  | kill (pid : Int32)
  | wakeup (ch : ℕ)
  | sleep (ch : ℕ)
  | acquire (lk : ℕ)
  | release
  /-- a fault in user space, `proc->killed = 1` in `trap` -/
  | fault
  | syscall (num x : Int32)
  deriving DecidableEq, Repr

namespace St

variable (s : St N) (c : ℕ) (i : Fin N)

/-- Process `i`, on CPU `c` and holding `lk`, makes a call. -/
def call (k : Call) (lk : Option ℕ) : Option (St N) :=
  match k, lk with
  | .fork, none => some (s.goto i (.acquire .allocproc))
  -- `panic("init exiting")`
  | .exit, none => if i = s.initproc then none else some (s.goto i (.acquire .exitWake))
  | .wait, none => some (s.goto i (.acquire .waitScan))
  | .kill pid, none => some (s.goto i (.acquire (.kill pid)))
  | .wakeup ch, lk => some (s.goto i (.acquire (.wakeup (.other ch) (.run lk))))
  | .sleep ch, some lk => some (s.goto i (.acquire (.sleepUnlock ch lk)))
  | .acquire l, none =>
      if s.locks l = none then
        some { s.goto i (.run (some l)) with locks := update s.locks l (some c) }
      else none
  | .release, some l =>
      some { s.goto i (.run none) with locks := update s.locks l none }
  | .fault, none =>
      some ((s.setProc i { s.proc i with killed := true }).note (.fault i))
  | .syscall num x, none => some (s.syscall i num x)
  | _, _ => none

/-- The thread of process `i`, on CPU `c`, goes on.  `page` is what `kalloc` or `copyuvm`
returns. -/
def next (page : Option ℕ) : Option (St N) :=
  match (s.proc i).pc with
  | .acquire n => if s.lock = none then some { s.goto i n with lock := some c } else none
  -- `panic("release")` if the CPU does not hold the lock
  | .release n => if s.lock = some c then some { s.goto i n with lock := none } else none
  -- `panic("sched ptable.lock")`, `panic("sched running")`
  | .sched n =>
      if s.lock = some c ∧ (s.proc i).state ≠ .RUNNING then
        some ((s.goto i (.off n)).setCpu c { s.cpu c with sched := .back i, stack := none })
      else none
  | .allocproc => some (s.allocproc i)
  | .kalloc np =>
      match page with
      | none =>
          some ((s.goto i (.run none)).setProc np
            { s.proc np with kstack := none, state := .UNUSED })
      | some k =>
          if s.used k then none
          else some (((s.take k).setProc np { s.proc np with
            kstack := some k, pc := .off .forkret, traceFlag := false }).goto i (.copyuvm np))
  | .copyuvm np =>
      match page with
      | none =>
          some (((s.kfree (s.proc np).kstack).goto i (.run none)).setProc np
            { s.proc np with pgdir := none, kstack := none, state := .UNUSED })
      | some d =>
          if s.used d then none
          else some (((s.take d).setProc np { s.proc np with pgdir := some d }).goto i
            (.setParent np))
  | .setParent np =>
      some ((s.setProc np { s.proc np with parent := some i }).goto i
        (.acquire (.setRunnable np)))
  | .setRunnable np =>
      some ((s.goto i (.release (.run none))).setProc np { s.proc np with state := .RUNNABLE })
  | .exitWake =>
      -- nobody sleeps on a null channel
      some (({ s with proc := match (s.proc i).parent with
        | none => s.proc
        | some q => wakeup1 s.proc (.proc q) }).goto i (.exitLoop 0))
  | .exitLoop n => some (s.exitBody i n)
  | .waitScan => some (s.waitBody i)
  | .waitWoken => some (s.setProc i { s.proc i with chan := none, pc := .waitScan })
  | .kill pid => some (s.killBody i pid)
  | .wakeup ch ret => some (({ s with proc := wakeup1 s.proc ch }).goto i (.release ret))
  | .sleepUnlock ch l =>
      some { s.goto i (.sleepSet ch l) with locks := update s.locks l none }
  | .sleepSet ch l =>
      some (s.setProc i { s.proc i with
        chan := some (.other ch), state := .SLEEPING, pc := .sched (.sleepWoken ch l) })
  | .sleepWoken _ l =>
      some (s.setProc i { s.proc i with chan := none, pc := .release (.relock l) })
  | .relock l =>
      if s.locks l = none then
        some { s.goto i (.run (some l)) with locks := update s.locks l (some c) }
      else none
  | .yield ret =>
      some (s.setProc i { s.proc i with state := .RUNNABLE, pc := .sched (.release ret) })
  -- `panic("zombie exit")`; a thread that is switched out does nothing
  | .run _ | .off _ | .dead => none

/-- The scheduler of CPU `c` goes on. -/
def schedNext : Option (St N) :=
  match (s.cpu c).sched with
  | .idle => if s.lock = none then some { s.setSched c (.scan 0) with lock := some c } else none
  | .scan n =>
      if h : n < N then
        if (s.proc ⟨n, h⟩).state ≠ .RUNNABLE then some (s.setSched c (.scan (n + 1)))
        else some (s.setCpu c { s.cpu c with proc := some ⟨n, h⟩, sched := .picked ⟨n, h⟩ })
      else if s.lock = some c then some { s.setSched c .idle with lock := none }
      else none
  -- `switchuvm`; `panic("switchuvm: no pgdir")`
  | .picked p =>
      match (s.proc p).pgdir with
      | none => none
      | some d => some (s.setCpu c { s.cpu c with cr3 := some d, sched := .loaded p })
  | .loaded p =>
      some ((s.setProc p { s.proc p with state := .RUNNING }).setSched c (.ready p))
  -- `swtch`
  | .ready p =>
      some ((s.goto p (s.proc p).pc.resume).setCpu c
        { s.cpu c with stack := (s.proc p).kstack, sched := .away p })
  -- `switchkvm`
  | .back p => some (s.setCpu c { s.cpu c with cr3 := none, sched := .cleared p })
  | .cleared p => some (s.setCpu c { s.cpu c with proc := none, sched := .scan (p + 1) })
  | .wakeAcquire ch =>
      if s.lock = none then some { s.setSched c (.waking ch) with lock := some c } else none
  | .waking ch => some ({ s with proc := wakeup1 s.proc ch }.setSched c .wakeRelease)
  | .wakeRelease =>
      if s.lock = some c then some { s.setSched c .idle with lock := none } else none
  | .away _ => none

end St

/-- What happens on a CPU. -/
inductive Go
  | call (k : Call)
  /-- an interrupt: the timer's, which yields, or one whose handler wakes a channel -/
  | intr (wake : Option ℕ)
  | next (page : Option ℕ)
  deriving DecidableEq, Repr

/-- Interrupts are off where a spin lock is held. -/
def Pc.interruptible (pc : Pc N) : Bool := !pc.locked && pc.lk.isNone

/-- Where an interrupt at `pc` takes the thread. -/
def Pc.handler (pc : Pc N) : Option ℕ → Pc N
  | none => .acquire (.yield pc)
  | some ch => .acquire (.wakeup (.other ch) pc)

/-- One step of CPU `a.1`. -/
def step (s : St N) (a : ℕ × Go) : Option (St N) :=
  match (s.cpu a.1).sched with
  | .away i =>
      match a.2 with
      | .call k =>
          match (s.proc i).pc with
          | .run lk => s.call a.1 i k lk
          | _ => none
      | .intr w =>
          if (s.proc i).pc.interruptible then some (s.goto i ((s.proc i).pc.handler w)) else none
      | .next page => s.next a.1 i page
  | .idle =>
      match a.2 with
      | .intr (some ch) => some (s.setSched a.1 (.wakeAcquire (.other ch)))
      | .next _ => s.schedNext a.1
      | _ => none
  | _ =>
      match a.2 with
      | .next _ => s.schedNext a.1
      | _ => none

/-- After `userinit`, when the CPUs enter their schedulers. -/
def boot [NeZero N] : St N where
  proc := update (fun _ => {}) 0
    { state := .RUNNABLE, pid := 1, kstack := some 0, pgdir := some 1 }
  cpu := fun _ => {}
  initproc := 0
  nextpid := 2
  lock := none
  locks := fun _ => none
  used := fun k => k < 2
  hist := [.created 0 1]

end Nunix.Sched
