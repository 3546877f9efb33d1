/-
Nunix/Pipe.lean

Pipes (pipe.c), with `sleep`, `wakeup` and `kill` (proc.c) as far as they concern
a pipe.

Any number of processes run `pipewrite`, `piperead` and `pipeclose` on one pipe, one
instruction at a time (`Instr`): taking and dropping `p->lock`, a test, a wakeup, the
copy of one byte.  `sleep` is three instructions, as it takes `ptable.lock` before it
drops `p->lock` and holds it until the process is SLEEPING; `wakeup` and `kill` need
`ptable.lock` and are one step each.

Two histories are kept beside the state: the bytes `stored` in the buffer and the
bytes `taken` out of it, each in the order in which they were copied.
-/
import Nunix.Mutex
import Nunix.RingBuf
import Nunix.Runs

namespace Nunix.Pipe

open Runs

/-! ### The model -/

/-- Bytes in the buffer of a pipe. -/
def PIPESIZE : ℕ := 512

/-- The channels processes sleep on. -/
inductive Chan
  | nread
  | nwrite
  deriving DecidableEq

/-- Where a call of `sleep` stands. -/
inductive SleepAt
  /-- Before `acquire(&ptable.lock)`. -/
  | table
  /-- Before `release(lk)`. -/
  | unlock
  /-- Before `proc->state = SLEEPING` and `sched`. -/
  | park
  /-- SLEEPING. -/
  | asleep
  /-- RUNNABLE again, before `acquire(lk)`. -/
  | woken
  deriving DecidableEq

/-- Where a process stands.  `i` counts the bytes it has copied. -/
inductive Pc
  | idle
  /-- `pipewrite(p, addr, n)`. -/
  | wAcquire (addr : ℕ → UInt8) (n : ℤ)
  | wLoop (addr : ℕ → UInt8) (n : ℤ) (i : ℕ)
  | wFull (addr : ℕ → UInt8) (n : ℤ) (i : ℕ)
  | wCheck (addr : ℕ → UInt8) (n : ℤ) (i : ℕ)
  | wWake (addr : ℕ → UInt8) (n : ℤ) (i : ℕ)
  | wSleep (st : SleepAt) (addr : ℕ → UInt8) (n : ℤ) (i : ℕ)
  | wStore (addr : ℕ → UInt8) (n : ℤ) (i : ℕ)
  | wDone
  /-- Before the release and the return, of `n` or of -1. -/
  | wExit
  | wFail
  /-- `piperead(p, addr, n)`. -/
  | rAcquire (n : ℤ)
  | rEmpty (n : ℤ)
  | rKilled (n : ℤ)
  | rSleep (st : SleepAt) (n : ℤ)
  | rLoop (n : ℤ) (i : ℕ)
  | rTest (n : ℤ) (i : ℕ)
  | rCopy (n : ℤ) (i : ℕ)
  | rDone
  | rExit
  /-- `pipeclose(p, writable)`. -/
  | cAcquire (writable : Bool)
  | cSet (writable : Bool)
  | cWake (writable : Bool)
  | cExit

/-- A pipe and the processes that use it. -/
structure St (P : Type*) where
  data : ℕ → UInt8
  nread : UInt32
  nwrite : UInt32
  readopen : Bool
  writeopen : Bool
  /-- Who holds `p->lock` and `ptable.lock`. -/
  lock : Option P
  table : Option P
  pc : P → Pc
  killed : P → Bool
  stored : List UInt8
  taken : List UInt8

/-- What a process does next. -/
inductive Instr
  /-- Nothing: it runs no call, or is SLEEPING. -/
  | wait
  | acquire (next : Pc)
  | release (next : Pc)
  | goto (next : Pc)
  | wakeup (c : Chan) (next : Pc)
  | lockTable (next : Pc)
  | park (next : Pc)
  | store (b : UInt8) (next : Pc)
  | copy (next : Pc)
  | close (writable : Bool) (next : Pc)

variable {P : Type*}

/-- The buffer is full. -/
def St.full (s : St P) : Prop := s.nwrite = s.nread + UInt32.ofNat PIPESIZE

/-- The buffer is empty. -/
def St.empty (s : St P) : Prop := s.nread = s.nwrite

instance (s : St P) : Decidable s.full := inferInstanceAs (Decidable (_ = _))

instance (s : St P) : Decidable s.empty := inferInstanceAs (Decidable (_ = _))

/-- The next instruction of process `p`. -/
def fetch (s : St P) (p : P) : Instr :=
  match s.pc p with
  | .idle => .wait
  | .wAcquire addr n => .acquire (.wLoop addr n 0)
  | .wLoop addr n i => .goto (if (i : ℤ) < n then .wFull addr n i else .wDone)
  | .wFull addr n i => .goto (if s.full then .wCheck addr n i else .wStore addr n i)
  | .wCheck addr n i =>
      .goto (if s.readopen = false ∨ s.killed p = true then .wFail else .wWake addr n i)
  | .wWake addr n i => .wakeup .nread (.wSleep .table addr n i)
  | .wSleep .table addr n i => .lockTable (.wSleep .unlock addr n i)
  | .wSleep .unlock addr n i => .release (.wSleep .park addr n i)
  | .wSleep .park addr n i => .park (.wSleep .asleep addr n i)
  | .wSleep .asleep .. => .wait
  | .wSleep .woken addr n i => .acquire (.wFull addr n i)
  | .wStore addr n i => .store (addr i) (.wLoop addr n (i + 1))
  | .wDone => .wakeup .nread .wExit
  | .wExit | .wFail => .release .idle
  | .rAcquire n => .acquire (.rEmpty n)
  | .rEmpty n => .goto (if s.empty ∧ s.writeopen = true then .rKilled n else .rLoop n 0)
  | .rKilled n => .goto (if s.killed p = true then .rExit else .rSleep .table n)
  | .rSleep .table n => .lockTable (.rSleep .unlock n)
  | .rSleep .unlock n => .release (.rSleep .park n)
  | .rSleep .park n => .park (.rSleep .asleep n)
  | .rSleep .asleep _ => .wait
  | .rSleep .woken n => .acquire (.rEmpty n)
  | .rLoop n i => .goto (if (i : ℤ) < n then .rTest n i else .rDone)
  | .rTest n i => .goto (if s.empty then .rDone else .rCopy n i)
  | .rCopy n i => .copy (.rLoop n (i + 1))
  | .rDone => .wakeup .nwrite .rExit
  | .rExit => .release .idle
  | .cAcquire w => .acquire (.cSet w)
  | .cSet w => .close w (.cWake w)
  | .cWake w => .wakeup (if w then .nread else .nwrite) .cExit
  -- the pipe is freed here if both ends are closed
  | .cExit => .release .idle

/-- The channel a process is SLEEPING on. -/
def Pc.asleepOn : Pc → Option Chan
  | .wSleep .asleep .. => some .nwrite
  | .rSleep .asleep _ => some .nread
  | _ => none

/-- A SLEEPING process made RUNNABLE. -/
def Pc.wake : Pc → Pc
  | .wSleep .asleep addr n i => .wSleep .woken addr n i
  | .rSleep .asleep n => .rSleep .woken n
  | pc => pc

/-- `wakeup1`. -/
def St.wakeup (s : St P) (c : Chan) : St P :=
  { s with pc := fun q => if (s.pc q).asleepOn = some c then (s.pc q).wake else s.pc q }

variable [DecidableEq P]

/-- Process `p` stands at `pc`. -/
def St.goto (s : St P) (p : P) (pc : Pc) : St P := { s with pc := Function.update s.pc p pc }

/-- Perform an instruction, unless it has to wait for a lock. -/
def exec (s : St P) (p : P) : Instr → Option (St P)
  | .wait => none
  | .acquire next => if s.lock = none then some { s.goto p next with lock := some p } else none
  | .release next => some { s.goto p next with lock := none }
  | .goto next => some (s.goto p next)
  | .wakeup c next => if s.table = none then some ((s.wakeup c).goto p next) else none
  | .lockTable next => if s.table = none then some { s.goto p next with table := some p } else none
  | .park next => some { s.goto p next with table := none }
  | .store b next => some { s.goto p next with
      data := Function.update s.data (s.nwrite.toNat % PIPESIZE) b
      nwrite := s.nwrite + 1
      stored := s.stored ++ [b] }
  | .copy next => some { s.goto p next with
      nread := s.nread + 1
      taken := s.taken ++ [s.data (s.nread.toNat % PIPESIZE)] }
  | .close w next =>
      if w then some { s.goto p next with writeopen := false }
      else some { s.goto p next with readopen := false }

/-- The events: a call by a process that runs none, a step of a process, and `kill`. -/
inductive Ev (P : Type*)
  | write (p : P) (addr : ℕ → UInt8) (n : ℤ)
  | read (p : P) (n : ℤ)
  | close (p : P) (writable : Bool)
  | step (p : P)
  | kill (q : P)

/-- Start a call. -/
def St.call (s : St P) (p : P) (pc : Pc) : Option (St P) :=
  match s.pc p with
  | .idle => some (s.goto p pc)
  | _ => none

/-- One event. -/
def step (s : St P) : Ev P → Option (St P)
  | .write p addr n => s.call p (.wAcquire addr n)
  | .read p n => s.call p (.rAcquire n)
  | .close p w => s.call p (.cAcquire w)
  | .step p => exec s p (fetch s p)
  | .kill q =>
      if s.table = none then
        some { s.goto q (s.pc q).wake with killed := Function.update s.killed q true }
      else none

/-- The pipe `pipealloc` makes, in whatever page it gets. -/
def init (data : ℕ → UInt8) (killed : P → Bool) : St P where
  data := data
  nread := 0
  nwrite := 0
  readopen := true
  writeopen := true
  lock := none
  table := none
  pc _ := .idle
  killed := killed
  stored := []
  taken := []

/-! ### Locks -/

/-- The process is between `acquire(&p->lock)` and `release(&p->lock)`. -/
def Pc.locks : Pc → Bool
  | .idle | .wAcquire .. | .rAcquire _ | .cAcquire _ => false
  | .wSleep st .. | .rSleep st _ =>
      match st with
      | .table | .unlock => true
      | _ => false
  | _ => true

/-- The process holds `ptable.lock` across steps. -/
def Pc.locksTable : Pc → Bool
  | .wSleep st .. | .rSleep st _ =>
      match st with
      | .unlock | .park => true
      | _ => false
  | _ => false

end Nunix.Pipe
