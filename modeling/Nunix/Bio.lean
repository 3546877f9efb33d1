/-
Nunix/Bio.lean

The buffer cache (bio.c) over the memory disk (memide.c).

Any number of processes call `bread`, change the data of buffers they hold, call
`log_write` or `bwrite` on them, and `brelse` them; between two steps of a call any other
process may run.  The scans of `bget` look at one buffer a step, under `bcache.lock`;
`sleep` gives that lock back in the step that makes the process SLEEPING, as
`ptable.lock` keeps every `wakeup` away in between.  A call that panics takes no further
step.

`write_log`, `install_trans` and `write_head` (log.c) are no extra calls: they are a
`bread` of two blocks, a `memmove` from one to the other, a `bwrite` and two `brelse`.

Three histories are kept beside the state: who has been given a buffer and has not
released it, which buffers have been changed since they were last passed to `log_write`
or `bwrite`, and what was last stored in each sector.
-/
import Nunix.Mutex
import Nunix.Params
import Nunix.Runs

namespace Nunix.Bio

open Runs
open Function (update)

/-- `struct buf`, with the bits of `flags` one by one. -/
structure Buf (D : Type*) where
  /-- B_BUSY: locked by some process. -/
  busy : Bool
  /-- B_VALID: has been read from disk. -/
  valid : Bool
  /-- B_DIRTY: needs to be written to disk. -/
  dirty : Bool
  dev : UInt32
  sector : UInt32
  data : D

/-- The buffer is labelled with the sector. -/
def Buf.matches {D : Type*} (x : Buf D) (dev sector : UInt32) : Prop :=
  x.dev = dev ∧ x.sector = sector

instance {D : Type*} (x : Buf D) (dev sector : UInt32) : Decidable (x.matches dev sector) :=
  inferInstanceAs (Decidable (_ ∧ _))

/-- Where a process stands. -/
inductive Pc
  | idle
  /-- `bread(dev, sector)`, and in it `bget`: before `acquire(&bcache.lock)`. -/
  | bget (dev sector : UInt32)
  /-- "Is the sector already cached?", with the rest of the list. -/
  | find (dev sector : UInt32) (rest : List (Fin NBUF))
  /-- SLEEPING on the buffer. -/
  | asleep (dev sector : UInt32) (b : Fin NBUF)
  | take (dev sector : UInt32) (b : Fin NBUF)
  /-- "Not cached; recycle some non-busy and clean buffer." -/
  | recycle (dev sector : UInt32) (rest : List (Fin NBUF))
  | steal (dev sector : UInt32) (b : Fin NBUF)
  /-- `bget` returns. -/
  | unlock (dev sector : UInt32) (b : Fin NBUF)
  | check (dev sector : UInt32) (b : Fin NBUF)
  | read (dev sector : UInt32) (b : Fin NBUF)
  /-- `bread` returns. -/
  | ret (dev sector : UInt32) (b : Fin NBUF)
  /-- `bwrite(b)`. -/
  | dirty (b : Fin NBUF)
  | write (b : Fin NBUF)
  /-- `brelse(b)`. -/
  | brelse (b : Fin NBUF)
  | move (b : Fin NBUF)
  | freed
  deriving DecidableEq

/-- The buffer cache, the disk, and the processes that use them. -/
structure St (P D : Type*) where
  buf : Fin NBUF → Buf D
  /-- The linked list, from `head.next` to `head.prev`. -/
  order : List (Fin NBUF)
  /-- Who holds `bcache.lock`. -/
  lock : Option P
  pc : P → Pc
  disk : UInt32 → D
  disksize : UInt32
  held : P → Fin NBUF → Bool
  touched : Fin NBUF → Bool
  stored : UInt32 → UInt32 → D

variable {P D : Type*}

/-- Change a buffer. -/
def St.set (s : St P D) (b : Fin NBUF) (x : Buf D) : St P D :=
  { s with buf := update s.buf b x }

/-- `iderw`: sync a buffer with the disk. -/
def iderw (s : St P D) (b : Fin NBUF) : Option (St P D) :=
  let x := s.buf b
  if x.busy = false then none
  else if x.valid = true ∧ x.dirty = false then none
  else if x.dev ≠ 1 then none
  else if s.disksize ≤ x.sector then none
  else if x.dirty = true then
    some { s.set b { x with dirty := false, valid := true } with
      disk := update s.disk x.sector x.data }
  else some (s.set b { x with data := s.disk x.sector, valid := true })

/-- `b->flags |= B_DIRTY`, in `log_write` and in `bwrite`. -/
def St.setDirty (s : St P D) (b : Fin NBUF) : St P D :=
  { s.set b { s.buf b with dirty := true } with touched := update s.touched b false }

/-- Store into the data of a buffer. -/
def St.modify (s : St P D) (b : Fin NBUF) (data : D) : St P D :=
  { s.set b { s.buf b with data := data } with
    touched := update s.touched b true
    stored := update s.stored (s.buf b).dev
      (update (s.stored (s.buf b).dev) (s.buf b).sector data) }

/-- A process SLEEPING on the buffer `b` takes up the scan of `bget` again. -/
def Pc.wake : Pc → Pc
  | .asleep dev sector _ => .bget dev sector
  | pc => pc

/-- `wakeup(b)`. -/
def St.wakeup (s : St P D) (b : Fin NBUF) : St P D :=
  { s with pc := fun q =>
      match s.pc q with
      | .asleep dev sector c => if c = b then .bget dev sector else .asleep dev sector c
      | pc => pc }

variable [DecidableEq P]

/-- Process `p` stands at `pc`. -/
def St.goto (s : St P D) (p : P) (pc : Pc) : St P D :=
  { s with pc := update s.pc p pc }

/-- Process `p` is given the buffer, or gives it back. -/
def St.hold (s : St P D) (p : P) (b : Fin NBUF) (mine : Bool) : St P D :=
  { s with held := update s.held p (update (s.held p) b mine) }

/-- One step of process `p`; `none` if it has nothing to do, waits, or panics. -/
def exec (s : St P D) (p : P) : Option (St P D) :=
  match s.pc p with
  | .idle | .asleep .. => none
  | .bget dev sector =>
      if s.lock = none then some { s.goto p (.find dev sector s.order) with lock := some p }
      else none
  | .find dev sector [] => some (s.goto p (.recycle dev sector s.order.reverse))
  | .find dev sector (b :: rest) =>
      if (s.buf b).matches dev sector then
        if (s.buf b).busy = true then some { s.goto p (.asleep dev sector b) with lock := none }
        else some (s.goto p (.take dev sector b))
      else some (s.goto p (.find dev sector rest))
  | .take dev sector b =>
      some (((s.set b { s.buf b with busy := true }).hold p b true).goto p (.unlock dev sector b))
  -- panic("bget: no buffers")
  | .recycle _ _ [] => none
  | .recycle dev sector (b :: rest) =>
      if (s.buf b).busy = false ∧ (s.buf b).dirty = false then some (s.goto p (.steal dev sector b))
      else some (s.goto p (.recycle dev sector rest))
  | .steal dev sector b =>
      some (((s.set b { s.buf b with
        busy := true, valid := false, dirty := false, dev := dev, sector := sector }).hold
          p b true).goto p (.unlock dev sector b))
  | .unlock dev sector b => some { s.goto p (.check dev sector b) with lock := none }
  | .check dev sector b =>
      some (s.goto p (if (s.buf b).valid = true then .ret dev sector b else .read dev sector b))
  | .read dev sector b => (iderw s b).map fun t => t.goto p (.ret dev sector b)
  | .ret .. => some (s.goto p .idle)
  | .dirty b => some ((s.setDirty b).goto p (.write b))
  | .write b => (iderw s b).map fun t => t.goto p .idle
  | .brelse b => if s.lock = none then some { s.goto p (.move b) with lock := some p } else none
  | .move b =>
      some { (((s.set b { s.buf b with busy := false }).hold p b false).wakeup b).goto p .freed with
        order := b :: s.order.erase b }
  | .freed => some { s.goto p .idle with lock := none }

/-- The events: the calls of a process, its changes to buffers, a step, and `kill`. -/
inductive Ev (P D : Type*)
  | bread (p : P) (dev sector : UInt32)
  | modify (p : P) (b : Fin NBUF) (data : D)
  | logWrite (p : P) (b : Fin NBUF)
  | bwrite (p : P) (b : Fin NBUF)
  | brelse (p : P) (b : Fin NBUF)
  | step (p : P)
  | kill (q : P)

/-- The process runs no call of the cache and has been given the buffer. -/
def St.has (s : St P D) (p : P) (b : Fin NBUF) : Prop := s.pc p = .idle ∧ s.held p b = true

instance (s : St P D) (p : P) (b : Fin NBUF) : Decidable (s.has p b) :=
  inferInstanceAs (Decidable (_ ∧ _))

/-- One event.  A process uses only buffers it has been given, and does not release a buffer
it has changed before it has passed it to `log_write` or `bwrite`. -/
def step (s : St P D) : Ev P D → Option (St P D)
  | .bread p dev sector => if s.pc p = .idle then some (s.goto p (.bget dev sector)) else none
  | .modify p b data => if s.has p b then some (s.modify b data) else none
  | .logWrite p b => if s.has p b then some (s.setDirty b) else none
  -- `bwrite` and `brelse` panic if the buffer is not B_BUSY
  | .bwrite p b =>
      if s.has p b ∧ (s.buf b).busy = true then some (s.goto p (.dirty b)) else none
  | .brelse p b =>
      if s.has p b ∧ s.touched b = false ∧ (s.buf b).busy = true then some (s.goto p (.brelse b))
      else none
  | .step p => exec s p
  | .kill q => some (s.goto q (s.pc q).wake)

/-- The device number `binit` gives the buffers. -/
def NODEV : UInt32 := 0xffffffff

/-- The cache after `binit`, over any disk; `zero` is what the buffers start with. -/
def init (zero : D) (disk : UInt32 → D) (disksize : UInt32) : St P D where
  buf _ := ⟨false, false, false, NODEV, 0, zero⟩
  -- every buffer is put at the front
  order := (List.finRange NBUF).reverse
  lock := none
  pc _ := .idle
  disk := disk
  disksize := disksize
  held _ _ := false
  touched _ := false
  stored _ := disk

/-- The process holds `bcache.lock`. -/
def Pc.locks : Pc → Bool
  | .find .. | .take .. | .recycle .. | .steal .. | .unlock .. | .move _ | .freed => true
  | _ => false

end Nunix.Bio
