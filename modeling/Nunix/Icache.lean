/-
Nunix/Icache.lean

The inode cache (iget, idup, ilock, iunlock, iput and ialloc of fs.c), used by any number
of processes at once.

Between two steps of a call any other process may run.  The scan of `iget` looks at one
entry a step, under `icache.lock`; the truncate-and-free part of `iput` runs without that
lock, field by field and write by write.  One access to an on-disk inode is one step, since
its block is B_BUSY from `bread` to `brelse`.  `sleep` gives the lock back in the step that
makes the process SLEEPING.  A call that panics takes no further step.

Four histories are kept beside the state: the handles to each entry that have been given
out by `iget` and `idup` and not yet passed to `iput`; who has set the I_BUSY bit of an
entry; which entries have been changed since the last `iupdate`; and the inode that was
last stored under each number, by `ialloc` or by the `iupdate` of a process that has locked
it.  What `iput` writes while it frees an inode is not recorded there.
-/
import Nunix.Fs.Disk
import Nunix.Mutex
import Nunix.Runs
import Nunix.Tally

namespace Nunix.Icache

open Runs Fs
open Function (update)

/-- Where a process stands. -/
inductive Pc
  | idle
  /-- `iget(dev, inum)`: before `acquire(&icache.lock)`. -/
  | iget (dev inum : UInt32)
  /-- "Is the inode already cached?", at entry `k`. -/
  | scan (dev inum : UInt32) (k : ℕ) (empty : Option (Fin NINODE))
  | recycle (dev inum : UInt32) (i : Fin NINODE)
  /-- `idup(ip)`. -/
  | idup (i : Fin NINODE)
  | dupRef (i : Fin NINODE)
  /-- Before `release(&icache.lock)` and the return. -/
  | release
  /-- `ilock(ip)`: before `acquire(&icache.lock)`. -/
  | ilock (i : Fin NINODE)
  | lockTest (i : Fin NINODE)
  /-- SLEEPING on the entry. -/
  | asleep (i : Fin NINODE)
  | lockRelease (i : Fin NINODE)
  | lockCheck (i : Fin NINODE)
  | lockRead (i : Fin NINODE)
  /-- `ilock` returns. -/
  | lockRet (i : Fin NINODE)
  /-- `iunlock(ip)`. -/
  | iunlock (i : Fin NINODE)
  | unlockClear (i : Fin NINODE)
  /-- `iput(ip)`. -/
  | iput (i : Fin NINODE)
  | putTest (i : Fin NINODE)
  /-- Truncate and free: I_BUSY is set. -/
  | putRelease (i : Fin NINODE)
  | putTrunc (i : Fin NINODE)
  | putSync (i : Fin NINODE)
  | putType (i : Fin NINODE)
  | putFree (i : Fin NINODE)
  | putAcquire (i : Fin NINODE)
  | putClear (i : Fin NINODE)
  /-- Before `ip->ref--`. -/
  | putRef (i : Fin NINODE)
  /-- `ialloc(dev, type)`, at inode `inum` of its scan. -/
  | ialloc (dev : UInt32) (type : Int16) (inum : UInt32)
  deriving DecidableEq

/-- The inode cache, field by field of `icache.inode[]`, the inodes on disk, and the
processes that use them. -/
structure St (P : Type*) where
  dev : Fin NINODE → UInt32
  inum : Fin NINODE → UInt32
  ref : Fin NINODE → ℤ
  /-- I_BUSY. -/
  busy : Fin NINODE → Bool
  /-- I_VALID. -/
  valid : Fin NINODE → Bool
  /-- type, major, minor, nlink, size and addrs. -/
  fields : Fin NINODE → Dinode
  disk : UInt32 → UInt32 → Dinode
  ninodes : UInt32
  /-- Who holds `icache.lock`. -/
  lock : Option P
  pc : P → Pc
  handles : Fin NINODE → ℕ
  held : P → Fin NINODE → Bool
  touched : Fin NINODE → Bool
  stored : UInt32 → UInt32 → Dinode

variable {P : Type*}

/-- The entry is in use for the inode. -/
def St.caches (s : St P) (i : Fin NINODE) (dev inum : UInt32) : Prop :=
  0 < s.ref i ∧ s.dev i = dev ∧ s.inum i = inum

instance (s : St P) (i : Fin NINODE) (dev inum : UInt32) : Decidable (s.caches i dev inum) :=
  inferInstanceAs (Decidable (_ ∧ _))

/-- The on-disk inode of an entry. -/
def St.dinode (s : St P) (i : Fin NINODE) : Dinode := s.disk (s.dev i) (s.inum i)

/-- A table with one inode replaced. -/
def put (t : UInt32 → UInt32 → Dinode) (dev inum : UInt32) (n : Dinode) :
    UInt32 → UInt32 → Dinode :=
  update t dev (update (t dev) inum n)

/-- `ip->ref++`, and a handle for the caller. -/
def St.addRef (s : St P) (i : Fin NINODE) : St P :=
  { s with
    ref := update s.ref i (s.ref i + 1)
    handles := update s.handles i (s.handles i + 1) }

/-- `ip->ref--`. -/
def St.dropRef (s : St P) (i : Fin NINODE) : St P :=
  { s with ref := update s.ref i (s.ref i - 1) }

/-- The entry is made one for the inode. -/
def St.recycle (s : St P) (i : Fin NINODE) (dev inum : UInt32) : St P :=
  { s with
    dev := update s.dev i dev
    inum := update s.inum i inum
    ref := update s.ref i 1
    busy := update s.busy i false
    valid := update s.valid i false
    handles := update s.handles i (s.handles i + 1) }

/-- Assign to the fields of an entry. -/
def St.setFields (s : St P) (i : Fin NINODE) (n : Dinode) : St P :=
  { s with fields := update s.fields i n }

/-- `ilock` copies the on-disk inode to the entry. -/
def St.load (s : St P) (i : Fin NINODE) : St P :=
  { s.setFields i (s.dinode i) with valid := update s.valid i true }

/-- `iupdate` copies the entry to the on-disk inode. -/
def St.iupdate (s : St P) (i : Fin NINODE) : St P :=
  { s with disk := put s.disk (s.dev i) (s.inum i) (s.fields i) }

/-- The inode `ialloc` writes: zeroed, but for the type. -/
def fresh (type : Int16) : Dinode := ⟨type, 0, 0, 0, 0, fun _ => 0⟩

/-- A SLEEPING process made RUNNABLE: it acquires the lock again. -/
def Pc.wake : Pc → Pc
  | .asleep i => .ilock i
  | pc => pc

/-- `wakeup(ip)`. -/
def St.wakeup (s : St P) (i : Fin NINODE) : St P :=
  { s with pc := fun q =>
      match s.pc q with
      | .asleep j => if j = i then .ilock j else .asleep j
      | pc => pc }

variable [DecidableEq P]

/-- Process `p` stands at `pc`. -/
def St.goto (s : St P) (p : P) (pc : Pc) : St P := { s with pc := update s.pc p pc }

/-- `ip->flags |= I_BUSY`. -/
def St.setBusy (s : St P) (p : P) (i : Fin NINODE) : St P :=
  { s with
    busy := update s.busy i true
    held := update s.held p (update (s.held p) i true) }

/-- `ip->flags &= ~I_BUSY`. -/
def St.clearBusy (s : St P) (p : P) (i : Fin NINODE) : St P :=
  { s with
    busy := update s.busy i false
    held := update s.held p (update (s.held p) i false) }

/-- `acquire(&icache.lock)`. -/
def St.acquire (s : St P) (p : P) (next : Pc) : Option (St P) :=
  if s.lock = none then some { s.goto p next with lock := some p } else none

/-- One step of process `p`; `none` if it has nothing to do, waits, or panics. -/
def exec (s : St P) (p : P) : Option (St P) :=
  match s.pc p with
  | .idle | .asleep _ => none
  | .iget dev inum => s.acquire p (.scan dev inum 0 none)
  | .scan dev inum k empty =>
      if h : k < NINODE then
        if s.caches ⟨k, h⟩ dev inum then some ((s.addRef ⟨k, h⟩).goto p .release)
        else some (s.goto p (.scan dev inum (k + 1)
          (if empty = none ∧ s.ref ⟨k, h⟩ = 0 then some ⟨k, h⟩ else empty)))
      else
        match empty with
        -- panic("iget: no inodes")
        | none => none
        | some i => some (s.goto p (.recycle dev inum i))
  | .recycle dev inum i => some ((s.recycle i dev inum).goto p .release)
  | .idup i => s.acquire p (.dupRef i)
  | .dupRef i => some ((s.addRef i).goto p .release)
  | .release => some { s.goto p .idle with lock := none }
  | .ilock i => s.acquire p (.lockTest i)
  | .lockTest i =>
      if s.busy i = true then some { s.goto p (.asleep i) with lock := none }
      else some ((s.setBusy p i).goto p (.lockRelease i))
  | .lockRelease i => some { s.goto p (.lockCheck i) with lock := none }
  | .lockCheck i => some (s.goto p (if s.valid i = true then .lockRet i else .lockRead i))
  | .lockRead i =>
      -- panic("ilock: no type")
      if (s.dinode i).type = 0 then none else some ((s.load i).goto p (.lockRet i))
  | .lockRet _ => some (s.goto p .idle)
  | .iunlock i => s.acquire p (.unlockClear i)
  | .unlockClear i => some (((s.clearBusy p i).wakeup i).goto p .release)
  | .iput i => s.acquire p (.putTest i)
  | .putTest i =>
      if s.ref i = 1 ∧ s.valid i = true ∧ (s.fields i).nlink = 0 then
        -- panic("iput busy")
        if s.busy i = true then none else some ((s.setBusy p i).goto p (.putRelease i))
      else some (s.goto p (.putRef i))
  | .putRelease i => some { s.goto p (.putTrunc i) with lock := none }
  | .putTrunc i =>
      some ((s.setFields i { s.fields i with addrs := fun _ => 0, size := 0 }).goto p (.putSync i))
  | .putSync i => some ((s.iupdate i).goto p (.putType i))
  | .putType i => some ((s.setFields i { s.fields i with type := 0 }).goto p (.putFree i))
  | .putFree i => some ((s.iupdate i).goto p (.putAcquire i))
  | .putAcquire i => s.acquire p (.putClear i)
  | .putClear i =>
      some ((({ s.clearBusy p i with valid := update s.valid i false }).wakeup i).goto p
        (.putRef i))
  | .putRef i => some ((s.dropRef i).goto p .release)
  | .ialloc dev type inum =>
      if inum < s.ninodes then
        if (s.disk dev inum).type = 0 then
          some ({ s with
            disk := put s.disk dev inum (fresh type)
            stored := put s.stored dev inum (fresh type) }.goto p (.iget dev inum))
        else some (s.goto p (.ialloc dev type (inum + 1)))
      -- panic("ialloc: no inodes")
      else none

/-- The events: the calls of a process, its changes to the fields of an inode, a step, and
`kill`. -/
inductive Ev (P : Type*)
  | iget (p : P) (dev inum : UInt32)
  | idup (p : P) (i : Fin NINODE)
  | ilock (p : P) (i : Fin NINODE)
  | modify (p : P) (i : Fin NINODE) (n : Dinode)
  | iupdate (p : P) (i : Fin NINODE)
  | iunlock (p : P) (i : Fin NINODE)
  | iput (p : P) (i : Fin NINODE)
  | ialloc (p : P) (dev : UInt32) (type : Int16)
  | step (p : P)
  | kill (q : P)

/-- Start a call. -/
def St.call (s : St P) (p : P) (pc : Pc) : Option (St P) :=
  match s.pc p with
  | .idle => some (s.goto p pc)
  | _ => none

/-- One event. -/
def step (s : St P) : Ev P → Option (St P)
  | .iget p dev inum => s.call p (.iget dev inum)
  | .idup p i => s.call p (.idup i)
  -- panic("ilock") and panic("iunlock")
  | .ilock p i => if 0 < s.ref i then s.call p (.ilock i) else none
  | .iunlock p i => if s.busy i = true ∧ 0 < s.ref i then s.call p (.iunlock i) else none
  -- nobody but `ialloc` and `iput` changes the type of an inode
  | .modify p i n =>
      { s.setFields i { n with type := (s.fields i).type } with
        touched := update s.touched i true }.call p .idle
  | .iupdate p i =>
      { s.iupdate i with
        stored := put s.stored (s.dev i) (s.inum i) (s.fields i)
        touched := update s.touched i false }.call p .idle
  | .iput p i =>
      { s with handles := update s.handles i (s.handles i - 1) }.call p (.iput i)
  | .ialloc p dev type => s.call p (.ialloc dev type 1)
  | .step p => exec s p
  | .kill q => some (s.goto q (s.pc q).wake)

/-- The cache after `iinit`, over any disk: every entry is free and zero. -/
def init (disk : UInt32 → UInt32 → Dinode) (ninodes : UInt32) : St P where
  dev _ := 0
  inum _ := 0
  ref _ := 0
  busy _ := false
  valid _ := false
  fields _ := fresh 0
  disk := disk
  ninodes := ninodes
  lock := none
  pc _ := .idle
  handles _ := 0
  held _ _ := false
  touched _ := false
  stored := disk

/-! ### The callers -/

/-- The entry the process frees. -/
def Pc.frees : Pc → Option (Fin NINODE)
  | .putRelease i | .putTrunc i | .putSync i | .putType i | .putFree i | .putAcquire i
  | .putClear i => some i
  | _ => none

/-- The entry whose handle a running `idup` or `ilock` was given. -/
def Pc.waits : Pc → Option (Fin NINODE)
  | .idup i | .dupRef i | .ilock i | .lockTest i | .asleep i => some i
  | _ => none

/-- The process needs a handle to the entry: it has locked it, or is about to. -/
def St.uses (s : St P) (p : P) (i : Fin NINODE) : Prop :=
  (s.held p i = true ∧ (s.pc p).frees ≠ some i) ∨ (s.pc p).waits = some i

instance (s : St P) (p : P) (i : Fin NINODE) : Decidable (s.uses p i) :=
  inferInstanceAs (Decidable (_ ∨ _))

/-- What the callers see to: they use entries they have a handle to and pass each handle to
`iput` once, the last one not while it is in use; they change the fields of an inode only
while they have it locked, and call `iupdate` before `iunlock`. -/
def Polite (s : St P) : Ev P → Prop
  | .idup _ i | .ilock _ i => 0 < s.handles i
  | .modify p i _ | .iupdate p i => s.held p i = true
  | .iunlock p i => s.held p i = true ∧ s.touched i = false
  | .iput _ i => 0 < s.handles i ∧ (1 < s.handles i ∨ ∀ q, ¬ s.uses q i)
  | _ => True

instance [Fintype P] (s : St P) : (e : Ev P) → Decidable (Polite s e)
  | .idup _ i | .ilock _ i => inferInstanceAs (Decidable (0 < s.handles i))
  | .modify p i _ | .iupdate p i => inferInstanceAs (Decidable (s.held p i = true))
  | .iunlock p i => inferInstanceAs (Decidable (s.held p i = true ∧ s.touched i = false))
  | .iput _ i => inferInstanceAs (Decidable (0 < s.handles i ∧ (1 < s.handles i ∨ ∀ q, ¬ s.uses q i)))
  | .iget .. | .ialloc .. | .step _ | .kill _ => .isTrue trivial

end Nunix.Icache
