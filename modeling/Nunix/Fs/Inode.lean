/-
Nunix/Fs/Inode.lean

The inode layer of fs.c: block allocation, the inode cache, and the contents of
inodes.

A function of fs.c is a program over the file system state `FsSt`: the blocks as
seen above the log (what `bread` returns), the inode cache, and the current
directory of the calling process.  A panic stops the program, and so does a lock
that is never released (`Halt`).  There is one device, so block numbers and inode
numbers stand for themselves.

Three histories are kept beside the state: `logged` lists the sectors passed to
`log_write` since the last `begin_op` (`ops` those of the completed operations),
`ballocs` the calls of `balloc`, each with the disk it found and the block it
returned, and `trace` the calls that concern the log.

`int` loop counters over blocks and inodes are natural numbers: a disk has fewer
than `2 ^ 31` blocks.
-/
import Nunix.Fs.Disk
import Nunix.Hoare

namespace Nunix.Fs

open Bytes

/-! ### State -/

/-- The panics of fs.c, file.c and sysfile.c. -/
inductive FsPanic
  | outOfBlocks
  | freeingFreeBlock
  | iallocNoInodes
  | igetNoInodes
  | ilock
  | ilockNoType
  | iunlock
  | iputBusy
  | bmapOutOfRange
  | dirlookupNotDir
  | dirlinkRead
  | dirlink
  | isdiremptyReadi
  | unlinkNlink
  | unlinkWritei
  | createDots
  | createDirlink
  | shortFilewrite
  deriving DecidableEq

/-- The text `panic` is called with. -/
def FsPanic.text : FsPanic → String
  | .outOfBlocks => "balloc: out of blocks"
  | .freeingFreeBlock => "freeing free block"
  | .iallocNoInodes => "ialloc: no inodes"
  | .igetNoInodes => "iget: no inodes"
  | .ilock => "ilock"
  | .ilockNoType => "ilock: no type"
  | .iunlock => "iunlock"
  | .iputBusy => "iput busy"
  | .bmapOutOfRange => "bmap: out of range"
  | .dirlookupNotDir => "dirlookup not DIR"
  | .dirlinkRead => "dirlink read"
  | .dirlink => "dirlink"
  | .isdiremptyReadi => "isdirempty: readi"
  | .unlinkNlink => "unlink: nlink < 1"
  | .unlinkWritei => "unlink: writei"
  | .createDots => "create dots"
  | .createDirlink => "create: dirlink"
  | .shortFilewrite => "short filewrite"

/-- Why a program does not return. -/
inductive Halt
  | panic (msg : FsPanic)
  /-- The process waits for a lock it holds itself. -/
  | deadlock
  deriving DecidableEq

/-- `struct inode`: the in-memory copy of an inode.  `busy` and `valid` are the
flags `I_BUSY` and `I_VALID`. -/
structure Inode extends Dinode where
  inum : ℕ
  ref : ℤ
  busy : Bool
  valid : Bool

/-- The calls that concern the log: the ends of an operation, the latter with the blocks as
it leaves them, and what has to happen within one. -/
inductive TxEv
  | beginOp
  | endOp (disk : Disk)
  | logWrite (x : ℕ) (b : Bytes)
  | balloc
  | bfree (b : ℕ)
  | ialloc
  | iupdate (k : ℕ)
  | iput (k : ℕ)

/-- The file system state.  `consoleRead` is what the console's read function
returns for a length. -/
structure FsSt where
  disk : Disk
  icache : ℕ → Inode
  cwd : ℕ
  consoleRead : ℕ → ℤ × Bytes
  logged : List ℕ
  ops : List (List ℕ)
  ballocs : List (Disk × ℕ)
  trace : List TxEv

/-- Programs over the file system state. -/
abbrev FsM : Type → Type := EStateM Halt FsSt

/-- `panic`. -/
def panic {α : Type} (msg : FsPanic) : FsM α := throw (.panic msg)

/-! ### Buffers and transactions -/

/-- Note a call in the trace. -/
def note (e : TxEv) : FsM Unit := modify fun s => { s with trace := e :: s.trace }

/-- The contents of block `x`. -/
def bread (x : ℕ) : FsM Bytes := return (← get).disk x

/-- Fill the buffer of block `x` with `b` and pass it to `log_write`. -/
def logWrite (x : ℕ) (b : Bytes) : FsM Unit :=
  modify fun s => { s with
    disk := Function.update s.disk x b
    logged := x :: s.logged
    trace := .logWrite x b :: s.trace }

/-- `begin_op`. -/
def beginOp : FsM Unit := modify fun s => { s with logged := [], trace := .beginOp :: s.trace }

/-- `end_op`. -/
def endOp : FsM Unit := modify fun s => { s with
  logged := []
  ops := s.logged :: s.ops
  trace := .endOp s.disk :: s.trace }

/-! ### Blocks -/

/-- `readsb`. -/
def readsb : FsM Superblock := return superblock (← get).disk

/-- `bzero`. -/
def bzero (bno : ℕ) : FsM Unit := logWrite bno Bytes.zero

/-- The block the two nested loops of `balloc` stop at: they visit the bits of the
blocks below `sb.size` in order. -/
def firstFree (d : Disk) : Option ℕ :=
  (List.range (superblock d).size).find? fun b => !bit d (superblock d).ninodes b

/-- `balloc`. -/
def balloc : FsM ℕ := do
  note .balloc
  let d := (← get).disk
  let bb := fun b => BBLOCK b (superblock d).ninodes
  let some b := firstFree d | panic .outOfBlocks
  logWrite (bb b) ((d (bb b)).setBit (b % BPB))
  bzero b
  modify fun s => { s with ballocs := (d, b) :: s.ballocs }
  return b

/-- `bfree`. -/
def bfree (b : ℕ) : FsM Unit := do
  note (.bfree b)
  let sb ← readsb
  let bp ← bread (BBLOCK b sb.ninodes)
  if bp.getBit (b % BPB) = false then panic .freeingFreeBlock
  logWrite (BBLOCK b sb.ninodes) (bp.clearBit (b % BPB))

/-! ### The inode cache -/

/-- Change the cache entry `k`. -/
def modifySlot (k : ℕ) (f : Inode → Inode) : FsM Unit :=
  modify fun s => { s with icache := Function.update s.icache k (f (s.icache k)) }

/-- The cache entry `k`. -/
def slot (k : ℕ) : FsM Inode := return (← get).icache k

/-- `iget`. -/
def iget (inum : ℕ) : FsM ℕ := do
  let c := (← get).icache
  match (List.range NINODE).find? fun k => decide (0 < (c k).ref) && (c k).inum == inum with
  | some k => do
      modifySlot k fun ip => { ip with ref := ip.ref + 1 }
      return k
  | none =>
      match (List.range NINODE).find? fun k => (c k).ref == 0 with
      | some k => do
          modifySlot k fun ip => { ip with inum := inum, ref := 1, busy := false, valid := false }
          return k
      | none => panic .igetNoInodes

/-- `idup`. -/
def idup (k : ℕ) : FsM ℕ := do
  modifySlot k fun ip => { ip with ref := ip.ref + 1 }
  return k

/-- `ialloc`: the new inode, referenced but not locked. -/
def ialloc (type : Int16) : FsM ℕ := do
  note .ialloc
  let d := (← get).disk
  match (List.range' 1 ((superblock d).ninodes - 1)).find? fun i => (dinode d i).type == 0 with
  | some i => do
      logWrite (IBLOCK i) (withDinode d i { Dinode.zero with type := type })
      iget i
  | none => panic .iallocNoInodes

/-- `iupdate`. -/
def iupdate (k : ℕ) : FsM Unit := do
  note (.iupdate k)
  let ip ← slot k
  let d := (← get).disk
  logWrite (IBLOCK ip.inum) (withDinode d ip.inum ip.toDinode)

/-- `ilock`. -/
def ilock (k : ℕ) : FsM Unit := do
  let ip ← slot k
  if ip.ref < 1 then panic .ilock
  if ip.busy then throw .deadlock
  modifySlot k fun ip => { ip with busy := true }
  if ip.valid = false then
    let d := (← get).disk
    modifySlot k fun ip => { ip with toDinode := dinode d ip.inum, valid := true }
    if (dinode d ip.inum).type = 0 then panic .ilockNoType

/-- `iunlock`. -/
def iunlock (k : ℕ) : FsM Unit := do
  let ip ← slot k
  if ip.busy = false ∨ ip.ref < 1 then panic .iunlock
  modifySlot k fun ip => { ip with busy := false }

/-! ### Inode contents -/

/-- Store a block address in the inode. -/
def setAddr (k : ℕ) (i : Fin (NDIRECT + 1)) (a : UInt32) : FsM Unit :=
  modifySlot k fun ip => { ip with addrs := Function.update ip.addrs i a }

/-- Position of the indirect block's address. -/
def indirectSlot : Fin (NDIRECT + 1) := Fin.last NDIRECT

/-- Block `bn` of the inode `ip` on `d` has an address. -/
def Dinode.HasBlock (d : Disk) (ip : Dinode) (bn : ℕ) : Prop :=
  if h : bn < NDIRECT then ip.addrs ⟨bn, Nat.lt_succ_of_lt h⟩ ≠ 0
  else ip.addrs indirectSlot ≠ 0 ∧
    UInt32.ofNat ((d (ip.addrs indirectSlot).toNat).get32 (4 * (bn - NDIRECT))) ≠ 0

/-- `bmap`. -/
def bmap (k bn : ℕ) : FsM ℕ := do
  if h : bn < NDIRECT then
    let i : Fin (NDIRECT + 1) := ⟨bn, Nat.lt_succ_of_lt h⟩
    let addr := (← slot k).addrs i
    if addr = 0 then
      let b ← balloc
      setAddr k i (UInt32.ofNat b)
      return b
    return addr.toNat
  else if bn - NDIRECT < NINDIRECT then
    let addr := (← slot k).addrs indirectSlot
    let x ← if addr = 0 then do
        let b ← balloc
        setAddr k indirectSlot (UInt32.ofNat b)
        pure b
      else pure addr.toNat
    let bp ← bread x
    let a := UInt32.ofNat (bp.get32 (4 * (bn - NDIRECT)))
    if a = 0 then
      let b ← balloc
      logWrite x (bp.put32 (4 * (bn - NDIRECT)) (UInt32.ofNat b).toNat)
      return b
    return a.toNat
  else panic .bmapOutOfRange

/-- The first loop of `itrunc`. -/
def itruncDirect (k : ℕ) : List (Fin (NDIRECT + 1)) → FsM Unit
  | [] => return ()
  | i :: is => do
      let addr := (← slot k).addrs i
      if addr ≠ 0 then
        bfree addr.toNat
        setAddr k i 0
      itruncDirect k is

/-- The second loop of `itrunc`, over the entries of the indirect block. -/
def itruncEntries (bp : Bytes) : List ℕ → FsM Unit
  | [] => return ()
  | j :: js => do
      let a := UInt32.ofNat (bp.get32 (4 * j))
      if a ≠ 0 then bfree a.toNat
      itruncEntries bp js

/-- `itrunc`. -/
def itrunc (k : ℕ) : FsM Unit := do
  itruncDirect k ((List.finRange NDIRECT).map Fin.castSucc)
  let addr := (← slot k).addrs indirectSlot
  if addr ≠ 0 then
    let bp ← bread addr.toNat
    itruncEntries bp (List.range NINDIRECT)
    bfree addr.toNat
    setAddr k indirectSlot 0
  modifySlot k fun ip => { ip with size := 0 }
  iupdate k

/-- `iput`. -/
def iput (k : ℕ) : FsM Unit := do
  note (.iput k)
  let ip ← slot k
  if ip.ref = 1 ∧ ip.valid ∧ ip.nlink = 0 then
    if ip.busy then panic .iputBusy
    modifySlot k fun ip => { ip with busy := true }
    itrunc k
    modifySlot k fun ip => { ip with type := 0 }
    iupdate k
    modifySlot k fun ip => { ip with busy := false, valid := false }
  modifySlot k fun ip => { ip with ref := ip.ref - 1 }

/-- `iunlockput`. -/
def iunlockput (k : ℕ) : FsM Unit := do
  iunlock k
  iput k

/-- The device has no `read` or `write` function: only the console does. -/
def Inode.noDevice (ip : Inode) : Bool :=
  decide (ip.major < 0) || decide (ip.major.toInt ≥ NDEV) || decide (ip.major ≠ CONSOLE)

/-- The loop of `readi`, which fills `dst`. -/
def readiLoop (k n tot off : ℕ) (dst : Bytes) : FsM Bytes := do
  if _h : tot < n then
    let bp ← bread (← bmap k (off / BSIZE))
    let m := min (n - tot) (BSIZE - off % BSIZE)
    readiLoop k n (tot + m) (off + m) (dst.blit tot m (bp.drop (off % BSIZE)))
  else return dst
termination_by n - tot
decreasing_by
  have : off % 512 < 512 := Nat.mod_lt _ (by norm_num)
  simp only [BSIZE]
  omega

/-- `readi`: the result, and the buffer it read into. -/
def readi (k : ℕ) (dst : Bytes) (off n : ℕ) : FsM (ℤ × Bytes) := do
  let ip ← slot k
  if ip.type = T_DEV then
    if ip.noDevice then return (-1, dst)
    return (← get).consoleRead n
  if off > ip.size.toNat ∨ (off + n) % 2 ^ 32 < off then return (-1, dst)
  let n := if (off + n) % 2 ^ 32 > ip.size.toNat then ip.size.toNat - off else n
  let dst ← readiLoop k n 0 off dst
  return (toInt32 n, dst)

/-- The loop of `writei`. -/
def writeiLoop (k : ℕ) (src : Bytes) (n tot off : ℕ) : FsM Unit := do
  if _h : tot < n then
    let x ← bmap k (off / BSIZE)
    let bp ← bread x
    let m := min (n - tot) (BSIZE - off % BSIZE)
    logWrite x (bp.blit (off % BSIZE) m (src.drop tot))
    writeiLoop k src n (tot + m) (off + m)
  else return ()
termination_by n - tot
decreasing_by
  have : off % 512 < 512 := Nat.mod_lt _ (by norm_num)
  simp only [BSIZE]
  omega

/-- `writei`; the console's write function returns the length. -/
def writei (k : ℕ) (src : Bytes) (off n : ℕ) : FsM ℤ := do
  let ip ← slot k
  if ip.type = T_DEV then
    if ip.noDevice then return -1
    return toInt32 n
  if off > ip.size.toNat ∨ (off + n) % 2 ^ 32 < off then return -1
  if (off + n) % 2 ^ 32 > MAXFILE * BSIZE then return -1
  writeiLoop k src n 0 off
  if n > 0 ∧ off + n > ip.size.toNat then
    modifySlot k fun ip => { ip with size := UInt32.ofNat (off + n) }
    iupdate k
  return toInt32 n

end Nunix.Fs
