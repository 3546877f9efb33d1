/-
Nunix/Fs/Mkfs.lean

mkfs.c: the disk image the kernel boots from.

`mkfs` writes the root directory and one file for every input, taking blocks off a
counter, and marks the blocks up to the counter in the bitmap at the end.  It stops
(`none`) where the program exits or fails an assertion: a name with a slash, a file
larger than `MAXFILE` blocks, a block behind the end of the image.

Reading and writing sectors of the image cannot fail otherwise.  The host's byte
order is that of the target, so `xint` and `xshort` are identities.
-/
import Nunix.Fs.Dir

namespace Nunix.Fs.Mkfs

open Bytes

/-! ### The program -/

/-- Blocks of the image. -/
def size : ℕ := 1024

/-- Data blocks of the image. -/
def nblocks : ℕ := 995 - LOGSIZE

/-- Inodes of the image. -/
def ninodes : ℕ := 200

/-- The superblock `mkfs` writes. -/
def sb : Superblock := ⟨size, nblocks, ninodes, LOGSIZE⟩

/-- An input file: its name, and the pieces in which `read` returns it. -/
structure HostFile where
  name : List UInt8
  reads : List (List UInt8)
  reads_le : ∀ buf ∈ reads, 0 < buf.length ∧ buf.length ≤ BSIZE

/-- The image and the counters of the program. -/
structure Img where
  disk : Disk
  freeinode : ℕ
  freeblock : ℕ
  usedblocks : ℕ

/-- `rsect`. -/
def rsect (m : Img) (sec : ℕ) : Option Bytes := if sec < size then some (m.disk sec) else none

/-- `wsect`. -/
def wsect (m : Img) (sec : ℕ) (buf : Bytes) : Img :=
  { m with disk := Function.update m.disk sec buf }

/-- `rinode`. -/
def rinode (m : Img) (inum : ℕ) : Option Dinode := do
  let buf ← rsect m (IBLOCK inum)
  return .decode (buf.drop (64 * (inum % IPB)))

/-- `winode`. -/
def winode (m : Img) (inum : ℕ) (ip : Dinode) : Option Img := do
  let buf ← rsect m (IBLOCK inum)
  return wsect m (IBLOCK inum) (buf.blit (64 * (inum % IPB)) 64 ip.encode)

/-- `ialloc`. -/
def ialloc (m : Img) (type : Int16) : Option (Img × ℕ) := do
  let inum := m.freeinode
  let m ← winode { m with freeinode := inum + 1 } inum { Dinode.zero with type := type, nlink := 1 }
  return (m, inum)

/-- `freeblock++` and `usedblocks++`. -/
def Img.take (m : Img) : Img :=
  { m with freeblock := m.freeblock + 1, usedblocks := m.usedblocks + 1 }

/-- The part of `iappend` that finds or adds entry `j` of the indirect block. -/
def entryAt (m : Img) (din : Dinode) (j : ℕ) : Option (Img × Dinode × ℕ) := do
  let x := (din.addrs indirectSlot).toNat
  let indirect ← rsect m x
  let a := UInt32.ofNat (indirect.get32 (4 * j))
  if a = 0 then
    let b := UInt32.ofNat m.freeblock
    return (wsect m.take x (indirect.put32 (4 * j) b.toNat), din, b.toNat)
  return (m, din, a.toNat)

/-- The part of `iappend` that finds or adds block `fbn`: its number. -/
def blockAt (m : Img) (din : Dinode) (fbn : ℕ) : Option (Img × Dinode × ℕ) :=
  if h : fbn < NDIRECT then
    let l : Fin (NDIRECT + 1) := ⟨fbn, Nat.lt_succ_of_lt h⟩
    if din.addrs l = 0 then
      some (m.take, { din with addrs := Function.update din.addrs l (UInt32.ofNat m.freeblock) },
        (UInt32.ofNat m.freeblock).toNat)
    else some (m, din, (din.addrs l).toNat)
  else if din.addrs indirectSlot = 0 then
    entryAt m.take { din with
      addrs := Function.update din.addrs indirectSlot (UInt32.ofNat m.freeblock) } (fbn - NDIRECT)
  else entryAt m din (fbn - NDIRECT)

/-- The loop of `iappend`, which has written the first `tot` of `n` bytes. -/
def iappendLoop (p : Bytes) (n : ℕ) (m : Img) (din : Dinode) (tot off : ℕ) :
    Option (Img × Dinode × ℕ) := do
  if _h : tot < n then
    let fbn := off / BSIZE
    if MAXFILE ≤ fbn then none
    let (m, din, x) ← blockAt m din fbn
    let n1 := min (n - tot) ((fbn + 1) * BSIZE - off)
    let buf ← rsect m x
    iappendLoop p n (wsect m x (buf.blit (off - fbn * BSIZE) n1 (p.drop tot))) din (tot + n1)
      (off + n1)
  else return (m, din, off)
termination_by n - tot
decreasing_by
  have : off / 512 * 512 + off % 512 = off := Nat.div_add_mod' off 512
  have : off % 512 < 512 := Nat.mod_lt _ (by norm_num)
  simp only [BSIZE]
  omega

/-- `iappend`. -/
def iappend (m : Img) (inum : ℕ) (p : List UInt8) : Option Img := do
  let din ← rinode m inum
  let (m, din, off) ← iappendLoop (fun k => p.getD k 0) p.length m din 0 din.size.toNat
  winode m inum { din with size := UInt32.ofNat off }

/-- The bitmap block with the first `used` bits set. -/
def bitmap (used : ℕ) : Bytes := (List.range used).foldl (fun buf i => buf.setBit i) Bytes.zero

/-- `balloc`. -/
def balloc (m : Img) : Option Img :=
  if m.usedblocks < BSIZE * 8 then
    some (wsect m (ninodes / IPB + 3) (bitmap m.usedblocks))
  else none

/-- The superblock and the root directory. -/
def start : Option Img := do
  let usedblocks := ninodes / IPB + 3 + (size / (512 * 8) + 1)
  if nblocks + usedblocks + LOGSIZE ≠ size then none
  let m : Img := ⟨fun _ => Bytes.zero, 1, usedblocks, usedblocks⟩
  let m := wsect m 1 ((((Bytes.zero.put32 0 size).put32 4 nblocks).put32 8 ninodes).put32 12 LOGSIZE)
  let (m, rootino) ← ialloc m T_DIR
  if rootino ≠ ROOTINO then none
  let m ← iappend m rootino ((List.range DESIZE).map (dirent rootino [46]))
  iappend m rootino ((List.range DESIZE).map (dirent rootino [46, 46]))

/-- Copy one input file. -/
def addFile (m : Img) (f : HostFile) : Option Img := do
  if slash ∈ f.name then none
  -- skip the leading _ in the name
  let name := if f.name.head? = some 95 then f.name.tail else f.name
  let (m, inum) ← ialloc m T_FILE
  let m ← iappend m ROOTINO ((List.range DESIZE).map (dirent inum name))
  f.reads.foldlM (fun m buf => iappend m inum buf) m

/-- Round the size of the root directory up, and write the bitmap. -/
def finish (m : Img) : Option Img := do
  let din ← rinode m ROOTINO
  let off := (din.size.toNat / BSIZE + 1) * BSIZE
  let m ← winode m ROOTINO { din with size := UInt32.ofNat off }
  balloc m

/-- `mkfs`. -/
def mkfs (files : List HostFile) : Option Img := do
  let m ← start
  let m ← files.foldlM addFile m
  finish m

end Nunix.Fs.Mkfs
