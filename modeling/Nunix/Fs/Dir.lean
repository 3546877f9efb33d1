/-
Nunix/Fs/Dir.lean

Directories and path names (fs.c), and the system calls that change them
(sysfile.c): `create`, `sys_link` and `sys_unlink`; and `filewrite` (file.c), which
splits a write into transactions.

A path is the list of its bytes up to the terminating NUL.  A name is the list of
its bytes up to the first NUL, at most `DIRSIZ` of them; `strncmp` and `strncpy` on
`DIRSIZ` bytes see no more than that.  A directory entry is 16 bytes: a 16-bit inode
number and the name, padded with NUL bytes.
-/
import Nunix.Fs.Inode

namespace Nunix.Fs

open Bytes

/-! ### Directory entries -/

/-- `sizeof(struct dirent)`. -/
def DESIZE : ℕ := 16

/-- The inode number of an entry. -/
def deInum (de : Bytes) : ℕ := de.get16 0

/-- The name in an entry. -/
def deName (de : Bytes) : List UInt8 :=
  ((List.range DIRSIZ).map fun i => de (2 + i)).takeWhile (· ≠ 0)

/-- The entry for a name: `strncpy` and the assignment to the 16-bit field. -/
def dirent (inum : ℕ) (name : List UInt8) : Bytes := fun k =>
  if k < 2 then byte inum k else (name.take DIRSIZ).getD (k - 2) 0

/-- `namecmp`. -/
def namecmp (s t : List UInt8) : Bool := s.take DIRSIZ ≠ t.take DIRSIZ

/-- The loop of `dirlookup`, over a directory of `size` bytes. -/
def dirlookupLoop (dp : ℕ) (name : List UInt8) (size off : ℕ) : FsM (Option (ℕ × ℕ)) := do
  if _h : off < size then
    let (r, de) ← readi dp Bytes.zero off DESIZE
    if r ≠ DESIZE then panic .dirlinkRead
    if deInum de ≠ 0 ∧ namecmp name (deName de) = false then
      let ip ← iget (deInum de)
      return some (ip, off)
    dirlookupLoop dp name size (off + DESIZE)
  else return none
termination_by size - off
decreasing_by
  simp only [DESIZE]
  omega

/-- `dirlookup`: the inode found and the offset of its entry. -/
def dirlookup (dp : ℕ) (name : List UInt8) : FsM (Option (ℕ × ℕ)) := do
  let ip ← slot dp
  if ip.type ≠ T_DIR then panic .dirlookupNotDir
  dirlookupLoop dp name ip.size.toNat 0

/-- The search of `dirlink` for an empty entry: its offset, or the end. -/
def emptyLoop (dp size off : ℕ) : FsM ℕ := do
  if _h : off < size then
    let (r, de) ← readi dp Bytes.zero off DESIZE
    if r ≠ DESIZE then panic .dirlinkRead
    if deInum de = 0 then return off
    emptyLoop dp size (off + DESIZE)
  else return off
termination_by size - off
decreasing_by
  simp only [DESIZE]
  omega

/-- `dirlink`. -/
def dirlink (dp : ℕ) (name : List UInt8) (inum : ℕ) : FsM ℤ := do
  if let some (ip, _) ← dirlookup dp name then
    iput ip
    return -1
  let off ← emptyLoop dp (← slot dp).size.toNat 0
  let r ← writei dp (dirent inum name) off DESIZE
  if r ≠ DESIZE then panic .dirlink
  return 0

/-! ### Paths -/

/-- The byte of `/`. -/
def slash : UInt8 := 47

/-- `skipelem`: the rest of the path and the next name. -/
def skipelem (path : List UInt8) : Option (List UInt8 × List UInt8) :=
  match path.dropWhile (· = slash) with
  | [] => none
  | c :: cs =>
      let elem := (c :: cs).takeWhile (· ≠ slash)
      let rest := (c :: cs).dropWhile (· ≠ slash)
      some (rest.dropWhile (· = slash), elem.take DIRSIZ)

theorem skipelem_length {path rest name : List UInt8}
    (h : skipelem path = some (rest, name)) : rest.length < path.length := by
  have hdrop : ∀ (f : UInt8 → Bool) (l : List UInt8), (l.dropWhile f).length ≤ l.length :=
    fun f l => (List.dropWhile_sublist f).length_le
  unfold skipelem at h
  split at h
  · cases h
  · rename_i c cs e
    obtain ⟨rfl, -⟩ := Prod.mk.inj (Option.some.inj h)
    have hlen := hdrop (· = slash) path
    rw [e, List.length_cons] at hlen
    -- the element starts at `c`, which is no slash
    have hc : decide (c ≠ slash) = true := by
      have := List.head?_dropWhile_not (· = slash) path
      rw [e] at this
      simpa using this
    rw [List.dropWhile_cons, if_pos hc]
    exact ((hdrop _ _).trans (hdrop _ _)).trans_lt hlen

/-- The loop of `namex` from the inode `ip`; the name is the last one copied. -/
def namexLoop (parent : Bool) (path : List UInt8) (ip : ℕ) (name : List UInt8) :
    FsM (Option (ℕ × List UInt8)) := do
  match _h : skipelem path with
  | some (rest, name) =>
      ilock ip
      if (← slot ip).type ≠ T_DIR then
        iunlockput ip
        return none
      if parent ∧ rest = [] then
        iunlock ip
        return some (ip, name)
      match ← dirlookup ip name with
      | none =>
          iunlockput ip
          return none
      | some (next, _) =>
          iunlockput ip
          namexLoop parent rest next name
  | none =>
      if parent then
        iput ip
        return none
      return some (ip, name)
termination_by path.length
decreasing_by exact skipelem_length _h

/-- `namex`. -/
def namex (path : List UInt8) (parent : Bool) : FsM (Option (ℕ × List UInt8)) := do
  let ip ← if path.head? = some slash then iget ROOTINO else idup (← get).cwd
  namexLoop parent path ip []

/-- `namei`. -/
def namei (path : List UInt8) : FsM (Option ℕ) := do
  match ← namex path false with
  | some (ip, _) => return some ip
  | none => return none

/-- `nameiparent`. -/
def nameiparent (path : List UInt8) : FsM (Option (ℕ × List UInt8)) := namex path true

/-! ### System calls -/

/-- `create`: the inode, locked. -/
def create (path : List UInt8) (type major minor : Int16) : FsM (Option ℕ) := do
  let some (dp, name) ← nameiparent path | return none
  ilock dp
  if let some (ip, _) ← dirlookup dp name then
    iunlockput dp
    ilock ip
    if type = T_FILE ∧ (← slot ip).type = T_FILE then return some ip
    iunlockput ip
    return none
  let ip ← ialloc type
  ilock ip
  modifySlot ip fun i => { i with major := major, minor := minor, nlink := 1 }
  iupdate ip
  if type = T_DIR then
    -- no link is counted for ".", to avoid a cyclic count
    modifySlot dp fun i => { i with nlink := i.nlink + 1 }
    iupdate dp
    if (← dirlink ip [46] (← slot ip).inum) < 0 then panic .createDots
    if (← dirlink ip [46, 46] (← slot dp).inum) < 0 then panic .createDots
  if (← dirlink dp name (← slot ip).inum) < 0 then panic .createDirlink
  iunlockput dp
  return some ip

/-- The exit `bad` of `sys_link`: take the link count back. -/
def sysLinkBad (ip : ℕ) : FsM ℤ := do
  ilock ip
  modifySlot ip fun i => { i with nlink := i.nlink - 1 }
  iupdate ip
  iunlockput ip
  endOp
  return -1

/-- `sys_link`. -/
def sysLink (old new : List UInt8) : FsM ℤ := do
  beginOp
  let some ip ← namei old | do
    endOp
    return -1
  ilock ip
  if (← slot ip).type = T_DIR then
    iunlockput ip
    endOp
    return -1
  modifySlot ip fun i => { i with nlink := i.nlink + 1 }
  iupdate ip
  iunlock ip
  let some (dp, name) ← nameiparent new | sysLinkBad ip
  ilock dp
  if (← dirlink dp name (← slot ip).inum) < 0 then
    iunlockput dp
    sysLinkBad ip
  else
    iunlockput dp
    iput ip
    endOp
    return 0

/-- The loop of `isdirempty`. -/
def isdiremptyLoop (dp size off : ℕ) : FsM Bool := do
  if _h : off < size then
    let (r, de) ← readi dp Bytes.zero off DESIZE
    if r ≠ DESIZE then panic .isdiremptyReadi
    if deInum de ≠ 0 then return false
    isdiremptyLoop dp size (off + DESIZE)
  else return true
termination_by size - off
decreasing_by
  simp only [DESIZE]
  omega

/-- `isdirempty`. -/
def isdirempty (dp : ℕ) : FsM Bool := do
  isdiremptyLoop dp (← slot dp).size.toNat (2 * DESIZE)

/-- The exit `bad` of `sys_unlink`. -/
def sysUnlinkBad (dp : ℕ) : FsM ℤ := do
  iunlockput dp
  endOp
  return -1

/-- `sys_unlink`. -/
def sysUnlink (path : List UInt8) : FsM ℤ := do
  beginOp
  let some (dp, name) ← nameiparent path | do
    endOp
    return -1
  ilock dp
  -- cannot unlink "." or ".."
  if namecmp name [46] = false ∨ namecmp name [46, 46] = false then
    return ← sysUnlinkBad dp
  let some (ip, off) ← dirlookup dp name | sysUnlinkBad dp
  ilock ip
  if (← slot ip).nlink < 1 then panic .unlinkNlink
  if (← slot ip).type = T_DIR then
    if (← isdirempty ip) = false then
      iunlockput ip
      return ← sysUnlinkBad dp
  let r ← writei dp Bytes.zero off DESIZE
  if r ≠ DESIZE then panic .unlinkWritei
  if (← slot ip).type = T_DIR then
    modifySlot dp fun i => { i with nlink := i.nlink - 1 }
    iupdate dp
  iunlockput dp
  modifySlot ip fun i => { i with nlink := i.nlink - 1 }
  iupdate ip
  iunlockput ip
  endOp
  return 0

/-- The end of `sysUnlink`, after the entry was cleared: drop the link and the
references. -/
def sysUnlinkEnd (dp ip : ℕ) : FsM ℤ := do
  iunlockput dp
  modifySlot ip fun i => { i with nlink := i.nlink - 1 }
  iupdate ip
  iunlockput ip
  endOp
  return 0

/-- The part of `sysUnlink` that clears the entry. -/
def sysUnlinkClear (dp ip off : ℕ) : FsM ℤ := do
  let r ← writei dp Bytes.zero off DESIZE
  if r ≠ DESIZE then panic .unlinkWritei
  if (← slot ip).type = T_DIR then
    modifySlot dp fun i => { i with nlink := i.nlink - 1 }
    iupdate dp
  sysUnlinkEnd dp ip

/-! ### filewrite -/

/-- The most bytes `filewrite` writes in one transaction. -/
def writeMax : ℕ := ((LOGSIZE - 1 - 1 - 2) / 2) * 512

/-- The loop of `filewrite`, with `i` bytes written at offset `off`. -/
def filewriteLoop (k : ℕ) (src : Bytes) (n i off : ℕ) : FsM (ℤ × ℕ) := do
  if _h : i < n then
    let n1 := if n - i > writeMax then writeMax else n - i
    beginOp
    ilock k
    let r ← writei k (src.drop i) off n1
    let off' := if r > 0 then (off + r.toNat) % 2 ^ 32 else off
    iunlock k
    endOp
    if r < 0 then return (-1, off')
    if r ≠ n1 then panic .shortFilewrite
    filewriteLoop k src n (i + n1) off'
  else return (n, off)
termination_by n - i
decreasing_by
  have hmax : writeMax = 6656 := rfl
  rw [hmax]
  split_ifs <;> omega

/-- `filewrite` of `n` bytes to a writable `FD_INODE` file at offset `off`: the
result and the new offset. -/
def filewrite (k : ℕ) (src : Bytes) (off : ℕ) (n : ℤ) : FsM (ℤ × ℕ) :=
  if n < 0 then return (-1, off) else filewriteLoop k src n.toNat 0 off

end Nunix.Fs
