/-
Nunix/Fs/Sys.lean

The file system calls of processes (sysfile.c, file.c, and the parts of proc.c and
exec.c that touch files).

Processes share the file system, the table of open files and the pipes.  A process has its
open files and its current directory; while a call of process `p` runs, the current
directory of the file system state is that of `p`.  String arguments are what `argstr`
makes of them: nothing, if the address is bad, or the bytes in front of a NUL.  Of the
contents of pipes and of memory only the outcomes that calls depend on appear, as arguments
of the call: what a pipe returns, the page `kalloc` and the slot `allocproc` have to offer,
what `exec` finds of its memory.  A slot keeps its `ofile` while it is not in use.

Two histories are kept beside the state: `leases` says when a file table entry got and lost
what it refers to and when a page was taken for a pipe and freed, `frees` lists the pages
that were freed, each with whether a file still referred to it.
-/
import Nunix.Fs.Dir
import Nunix.Lease

namespace Nunix.Fs

open Bytes

/-! ### State -/

/-- A string found by `argstr`. -/
structure CStr where
  bytes : List UInt8
  noNul : (0 : UInt8) ∉ bytes

/-- The type of an open file. -/
inductive FileType
  | none
  | pipe
  | inode
  deriving DecidableEq

/-- `struct file`. -/
structure File where
  type : FileType
  ref : ℤ
  readable : Bool
  writable : Bool
  pipe : ℕ
  ip : ℕ
  off : ℕ

/-- The flags of `struct pipe`. -/
structure PipeEnds where
  readopen : Bool
  writeopen : Bool

/-- What a slot of the process table has of the file system; `live` says that a process
runs in it. -/
structure Proc where
  live : Bool
  ofile : ℕ → Option ℕ
  cwd : ℕ

/-- What is taken and given back: what entry `f` of the file table refers to, and pages. -/
inductive Res
  | file (f : ℕ)
  | page (pg : ℕ)
  deriving DecidableEq

/-- The file system, the table of open files, the pipes by their page, and the processes. -/
structure SysSt where
  fs : FsSt
  ftable : ℕ → File
  pipe : ℕ → PipeEnds
  proc : ℕ → Proc
  leases : List (Lease Res)
  frees : List (ℕ × Bool)

/-- Why a call does not return. -/
inductive Stop
  | fs (why : Halt)
  | filedup
  | fileclose
  | fileread
  | filewrite
  | initExiting
  | loaduvm
  /-- `kalloc` does not return a page that is in use, nor `allocproc` such a slot. -/
  | inUse
  deriving DecidableEq

/-- Programs of a process. -/
abbrev SysM : Type → Type := EStateM Stop SysSt

/-- A program on the file system. -/
def onFs {α : Type} (m : FsM α) : SysM α := fun s =>
  match m s.fs with
  | .ok a f => .ok a { s with fs := f }
  | .error e f => .error (.fs e) { s with fs := f }

/-- Process 0 is `initproc`. -/
def initproc : ℕ := 0

/-! ### Open files -/

/-- Entry `f` of the file table. -/
def file (f : ℕ) : SysM File := return (← get).ftable f

/-- Change entry `f` of the file table. -/
def modifyFile (f : ℕ) (g : File → File) : SysM Unit :=
  modify fun s => { s with ftable := Function.update s.ftable f (g (s.ftable f)) }

/-- `filealloc`. -/
def filealloc : SysM (Option ℕ) := do
  let t := (← get).ftable
  match (List.range NFILE).find? fun f => (t f).ref == 0 with
  | some f => do
      modifyFile f fun x => { x with ref := 1 }
      return some f
  | none => return none

/-- `filedup`. -/
def filedup (f : ℕ) : SysM Unit := do
  if (← file f).ref < 1 then throw .filedup
  modifyFile f fun x => { x with ref := x.ref + 1 }

/-- Note a resource taken or given back. -/
def lease (e : Lease Res) : SysM Unit := modify fun s => { s with leases := e :: s.leases }

/-- A file refers to the pipe in page `pg`. -/
def SysSt.referred (s : SysSt) (pg : ℕ) : Bool :=
  (List.range NFILE).any fun f => (s.ftable f).type = .pipe && (s.ftable f).pipe = pg

/-- `kfree` of the page of a pipe. -/
def kfree (pg : ℕ) : SysM Unit := do
  lease (.give (.page pg))
  modify fun s => { s with frees := (pg, s.referred pg) :: s.frees }

/-- `pipeclose`. -/
def pipeclose (pg : ℕ) (writable : Bool) : SysM Unit := do
  modify fun s => { s with
    pipe := Function.update s.pipe pg
      (if writable then { s.pipe pg with writeopen := false }
      else { s.pipe pg with readopen := false }) }
  let e := (← get).pipe pg
  if e.readopen = false ∧ e.writeopen = false then kfree pg

/-- `fileclose`. -/
def fileclose (f : ℕ) : SysM Unit := do
  let ff ← file f
  if ff.ref < 1 then throw .fileclose
  if ff.ref - 1 > 0 then
    modifyFile f fun x => { x with ref := x.ref - 1 }
  else
    modifyFile f fun x => { x with ref := 0, type := .none }
    match ff.type with
    | .pipe =>
        lease (.give (.file f))
        pipeclose ff.pipe ff.writable
    | .inode =>
        lease (.give (.file f))
        onFs beginOp
        onFs (iput ff.ip)
        onFs endOp
    | .none => return ()

/-- Change the process `p`. -/
def modifyProc (p : ℕ) (g : Proc → Proc) : SysM Unit :=
  modify fun s => { s with proc := Function.update s.proc p (g (s.proc p)) }

/-- The open files of process `p`. -/
def ofile (p fd : ℕ) : SysM (Option ℕ) := return ((← get).proc p).ofile fd

/-- `argfd`: the descriptor and the file. -/
def argfd (p : ℕ) (fd : ℤ) : SysM (Option (ℕ × ℕ)) := do
  if fd < 0 ∨ fd ≥ NOFILE then return none
  return (← ofile p fd.toNat).map fun f => (fd.toNat, f)

/-- Set descriptor `fd` of process `p`. -/
def setFd (p fd : ℕ) (f : Option ℕ) : SysM Unit :=
  modifyProc p fun x => { x with ofile := Function.update x.ofile fd f }

/-- `fdalloc`. -/
def fdalloc (p f : ℕ) : SysM (Option ℕ) := do
  let x := (← get).proc p
  match (List.range NOFILE).find? fun fd => x.ofile fd == none with
  | some fd => do
      setFd p fd (some f)
      return some fd
  | none => return none

/-! ### Calls on open files -/

/-- `sys_dup`. -/
def sysDup (p : ℕ) (fd : ℤ) : SysM ℤ := do
  let some (_, f) ← argfd p fd | return -1
  let some fd' ← fdalloc p f | return -1
  filedup f
  return fd'

/-- `filestat`. -/
def filestat (f : ℕ) : SysM ℤ := do
  let x ← file f
  if x.type = .inode then
    onFs (ilock x.ip)
    onFs (iunlock x.ip)
    return 0
  return -1

/-- `fileread` of `n` bytes, where `piperead` would return `r`. -/
def fileread (f : ℕ) (n : UInt32) (r : ℤ) : SysM ℤ := do
  let x ← file f
  if x.readable = false then return -1
  match x.type with
  | .pipe => return r
  | .inode =>
      onFs (ilock x.ip)
      let (r, _) ← onFs (readi x.ip Bytes.zero x.off n.toNat)
      if r > 0 then modifyFile f fun x => { x with off := (x.off + r.toNat) % 2 ^ 32 }
      onFs (iunlock x.ip)
      return r
  | .none => throw .fileread

/-- `filewrite` of `n` bytes, where `pipewrite` would return `r`. -/
def filewriteFile (f : ℕ) (src : Bytes) (n r : ℤ) : SysM ℤ := do
  let x ← file f
  if x.writable = false then return -1
  match x.type with
  | .pipe => return r
  | .inode =>
      let (r, off) ← onFs (filewrite x.ip src x.off n)
      modifyFile f fun x => { x with off := off }
      return r
  | .none => throw .filewrite

/-- `sys_read`. -/
def sysRead (p : ℕ) (fd : ℤ) (n : UInt32) (r : ℤ) : SysM ℤ := do
  let some (_, f) ← argfd p fd | return -1
  fileread f n r

/-- `sys_write`. -/
def sysWrite (p : ℕ) (fd : ℤ) (src : Bytes) (n r : ℤ) : SysM ℤ := do
  let some (_, f) ← argfd p fd | return -1
  filewriteFile f src n r

/-- `sys_fstat`. -/
def sysFstat (p : ℕ) (fd : ℤ) : SysM ℤ := do
  let some (_, f) ← argfd p fd | return -1
  filestat f

/-- `sys_close`. -/
def sysClose (p : ℕ) (fd : ℤ) : SysM ℤ := do
  let some (fd, f) ← argfd p fd | return -1
  setFd p fd none
  fileclose f
  return 0

/-- `pipealloc`: the two files; `kalloc` is the page it finds, if any. -/
def pipealloc (kalloc : Option ℕ) : SysM (Option (ℕ × ℕ)) := do
  let some rf ← filealloc | return none
  let some wf ← filealloc | do
    fileclose rf
    return none
  let some pg := kalloc | do
    fileclose rf
    fileclose wf
    return none
  if Lease.held (.page pg) (← get).leases then throw .inUse
  lease (.take (.page pg))
  modify fun s => { s with pipe := Function.update s.pipe pg ⟨true, true⟩ }
  lease (.take (.file rf))
  modifyFile rf fun x => { x with type := .pipe, readable := true, writable := false, pipe := pg }
  lease (.take (.file wf))
  modifyFile wf fun x => { x with type := .pipe, readable := false, writable := true, pipe := pg }
  return some (rf, wf)

/-- `sys_pipe` of a good address. -/
def sysPipe (p : ℕ) (kalloc : Option ℕ) : SysM ℤ := do
  let some (rf, wf) ← pipealloc kalloc | return -1
  let some fd0 ← fdalloc p rf | do
    fileclose rf
    fileclose wf
    return -1
  let some _ ← fdalloc p wf | do
    setFd p fd0 none
    fileclose rf
    fileclose wf
    return -1
  return 0

/-! ### Calls on paths -/

/-- The modes of `open`. -/
def O_RDONLY : UInt32 := 0x000

@[inherit_doc O_RDONLY] def O_WRONLY : UInt32 := 0x001

@[inherit_doc O_RDONLY] def O_RDWR : UInt32 := 0x002

@[inherit_doc O_RDONLY] def O_CREATE : UInt32 := 0x200

/-- The inode `sys_open` opens, locked. -/
def openInode (path : List UInt8) (omode : UInt32) : FsM (Option ℕ) := do
  if omode &&& O_CREATE ≠ 0 then
    create path T_FILE 0 0
  else
    let some ip ← namei path | return none
    ilock ip
    if (← slot ip).type = T_DIR ∧ omode ≠ O_RDONLY then
      iunlockput ip
      return none
    return some ip

/-- The end of `sys_open` without a file or a descriptor. -/
def sysOpenBad (ip : ℕ) : SysM ℤ := do
  onFs (iunlockput ip)
  onFs endOp
  return -1

/-- `sys_open`. -/
def sysOpen (p : ℕ) (path : Option CStr) (omode : UInt32) : SysM ℤ := do
  let some path := path | return -1
  onFs beginOp
  let some ip ← onFs (openInode path.bytes omode) | do
    onFs endOp
    return -1
  let some f ← filealloc | sysOpenBad ip
  let some fd ← fdalloc p f | do
    fileclose f
    sysOpenBad ip
  onFs (iunlock ip)
  onFs endOp
  lease (.take (.file f))
  modifyFile f fun x => { x with
    type := .inode
    ip := ip
    off := 0
    readable := omode &&& O_WRONLY = 0
    writable := omode &&& O_WRONLY ≠ 0 ∨ omode &&& O_RDWR ≠ 0 }
  return fd

/-- `sys_mkdir` and `sys_mknod`: `create`, if there is a path, and drop the inode. -/
def createCall (path : Option CStr) (type major minor : Int16) : FsM ℤ := do
  beginOp
  let some path := path | do
    endOp
    return -1
  let some ip ← create path.bytes type major minor | do
    endOp
    return -1
  iunlockput ip
  endOp
  return 0

/-- `sys_mkdir`. -/
def sysMkdir (path : Option CStr) : FsM ℤ := createCall path T_DIR 0 0

/-- `sys_mknod`; the numbers are cut to the length of the fields. -/
def sysMknod (path : Option CStr) (major minor : Int16) : FsM ℤ :=
  createCall path T_DEV major minor

/-- `sys_link` with its arguments. -/
def sysLinkArgs (old new : Option CStr) : FsM ℤ :=
  match old, new with
  | some old, some new => sysLink old.bytes new.bytes
  | _, _ => return -1

/-- `sys_unlink` with its argument. -/
def sysUnlinkArgs (path : Option CStr) : FsM ℤ :=
  match path with
  | some path => sysUnlink path.bytes
  | none => return -1

/-- `sys_chdir`. -/
def sysChdir (p : ℕ) (path : Option CStr) : SysM ℤ := do
  onFs beginOp
  let some path := path | do
    onFs endOp
    return -1
  let some ip ← onFs (namei path.bytes) | do
    onFs endOp
    return -1
  onFs (ilock ip)
  if (← onFs (slot ip)).type ≠ T_DIR then
    onFs (iunlockput ip)
    onFs endOp
    return -1
  onFs (iunlock ip)
  onFs (iput (← get).fs.cwd)
  onFs endOp
  modifyProc p fun x => { x with cwd := ip }
  return 0

/-! ### exec -/

/-- `ELF_MAGIC`. -/
def ELF_MAGIC : ℕ := 0x464C457F

/-- `sizeof(struct elfhdr)`. -/
def ELFHDR : ℕ := 52

/-- `sizeof(struct proghdr)`. -/
def PROGHDR : ℕ := 32

/-- `ELF_PROG_LOAD`. -/
def ELF_PROG_LOAD : ℕ := 1

/-- What `exec` finds of its memory: the contents of its stack, whether `setupkvm`
succeeds, whether `allocuvm` does for header `i`, whether the address of header `i` is
aligned and its page `j` is there, and whether the part behind the loop succeeds. -/
structure ExecMem where
  stack : Bytes
  setupkvm : Bool
  allocuvm : ℕ → Bool
  aligned : ℕ → Bool
  present : ℕ → ℕ → Bool
  rest : Bool

/-- The loop of `loaduvm` for header `i`, from page `j`: whether every page was read. -/
def loaduvmLoop (mem : ExecMem) (ip i off sz j : ℕ) : SysM Bool := do
  if _h : 4096 * j < sz then
    if mem.present i j = false then throw .loaduvm
    let n := min (sz - 4096 * j) 4096
    let (r, _) ← onFs (readi ip Bytes.zero ((off + 4096 * j) % 2 ^ 32) n)
    if r ≠ n then return false
    loaduvmLoop mem ip i off sz (j + 1)
  else return true
termination_by sz - 4096 * j
decreasing_by omega

/-- The loop of `exec` over `n` program headers from header `i` at `off`: whether every
segment was loaded. -/
def execLoop (mem : ExecMem) (ip : ℕ) : ℕ → ℕ → ℕ → SysM Bool
  | 0, _, _ => return true
  | n + 1, i, off => do
      let (r, ph) ← onFs (readi ip mem.stack off PROGHDR)
      if r ≠ PROGHDR then return false
      if ph.get32 0 ≠ ELF_PROG_LOAD then
        execLoop mem ip n (i + 1) ((off + PROGHDR) % 2 ^ 32)
      else if ph.get32 20 < ph.get32 16 then return false
      else if mem.allocuvm i = false then return false
      else if mem.aligned i = false then throw .loaduvm
      else if (← loaduvmLoop mem ip i (ph.get32 4) (ph.get32 16) 0) = false then return false
      else execLoop mem ip n (i + 1) ((off + PROGHDR) % 2 ^ 32)

/-- The checks and the loop of `exec`.  `readi` returns an `int` that is compared with an
unsigned number, so -1 passes for a large number. -/
def execLoad (mem : ExecMem) (ip : ℕ) : SysM Bool := do
  let (r, elf) ← onFs (readi ip mem.stack 0 ELFHDR)
  if 0 ≤ r ∧ r < ELFHDR then return false
  if elf.get32 0 ≠ ELF_MAGIC then return false
  if mem.setupkvm = false then return false
  execLoop mem ip (elf.get16 44) 0 (elf.get32 28)

/-- `exec`. -/
def exec (mem : ExecMem) (path : List UInt8) : SysM ℤ := do
  onFs beginOp
  let some ip ← onFs (namei path) | do
    onFs endOp
    return -1
  onFs (ilock ip)
  let loaded ← execLoad mem ip
  onFs (iunlockput ip)
  onFs endOp
  return if loaded ∧ mem.rest then 0 else -1

/-- `sys_exec` with its path. -/
def sysExec (mem : ExecMem) (path : Option CStr) : SysM ℤ :=
  match path with
  | some path => exec mem path.bytes
  | none => return -1

/-! ### Processes -/

/-- The loop of `fork` over the descriptors `fds`. -/
def dupFiles (ofile : ℕ → Option ℕ) : List ℕ → SysM Unit
  | [] => return ()
  | fd :: fds => do
      if let some f := ofile fd then filedup f
      dupFiles ofile fds

/-- `fork`: `np` is the slot `allocproc` finds, if any, and `mem` says whether there is
memory for the child.  A descriptor that is not open in the parent stays as it was. -/
def fork (p : ℕ) (np : Option ℕ) (mem : Bool) : SysM ℤ := do
  let some np := np | return -1
  if np ≥ NPROC ∨ ((← get).proc np).live then throw .inUse
  if mem = false then return -1
  let x := (← get).proc p
  dupFiles x.ofile (List.range NOFILE)
  let cwd ← onFs (idup x.cwd)
  modifyProc np fun y =>
    { live := true, ofile := fun fd => if (x.ofile fd).isSome then x.ofile fd else y.ofile fd,
      cwd := cwd }
  return np

/-- The loop of `exit` over the descriptors `fds`. -/
def closeFiles (p : ℕ) : List ℕ → SysM Unit
  | [] => return ()
  | fd :: fds => do
      if let some f ← ofile p fd then
        fileclose f
        setFd p fd none
      closeFiles p fds

/-- `exit`. -/
def exit (p : ℕ) : SysM ℤ := do
  if p = initproc then throw .initExiting
  closeFiles p (List.range NOFILE)
  onFs beginOp
  onFs (iput (← get).fs.cwd)
  onFs endOp
  modifyProc p fun x => { x with live := false }
  return 0

/-! ### Runs -/

/-- The system calls. -/
inductive Call
  | open (path : Option CStr) (omode : UInt32)
  | mkdir (path : Option CStr)
  | mknod (path : Option CStr) (major minor : Int16)
  | link (old new : Option CStr)
  | unlink (path : Option CStr)
  | chdir (path : Option CStr)
  | close (fd : ℤ)
  | dup (fd : ℤ)
  | read (fd : ℤ) (n : UInt32) (r : ℤ)
  | write (fd : ℤ) (src : Bytes) (n r : ℤ)
  | fstat (fd : ℤ)
  | pipe (kalloc : Option ℕ)
  | exec (mem : ExecMem) (path : Option CStr)
  | fork (np : Option ℕ) (mem : Bool)
  | exit

/-- The body of a call by process `p`. -/
def Call.body (p : ℕ) : Call → SysM ℤ
  | .open path omode => sysOpen p path omode
  | .mkdir path => onFs (sysMkdir path)
  | .mknod path major minor => onFs (sysMknod path major minor)
  | .link old new => onFs (sysLinkArgs old new)
  | .unlink path => onFs (sysUnlinkArgs path)
  | .chdir path => sysChdir p path
  | .close fd => sysClose p fd
  | .dup fd => sysDup p fd
  | .read fd n r => sysRead p fd n r
  | .write fd src n r => sysWrite p fd src n r
  | .fstat fd => sysFstat p fd
  | .pipe kalloc => sysPipe p kalloc
  | .exec mem path => sysExec mem path
  | .fork np mem => Fs.fork p np mem
  | .exit => Fs.exit p

/-- A call by process `p`, which runs with its current directory. -/
def Call.perform (p : ℕ) (c : Call) : SysM ℤ := do
  modify fun s => { s with fs := { s.fs with cwd := (s.proc p).cwd } }
  c.body p

/-- A call that returns. -/
def callStep (s : SysSt) (e : ℕ × Call) : Option SysSt :=
  if (s.proc e.1).live then
    match e.2.perform e.1 s with
    | .ok _ s' => some s'
    | .error _ _ => none
  else none

/-- The system after boot: `initproc` runs with the root directory as its current
directory, and no file is open. -/
def SysSt.boot (fs : FsSt) : SysSt where
  fs := fs
  ftable _ := ⟨.none, 0, false, false, 0, 0, 0⟩
  pipe _ := ⟨false, false⟩
  proc p := ⟨p = initproc, fun _ => none, fs.cwd⟩
  leases := []
  frees := []

end Nunix.Fs
