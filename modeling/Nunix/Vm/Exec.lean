/-
Nunix/Vm/Exec.lean

`exec` (exec.c), with the file it loads and the arguments it is given.

The file is read through `readi`, the headers at their offsets in `struct elfhdr` and
`struct proghdr`.  A `goto bad` is the result `none` of the part it stands in.  The name
that is kept for debugging is left out.  The two definitions at the end are irreducible:
the sums of page sizes in them are not to be evaluated in unary.
-/
import Nunix.Vm.Growproc
import Nunix.Fs.Sys

namespace Nunix.Vm

open Fs (CStr)

def ELF_MAGIC : ℕ := 0x464C457F
def ELF_PROG_LOAD : ℕ := 1
def MAXARG : ℕ := 32

/-- The registers of the trap frame that `exec` sets. -/
structure Trapframe where
  eip : ℕ
  esp : ℕ

/-- The loop over the program headers: `n` headers are left, the next at offset `off`, and
the image has size `sz`. -/
def execLoop (pgdir : ℕ) (ip : File) : ℕ → ℕ → ℕ → VmM (Option ℕ)
  | 0, _, sz => return some sz
  | n + 1, off, sz => do
    let (r, ph) := ip.readi Bytes.zero off 32
    if r ≠ 32 then return none
    else if ph.get32 0 ≠ ELF_PROG_LOAD then execLoop pgdir ip n ((off + 32) % 2 ^ 32) sz
    else
      let (offset, vaddr) := (ph.get32 4, ph.get32 8)
      let (filesz, memsz) := (ph.get32 16, ph.get32 20)
      if memsz < filesz then return none
      else
        let sz ← allocuvm pgdir sz ((vaddr + memsz) % 2 ^ 32)
        if sz = 0 then return none
        else
          if (← loaduvm pgdir vaddr ip offset filesz) < 0 then return none
          else execLoop pgdir ip n ((off + 32) % 2 ^ 32) sz

/-- The bytes of a string, with its NUL. -/
def strBytes (arg : CStr) : Bytes := fun i => arg.bytes.getD i 0

/-- An array of words in memory. -/
def wordBytes (ws : List ℕ) : Bytes := fun i => Bytes.byte (ws.getD (i / 4) 0) (i % 4)

/-- The loop that pushes the argument strings: the stack pointer and the addresses of the
strings. -/
def pushArgs (pgdir : ℕ) : List CStr → ℕ → List ℕ → VmM (Option (ℕ × List ℕ))
  | [], sp, ptrs => return some (sp, ptrs)
  | arg :: argv, sp, ptrs => do
    if ptrs.length ≥ MAXARG then return none
    else
      let len := arg.bytes.length + 1
      let sp := (sp + 2 ^ 32 - len % 2 ^ 32) % 2 ^ 32 / 4 * 4
      if (← copyout pgdir sp (strBytes arg) (len % 2 ^ 32)) < 0 then return none
      else pushArgs pgdir argv sp (ptrs ++ [sp])

/-- The two stack pages and the arguments: the size of the image and the stack pointer. -/
@[irreducible] def execStack (pgdir sz : ℕ) (argv : List CStr) : VmM (Option (ℕ × ℕ)) := do
  let sz := PGROUNDUP sz
  let sz ← allocuvm pgdir sz ((sz + 2 * PGSIZE) % 2 ^ 32)
  if sz = 0 then return none
  else
    clearpteu pgdir (sz - 2 * PGSIZE)
    match ← pushArgs pgdir argv sz [] with
    | none => return none
    | some (sp, ptrs) =>
      let argc := ptrs.length
      let ustack := [0xffffffff, argc, (sp + 2 ^ 32 - (argc + 1) * 4) % 2 ^ 32] ++ ptrs ++ [0]
      let sp := (sp + 2 ^ 32 - (3 + argc + 1) * 4) % 2 ^ 32
      if (← copyout pgdir sp (wordBytes ustack) ((3 + argc + 1) * 4)) < 0 then return none
      else return some (sz, sp)

/-- `exec`: the result, and what it makes of the process.  The result of the first `readi`
is compared as an unsigned number. -/
@[irreducible] def exec (ip : Option File) (argv : List CStr) (proc : UProc) (tf : Trapframe) :
    VmM (ℤ × UProc × Trapframe) := do
  match ip with
  | none => return (-1, proc, tf)
  | some ip =>
    let (r, elf) := ip.readi Bytes.zero 0 52
    if Bytes.ofInt32 r < 52 then return (-1, proc, tf)
    else if elf.get32 0 ≠ ELF_MAGIC then return (-1, proc, tf)
    else
      match ← setupkvm with
      | none => return (-1, proc, tf)
      | some pgdir =>
        let image ← do
          match ← execLoop pgdir ip (elf.get16 44) (elf.get32 28) 0 with
          | none => pure none
          | some sz => execStack pgdir sz argv
        match image with
        | none =>
          freevm (some pgdir)
          return (-1, proc, tf)
        | some (sz, sp) =>
          freevm (some proc.pgdir)
          return (0, ⟨pgdir, sz⟩, ⟨elf.get32 24, sp⟩)

end Nunix.Vm
