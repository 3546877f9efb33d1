/-
Nunix/Vm/Paging.lean

Physical pages and page tables: the allocator of kalloc.c and the functions of vm.c.

A pointer that the kernel gets from `kalloc` is `p2v` of a page-aligned physical
address, so a page is named by its physical page number, and the memory is one byte
array for each page.  A page directory and a page table are pages that are read as 1024
little-endian words; a `pte_t *` is a page number and an index.  The free list is the
list of page numbers on it (the link that `kfree` stores in a free page is not in the
page).  Where the code dereferences a null pointer the run stops.

The trace records what later statements speak of: the user pages that `allocuvm` maps,
the stores of `loaduvm`, and the page tables for which `walkpgdir` found no page.
-/
import Nunix.Bytes
import Nunix.Hoare
import Nunix.Params

namespace Nunix.Vm

/-! ### Addresses and entries -/

def PGSIZE : ℕ := 4096
def NPDENTRIES : ℕ := 1024
def NPTENTRIES : ℕ := 1024

def EXTMEM : ℕ := 0x100000
def PHYSTOP : ℕ := 0xE000000
def DEVSPACE : ℕ := 0xFE000000
def KERNLINK : ℕ := KERNBASE + EXTMEM

/-- Where the linker puts the symbols `data` and `end` (kernel.sym). -/
def data : ℕ := 0x80109000
def end_ : ℕ := 0x8011541c

def V2P (a : ℕ) : ℕ := a - KERNBASE

def PDX (va : ℕ) : ℕ := va / 2 ^ 22 % 1024
def PTX (va : ℕ) : ℕ := va / 2 ^ 12 % 1024

def PGROUNDUP (sz : ℕ) : ℕ := (sz + PGSIZE - 1) % 2 ^ 32 / PGSIZE * PGSIZE
def PGROUNDDOWN (a : ℕ) : ℕ := a / PGSIZE * PGSIZE

def PTE_P : ℕ := 1
def PTE_W : ℕ := 2
def PTE_U : ℕ := 4

/-- The page of an entry (`PTE_ADDR`), and its flags (`PTE_FLAGS`). -/
def PTE_PAGE (e : ℕ) : ℕ := e / PGSIZE
def PTE_FLAGS (e : ℕ) : ℕ := e % PGSIZE

/-- `e & PTE_P` and `e & PTE_U`. -/
def Present (e : ℕ) : Prop := e % 2 = 1
def User (e : ℕ) : Prop := e / 4 % 2 = 1

instance (e : ℕ) : Decidable (Present e) := inferInstanceAs (Decidable (_ = _))
instance (e : ℕ) : Decidable (User e) := inferInstanceAs (Decidable (_ = _))

/-! ### The state -/

/-- What the trace records: `mapped v p`, `allocuvm` mapped the page `p` at the virtual
page `v`; `stored v p`, `loaduvm` stored into the page `p` for the virtual page `v`;
`noTable`, `walkpgdir` had no page for a page table. -/
inductive Ev
  | mapped (v p : ℕ)
  | stored (v p : ℕ)
  | noTable
  deriving DecidableEq, Repr

structure St where
  mem : ℕ → Bytes
  freelist : List ℕ
  trace : List Ev

/-- Why the kernel stops. -/
inductive Halt
  | panic (msg : String)
  | nullPointer
  deriving DecidableEq, Repr

abbrev VmM : Type → Type := EStateM Halt St

def note (ev : Ev) : VmM Unit := modify fun s => { s with trace := s.trace ++ [ev] }

/-- Replace the contents of the page `p`. -/
def setPage (p : ℕ) (b : Bytes) : VmM Unit :=
  modify fun s => { s with mem := Function.update s.mem p b }

/-- The word `i` of the page `p`. -/
def load (p i : ℕ) : VmM ℕ := return ((← get).mem p).get32 (4 * i)

def store (p i w : ℕ) : VmM Unit :=
  modify fun s => { s with mem := Function.update s.mem p ((s.mem p).put32 (4 * i) w) }

/-! ### kalloc.c -/

/-- The junk that `kfree` fills a page with. -/
def junk : Bytes := fun _ => 1

def kfree (v : ℕ) : VmM Unit := do
  if v * PGSIZE < V2P end_ ∨ PHYSTOP ≤ v * PGSIZE then throw (.panic "kfree")
  setPage v junk
  modify fun s => { s with freelist := v :: s.freelist }

def kalloc : VmM (Option ℕ) := do
  match (← get).freelist with
  | [] => return none
  | r :: next =>
    modify fun s => { s with freelist := next }
    return some r

/-! ### Page tables -/

def walkpgdir (pgdir va : ℕ) (alloc : Bool) : VmM (Option (ℕ × ℕ)) := do
  let pde ← load pgdir (PDX va)
  if Present pde then return some (PTE_PAGE pde, PTX va)
  else if !alloc then return none
  else
    match ← kalloc with
    | none =>
      note .noTable
      return none
    | some pgtab =>
      setPage pgtab Bytes.zero
      store pgdir (PDX va) (pgtab * PGSIZE + (PTE_P + PTE_W + PTE_U))
      return some (pgtab, PTX va)

/-- The body of the loop of `mappages`: whether the page table was there or could be
allocated.  The address `pa` is page-aligned, so that `pa | perm | PTE_P` is a sum. -/
def mappage (pgdir a pa perm : ℕ) : VmM Bool := do
  match ← walkpgdir pgdir a true with
  | none => return false
  | some (pgtab, i) =>
    if Present (← load pgtab i) then throw (.panic "remap")
    store pgtab i (pa + (perm ||| PTE_P))
    return true

/-- The loop of `mappages`, with `n` more pages to map after the one at `a`. -/
def mappagesLoop (pgdir perm : ℕ) : ℕ → ℕ → ℕ → VmM Bool
  | 0, a, pa => mappage pgdir a pa perm
  | n + 1, a, pa => do
    if ← mappage pgdir a pa perm then mappagesLoop pgdir perm n (a + PGSIZE) (pa + PGSIZE)
    else return false

def mappages (pgdir va size pa perm : ℕ) : VmM Bool :=
  let a := PGROUNDDOWN va
  let last := PGROUNDDOWN ((va + size + (2 ^ 32 - 1)) % 2 ^ 32)
  mappagesLoop pgdir perm ((last + 2 ^ 32 - a) % 2 ^ 32 / PGSIZE) a pa

structure Kmap where
  virt : ℕ
  phys_start : ℕ
  phys_end : ℕ
  perm : ℕ

def kmap : List Kmap :=
  [⟨KERNBASE, 0, EXTMEM, PTE_W⟩,
   ⟨KERNLINK, V2P KERNLINK, V2P data, 0⟩,
   ⟨data, V2P data, PHYSTOP, PTE_W⟩,
   ⟨DEVSPACE, DEVSPACE, 0, PTE_W⟩]

/-- The loop of `setupkvm` over the entries of `kmap`. -/
def mapKernel (pgdir : ℕ) : List Kmap → VmM Bool
  | [] => return true
  | k :: ks => do
    let size := (k.phys_end + 2 ^ 32 - k.phys_start) % 2 ^ 32
    if ← mappages pgdir k.virt size k.phys_start k.perm then mapKernel pgdir ks
    else return false

/-- `setupkvm`; when the mappings fail, the pages allocated so far are not given back. -/
def setupkvm : VmM (Option ℕ) := do
  match ← kalloc with
  | none => return none
  | some pgdir =>
    setPage pgdir Bytes.zero
    if ← mapKernel pgdir kmap then return some pgdir
    else return none

/-! ### User memory -/

/-- The loop of `deallocuvm`; an absent page table is stepped over as a whole. -/
def deallocuvmLoop (pgdir oldsz a : ℕ) : VmM Unit := do
  if _h : a < oldsz then
    match ← walkpgdir pgdir a false with
    | none => deallocuvmLoop pgdir oldsz (a + (NPTENTRIES - 1) * PGSIZE + PGSIZE)
    | some (pgtab, i) =>
      let pte ← load pgtab i
      if Present pte then
        if PTE_PAGE pte = 0 then throw (.panic "kfree")
        kfree (PTE_PAGE pte)
        store pgtab i 0
      deallocuvmLoop pgdir oldsz (a + PGSIZE)
  else return ()
termination_by oldsz - a
decreasing_by all_goals simp only [PGSIZE, NPTENTRIES]; omega

def deallocuvm (pgdir oldsz newsz : ℕ) : VmM ℕ := do
  if newsz ≥ oldsz then return oldsz
  deallocuvmLoop pgdir oldsz (PGROUNDUP newsz)
  return newsz

/-- The loop of `allocuvm`; the result of `mappages` is not looked at. -/
def allocuvmLoop (pgdir oldsz newsz a : ℕ) : VmM ℕ := do
  if _h : a < newsz then
    match ← kalloc with
    | none =>
      let _ ← deallocuvm pgdir newsz oldsz
      return 0
    | some mem =>
      setPage mem Bytes.zero
      let ok ← mappages pgdir a PGSIZE (mem * PGSIZE) (PTE_W + PTE_U)
      if ok then note (.mapped (a / PGSIZE) mem)
      allocuvmLoop pgdir oldsz newsz (a + PGSIZE)
  else return newsz
termination_by newsz - a
decreasing_by simp only [PGSIZE]; omega

def allocuvm (pgdir oldsz newsz : ℕ) : VmM ℕ := do
  if newsz ≥ KERNBASE then return 0
  if newsz < oldsz then return oldsz
  allocuvmLoop pgdir oldsz newsz (PGROUNDUP oldsz)

/-- The loop of `freevm` over the entries `i`, `i + 1`, … of the page directory, `n` of
them. -/
def freeTables (pgdir : ℕ) : ℕ → ℕ → VmM Unit
  | 0, _ => return ()
  | n + 1, i => do
    let pde ← load pgdir i
    if Present pde then kfree (PTE_PAGE pde)
    freeTables pgdir n (i + 1)

def freevm (pgdir : Option ℕ) : VmM Unit := do
  match pgdir with
  | none => throw (.panic "freevm: no pgdir")
  | some pgdir =>
    let _ ← deallocuvm pgdir KERNBASE 0
    freeTables pgdir NPDENTRIES 0
    kfree pgdir

def clearpteu (pgdir uva : ℕ) : VmM Unit := do
  match ← walkpgdir pgdir uva false with
  | none => throw (.panic "clearpteu")
  | some (pgtab, i) =>
    let pte ← load pgtab i
    store pgtab i (if User pte then pte - PTE_U else pte)

/-- The loop of `copyuvm`; when `mappages` fails, the page `mem` is not given back. -/
def copyuvmLoop (pgdir d sz i : ℕ) : VmM (Option ℕ) := do
  if _h : i < sz then
    match ← walkpgdir pgdir i false with
    | none => throw (.panic "copyuvm: pte should exist")
    | some (pgtab, j) =>
      let pte ← load pgtab j
      if ¬ Present pte then throw (.panic "copyuvm: page not present")
      match ← kalloc with
      | none =>
        freevm (some d)
        return none
      | some mem =>
        setPage mem ((← get).mem (PTE_PAGE pte))
        if ← mappages d i PGSIZE (mem * PGSIZE) (PTE_FLAGS pte) then
          copyuvmLoop pgdir d sz (i + PGSIZE)
        else
          freevm (some d)
          return none
  else return some d
termination_by sz - i
decreasing_by simp only [PGSIZE]; omega

def copyuvm (pgdir sz : ℕ) : VmM (Option ℕ) := do
  match ← setupkvm with
  | none => return none
  | some d => copyuvmLoop pgdir d sz 0

/-- `uva2ka`: the page of a user address; the result of `walkpgdir` is not checked. -/
def uva2ka (pgdir uva : ℕ) : VmM (Option ℕ) := do
  match ← walkpgdir pgdir uva false with
  | none => throw .nullPointer
  | some (pgtab, i) =>
    let pte ← load pgtab i
    if ¬ Present pte then return none
    if ¬ User pte then return none
    return some (PTE_PAGE pte)

def copyout (pgdir va : ℕ) (buf : Bytes) (len : ℕ) : VmM ℤ := do
  if _h : 0 < len then
    let va0 := PGROUNDDOWN va
    match ← uva2ka pgdir va0 with
    | none => return -1
    | some pa0 =>
      let n := min (PGSIZE - (va - va0)) len
      setPage pa0 (((← get).mem pa0).blit (va - va0) n buf)
      copyout pgdir ((va0 + PGSIZE) % 2 ^ 32) (buf.drop n) (len - n)
  else return 0
termination_by len
decreasing_by
  have : va / 4096 * 4096 ≤ va := Nat.div_mul_le_self va 4096
  have : va < va / 4096 * 4096 + 4096 := by omega
  simp only [PGSIZE, PGROUNDDOWN]
  omega

/-! ### Loading a file -/

/-- A file as `exec` sees it: the bytes of a regular inode, at most
`MAXFILE * BSIZE` of them. -/
structure File where
  content : Bytes
  size : ℕ
  size_le : size ≤ MAXFILE * BSIZE

/-- `readi` of a regular file: the result and the buffer. -/
def File.readi (f : File) (dst : Bytes) (off n : ℕ) : ℤ × Bytes :=
  if off > f.size ∨ (off + n) % 2 ^ 32 < off then (-1, dst)
  else
    let n := if (off + n) % 2 ^ 32 > f.size then f.size - off else n
    (n, dst.blit 0 n (f.content.drop off))

/-- The loop of `loaduvm`. -/
def loaduvmLoop (pgdir addr : ℕ) (ip : File) (offset sz i : ℕ) : VmM ℤ := do
  if _h : i < sz then
    match ← walkpgdir pgdir ((addr + i) % 2 ^ 32) false with
    | none => throw (.panic "loaduvm: address should exist")
    | some (pgtab, j) =>
      let pa := PTE_PAGE (← load pgtab j)
      let n := if sz - i < PGSIZE then sz - i else PGSIZE
      let (r, b) := ip.readi ((← get).mem pa) ((offset + i) % 2 ^ 32) n
      setPage pa b
      note (.stored ((addr + i) % 2 ^ 32 / PGSIZE) pa)
      if r ≠ n then return -1
      loaduvmLoop pgdir addr ip offset sz (i + PGSIZE)
  else return 0
termination_by sz - i
decreasing_by simp only [PGSIZE]; omega

def loaduvm (pgdir addr : ℕ) (ip : File) (offset sz : ℕ) : VmM ℤ := do
  if addr % PGSIZE ≠ 0 then throw (.panic "loaduvm: addr must be page aligned")
  loaduvmLoop pgdir addr ip offset sz 0

end Nunix.Vm
