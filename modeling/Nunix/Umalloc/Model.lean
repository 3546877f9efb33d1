/-
Nunix/Umalloc/Model.lean

The user memory allocator (umalloc.c).

A `Header` is eight bytes: the pointer to the next free block and the size of the block in
headers.  `base` is the address of the static header `base`; memory is the byte map
`mem`, pointers are numbers below `2 ^ 32`, and `freep = 0` is the null pointer of the
first call.

`sbrk` is the system call seen from the program: an answer is either a refusal or the
address where the new bytes start, and only bytes above everything handed out so far are
handed out (`growproc` extends the process at its end, and the static data of the program
lies below that); the end of those bytes is an address too.  Neither loop has a bound in the source: they run on fuel here, and
`none` is a call that has not come back.
-/
import Nunix.Bytes

namespace Nunix.Umalloc

open Bytes

/-- `p->s.ptr` -/
def ptr (m : Bytes) (p : ℕ) : ℕ := get32 m p

/-- `p->s.size` -/
def size (m : Bytes) (p : ℕ) : ℕ := get32 m (p + 4)

/-- `p->s.ptr = v` -/
def setPtr (m : Bytes) (p v : ℕ) : Bytes := put32 m p v

/-- `p->s.size = v` -/
def setSize (m : Bytes) (p v : ℕ) : Bytes := put32 m (p + 4) v

/-- The pointer sum `p + n` of a `Header *`. -/
def plus (p n : ℕ) : ℕ := (p + 8 * n) % 2 ^ 32

structure Heap where
  mem : Bytes
  freep : ℕ
  /-- the end of the bytes `sbrk` has handed out -/
  brk : ℕ
  /-- the number of bytes `sbrk` has handed out -/
  got : ℕ

/-- One `sbrk(n)`: `none` is the answer -1. -/
def sbrk (ans : Option ℕ) (n : ℕ) (s : Heap) : Option ℕ × Heap :=
  match ans with
  | none => (none, s)
  | some a =>
    if s.brk ≤ a ∧ a + n < 2 ^ 32 then
      (some a, { s with brk := a + n, got := s.got + n })
    else (none, s)

/-- The search of `free` for the free block after which `bp` belongs. -/
def freeLoop (m : Bytes) (bp : ℕ) : ℕ → ℕ → Option ℕ
  | 0, _ => none
  | fuel + 1, p =>
    if bp > p ∧ bp < ptr m p then some p
    else if p ≥ ptr m p ∧ (bp > p ∨ bp < ptr m p) then some p
    else freeLoop m bp fuel (ptr m p)

/-- `bp` is joined to the block that follows `p`, or linked to it. -/
def joinNext (m : Bytes) (bp p : ℕ) : Bytes :=
  if plus bp (size m bp) = ptr m p then
    let m' := setSize m bp (size m bp + size m (ptr m p))
    setPtr m' bp (ptr m' (ptr m' p))
  else setPtr m bp (ptr m p)

/-- `p` is joined to `bp`, or linked to it. -/
def joinPrev (m : Bytes) (bp p : ℕ) : Bytes :=
  if plus p (size m p) = bp then
    let m' := setSize m p (size m p + size m bp)
    setPtr m' p (ptr m' bp)
  else setPtr m p bp

def free (fuel ap : ℕ) (s : Heap) : Option Heap := do
  let bp := (ap + 2 ^ 32 - 8) % 2 ^ 32
  let p ← freeLoop s.mem bp fuel s.freep
  return { s with mem := joinPrev (joinNext s.mem bp p) bp p, freep := p }

def morecore (fuel nu : ℕ) (ans : Option ℕ) (s : Heap) : Option (ℕ × Heap) :=
  let nu := if nu < 4096 then 4096 else nu
  match sbrk ans (nu * 8 % 2 ^ 32) s with
  | (none, s) => some (0, s)
  | (some hp, s) => do
    let s ← free fuel (plus hp 1) { s with mem := setSize s.mem hp nu }
    return (s.freep, s)

/-- Take `nunits` headers from the block at `p`, which follows `prevp`: the whole block
or its tail. -/
def carve (nunits prevp p : ℕ) (s : Heap) : ℕ × Heap :=
  if size s.mem p = nunits then
    (plus p 1, { s with mem := setPtr s.mem prevp (ptr s.mem p), freep := prevp })
  else
    let m := setSize s.mem p (size s.mem p - nunits)
    let q := plus p (size m p)
    (plus q 1, { s with mem := setSize m q nunits, freep := prevp })

/-- The search of `malloc`; `ans` holds the answers of the calls of `sbrk` to come. -/
def mallocLoop (nunits : ℕ) :
    ℕ → List (Option ℕ) → ℕ → ℕ → Heap → Option (ℕ × Heap)
  | 0, _, _, _, _ => none
  | fuel + 1, ans, prevp, p, s =>
    if size s.mem p ≥ nunits then some (carve nunits prevp p s)
    else if p = s.freep then do
      let (p, s) ← morecore fuel nunits ans.head?.join s
      if p = 0 then return (0, s)
      else mallocLoop nunits fuel ans.tail p (ptr s.mem p) s
    else mallocLoop nunits fuel ans p (ptr s.mem p) s

/-- The size of the block that holds `nbytes` bytes, in headers. -/
def nunits (nbytes : ℕ) : ℕ := (nbytes + 8 - 1) % 2 ^ 32 / 8 + 1

/-- The first call makes `base` the only block of the free list. -/
def start (base : ℕ) (s : Heap) : Heap :=
  if s.freep = 0 then
    { s with mem := setSize (setPtr s.mem base base) base 0, freep := base }
  else s

def malloc (base fuel nbytes : ℕ) (ans : List (Option ℕ)) (s : Heap) : Option (ℕ × Heap) :=
  let s := start base s
  mallocLoop (nunits nbytes) fuel ans s.freep (ptr s.mem s.freep) s

end Nunix.Umalloc
