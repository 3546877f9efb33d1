/-
Nunix/UserAccess.lean

The user memory that `sys_read`, `sys_write`, `sys_fstat` and `sys_pipe` touch
(syscall.c, sysfile.c, file.c, fs.c, pipe.c, console.c).

The model runs the argument checks and the transfer loops and records every byte
of user memory the kernel loads or stores (`Access`).  `uint` values are natural
numbers below `2 ^ 32` and their arithmetic is taken modulo `2 ^ 32`; `int` values
are integers, converted by `toInt32` and `ofInt32`.

What other processes and the disk do during a call is a parameter of the file: how
many bytes a pipe gives or takes, what is typed at the console, and which blocks
of an inode `bmap` returns for (it panics on the others).

`argptr` checks the length as an `int`, `readi` uses it as a `uint`: a negative
length passes the check when the pointer is at least as large, and `readi` clips it
to the rest of the file, not to the checked buffer.  `syscall_in_bounds_iff` says
that this is the only way out of `[0, sz)`.
-/
import Nunix.Bytes
import Nunix.Params
import Nunix.Traced

namespace Nunix.UserAccess

open Bytes Traced

/-! ### User memory -/

/-- A byte of user memory the kernel loads or stores. -/
structure Access where
  store : Bool
  addr : ℕ
  deriving DecidableEq

/-- Touch the `len` bytes from address `a` on. -/
def touch (store : Bool) (a len : ℕ) : Traced Access Unit :=
  emit ((List.range len).map fun j => ⟨store, (a + j) % 2 ^ 32⟩)

/-- An inode as the transfer functions see it: `mapped` says for which blocks
`bmap` finds or allocates an address, `console` what is typed at the console before
the reader is killed. -/
structure Inode where
  type : Int16
  major : Int16
  size : UInt32
  mapped : ℕ → Bool
  console : List UInt8

/-- `bmap` returns for file block `bn`. -/
def Inode.bmap (ip : Inode) (bn : ℕ) : Bool := decide (bn < MAXFILE) && ip.mapped bn

/-- A pipe during one call: the reader is killed before data arrives, `avail` bytes
are there to read, `room` bytes can be written before the call gives up. -/
structure Pipe where
  killed : Bool
  avail : ℕ
  room : ℕ

/-- What an open file refers to. -/
inductive FdType
  | none
  | pipe (p : Pipe)
  | inode (ip : Inode)

/-- `struct file`. -/
structure File where
  type : FdType
  readable : Bool
  writable : Bool
  off : UInt32

/-- The calling process: its size, its saved stack pointer, its memory and its open
files. -/
structure Proc where
  sz : UInt32
  esp : UInt32
  mem : Bytes
  ofile : ℕ → Option File

/-! ### Arguments -/

/-- `fetchint`. -/
def fetchint (p : Proc) (addr : ℕ) : Traced Access (Option ℤ) :=
  if addr ≥ p.sz.toNat ∨ (addr + 4) % 2 ^ 32 > p.sz.toNat then return none
  else do
    touch false addr 4
    return some (toInt32 (p.mem.get32 addr))

/-- `argint`. -/
def argint (p : Proc) (k : ℕ) : Traced Access (Option ℤ) :=
  fetchint p ((p.esp.toNat + 4 + 4 * k) % 2 ^ 32)

/-- `argptr`: the checked pointer. -/
def argptr (p : Proc) (k : ℕ) (size : ℤ) : Traced Access (Option ℕ) := do
  let some i ← argint p k | return none
  if ofInt32 i ≥ p.sz.toNat ∨ (ofInt32 i + ofInt32 size) % 2 ^ 32 > p.sz.toNat then
    return none
  else return some (ofInt32 i)

/-- `argfd`. -/
def argfd (p : Proc) (k : ℕ) : Traced Access (Option File) := do
  let some fd ← argint p k | return none
  if fd < 0 ∨ fd ≥ NOFILE then return none
  else return p.ofile fd.toNat

/-! ### Pipes and the console -/

/-- The copy loop of `piperead`, at byte `i` with `avail` bytes left. -/
def pipereadLoop (addr : ℕ) (n : ℤ) : ℕ → ℕ → Traced Access ℤ
  | 0, i => return i
  | avail + 1, i =>
      if (i : ℤ) < n then do
        touch true (addr + i) 1
        pipereadLoop addr n avail (i + 1)
      else return i

/-- `piperead`. -/
def piperead (p : Pipe) (addr : ℕ) (n : ℤ) : Traced Access ℤ :=
  if p.killed then return -1 else pipereadLoop addr n p.avail 0

/-- The loop of `pipewrite`, at byte `i` with room for `room` more bytes. -/
def pipewriteLoop (addr : ℕ) (n : ℤ) : ℕ → ℕ → Traced Access ℤ
  | 0, i => if (i : ℤ) < n then return -1 else return n
  | room + 1, i =>
      if (i : ℤ) < n then do
        touch false (addr + i) 1
        pipewriteLoop addr n room (i + 1)
      else return n

/-- `pipewrite`. -/
def pipewrite (p : Pipe) (addr : ℕ) (n : ℤ) : Traced Access ℤ :=
  pipewriteLoop addr n p.room 0

/-- The loop of `consoleread`, with the characters still to come. -/
def consolereadLoop (target : ℤ) : List UInt8 → ℕ → ℤ → Traced Access ℤ
  | [], _, n => if n > 0 then return -1 else return target - n
  | c :: cs, dst, n =>
      if n > 0 then
        -- control-D ends the input
        if c = 4 then return target - n
        else do
          touch true dst 1
          if c = 10 then return target - (n - 1)
          else consolereadLoop target cs (dst + 1) (n - 1)
      else return target - n

/-- `consoleread`. -/
def consoleread (ip : Inode) (dst : ℕ) (n : ℤ) : Traced Access ℤ :=
  consolereadLoop n ip.console dst n

/-- `consolewrite`. -/
def consolewrite (buf : ℕ) (n : ℤ) : Traced Access ℤ := do
  touch false buf n.toNat
  return n

/-! ### Inodes -/

/-- The block loop of `readi` and `writei`: copy what is left of the current block,
or of the transfer. -/
def copyLoop (store : Bool) (ip : Inode) (n tot off ptr : ℕ) : Traced Access Unit :=
  if _h : tot < n then
    if ip.bmap (off / BSIZE) then do
      let m := min (n - tot) (BSIZE - off % BSIZE)
      touch store ptr m
      copyLoop store ip n (tot + m) ((off + m) % 2 ^ 32) ((ptr + m) % 2 ^ 32)
    else stop
  else return ()
termination_by n - tot
decreasing_by
  have : off % 512 < 512 := Nat.mod_lt _ (by norm_num)
  simp only [BSIZE]
  omega

/-- The device has no `read` or `write` function: only the console does. -/
def Inode.noDevice (ip : Inode) : Bool :=
  decide (ip.major < 0) || decide (ip.major.toInt ≥ NDEV) || decide (ip.major ≠ CONSOLE)

/-- `readi`. -/
def readi (ip : Inode) (dst off n : ℕ) : Traced Access ℤ :=
  if ip.type = T_DEV then
    if ip.noDevice then return -1 else consoleread ip dst (toInt32 n)
  else if off > ip.size.toNat ∨ (off + n) % 2 ^ 32 < off then return -1
  else
    let n := if (off + n) % 2 ^ 32 > ip.size.toNat then ip.size.toNat - off else n
    do
      copyLoop true ip n 0 off dst
      return toInt32 n

/-- `writei`: the result and the inode with its new size. -/
def writei (ip : Inode) (src off n : ℕ) : Traced Access (ℤ × Inode) :=
  if ip.type = T_DEV then
    if ip.noDevice then return (-1, ip)
    else do
      let r ← consolewrite src (toInt32 n)
      return (r, ip)
  else if off > ip.size.toNat ∨ (off + n) % 2 ^ 32 < off then return (-1, ip)
  else if (off + n) % 2 ^ 32 > MAXFILE * BSIZE then return (-1, ip)
  else do
    copyLoop false ip n 0 off src
    if n > 0 ∧ (off + n) % 2 ^ 32 > ip.size.toNat then
      return (toInt32 n, { ip with size := UInt32.ofNat (off + n) })
    else return (toInt32 n, ip)

/-! ### Files -/

/-- `fileread`: the result and the file offset. -/
def fileread (f : File) (addr : ℕ) (n : ℤ) : Traced Access (ℤ × UInt32) :=
  if f.readable = false then return (-1, f.off)
  else match f.type with
    | .pipe p => do
        let r ← piperead p addr n
        return (r, f.off)
    | .inode ip => do
        let r ← readi ip addr f.off.toNat (ofInt32 n)
        return (r, if r > 0 then f.off + UInt32.ofNat r.toNat else f.off)
    | .none => stop

/-- The most bytes `filewrite` writes in one transaction. -/
def writeMax : ℕ := ((LOGSIZE - 1 - 1 - 2) / 2) * 512

/-- The loop of `filewrite`, with `i` bytes written. -/
def filewriteLoop (addr : ℕ) (n i : ℤ) (ip : Inode) (off : UInt32) :
    Traced Access (ℤ × UInt32) :=
  if _h : i < n then
    let n1 := if n - i > writeMax then (writeMax : ℤ) else n - i
    do
      let (r, ip') ← writei ip ((addr + i.toNat) % 2 ^ 32) off.toNat (ofInt32 n1)
      let off' := if r > 0 then off + UInt32.ofNat r.toNat else off
      if r < 0 then return (if i = n then n else -1, off')
      else if r ≠ n1 then stop
      else filewriteLoop addr n (i + n1) ip' off'
  else return (if i = n then n else -1, off)
termination_by (n - i).toNat
decreasing_by
  have : (writeMax : ℤ) = 6656 := rfl
  rw [this]
  split_ifs <;> omega

/-- `filewrite`: the result and the file offset. -/
def filewrite (f : File) (addr : ℕ) (n : ℤ) : Traced Access (ℤ × UInt32) :=
  if f.writable = false then return (-1, f.off)
  else match f.type with
    | .pipe p => do
        let r ← pipewrite p addr n
        return (r, f.off)
    | .inode ip => filewriteLoop addr n 0 ip f.off
    | .none => stop

/-- `filestat`; `stati` stores the five fields of `struct stat`. -/
def filestat (f : File) (st : ℕ) : Traced Access ℤ :=
  match f.type with
  | .inode _ => do
      touch true (st + 4) 4
      touch true (st + 8) 4
      touch true st 2
      touch true (st + 12) 2
      touch true (st + 16) 4
      return 0
  | _ => return -1

/-! ### System calls -/

/-- `sys_read`. -/
def sysRead (p : Proc) : Traced Access ℤ := do
  let some f ← argfd p 0 | return -1
  let some n ← argint p 2 | return -1
  let some a ← argptr p 1 n | return -1
  let (r, _) ← fileread f a n
  return r

/-- `sys_write`. -/
def sysWrite (p : Proc) : Traced Access ℤ := do
  let some f ← argfd p 0 | return -1
  let some n ← argint p 2 | return -1
  let some a ← argptr p 1 n | return -1
  let (r, _) ← filewrite f a n
  return r

/-- `sys_fstat`; `sizeof(struct stat)` is 20. -/
def sysFstat (p : Proc) : Traced Access ℤ := do
  let some f ← argfd p 0 | return -1
  let some st ← argptr p 1 20 | return -1
  filestat f st

/-- `fdalloc`: the first free descriptor. -/
def fdalloc (ofile : ℕ → Option File) : Option ℕ :=
  (List.range NOFILE).find? fun fd => (ofile fd).isNone

/-- `sys_pipe`; `pipealloc` is the pair of files it returns, `none` if it fails. -/
def sysPipe (p : Proc) (pipealloc : Option (File × File)) : Traced Access ℤ := do
  let some fd ← argptr p 0 8 | return -1
  let some (rf, _) := pipealloc | return -1
  let some fd0 := fdalloc p.ofile | return -1
  let some _ := fdalloc (Function.update p.ofile fd0 (some rf)) | return -1
  touch true fd 4
  touch true (fd + 4) 4
  return 0

/-- The system calls of this module. -/
inductive Call
  | read
  | write
  | fstat
  | pipe (pipealloc : Option (File × File))

/-- Run a system call. -/
def syscall (p : Proc) : Call → Traced Access ℤ
  | .read => sysRead p
  | .write => sysWrite p
  | .fstat => sysFstat p
  | .pipe pa => sysPipe p pa

/-! ### What the loops touch -/

/-- The access is to one of the `n` bytes from `a` on. -/
def Within (a : ℕ) (n : ℤ) (e : Access) : Prop :=
  ∃ j : ℕ, (j : ℤ) < n ∧ e.addr = (a + j) % 2 ^ 32

variable {e : Access} {store : Bool} {a off k dst len ptr : ℕ}

theorem mem_touch : e ∈ (touch store a len).events ↔ ∃ j < len, e = ⟨store, (a + j) % 2 ^ 32⟩ := by
  simp [touch, eq_comm]

theorem touch_result (store : Bool) (a len : ℕ) : (touch store a len).result = some () := rfl

theorem all_touch {Q : Access → Prop} (h : ∀ j < len, Q ⟨store, (a + j) % 2 ^ 32⟩) :
    All Q (touch store a len) := by
  intro e he
  obtain ⟨j, hj, rfl⟩ := mem_touch.mp he
  exact h j hj

variable {n : ℤ}

/-- Bytes beyond the first `k` are bytes from `a + k` on. -/
theorem Within.shift (h : Within ((a + k) % 2 ^ 32) (n - k) e) : Within a n e := by
  obtain ⟨j, hj, he⟩ := h
  refine ⟨k + j, by push_cast; omega, ?_⟩
  rw [he, Nat.mod_add_mod, add_assoc]

theorem pipereadLoop_within (addr : ℕ) (n : ℤ) (avail i : ℕ) :
    All (Within addr n) (pipereadLoop addr n avail i) := by
  induction avail generalizing i with
  | zero => exact All.pure _
  | succ avail ih =>
      rw [pipereadLoop]
      split_ifs with hi
      · refine All.bind (all_touch fun j hj => ⟨i, hi, ?_⟩) fun _ _ => ih (i + 1)
        rw [Nat.lt_one_iff.mp hj]
        rfl
      · exact All.pure _

theorem pipewriteLoop_within (addr : ℕ) (n : ℤ) (room i : ℕ) :
    All (Within addr n) (pipewriteLoop addr n room i) := by
  induction room generalizing i with
  | zero =>
      rw [pipewriteLoop]
      split_ifs <;> exact All.pure _
  | succ room ih =>
      rw [pipewriteLoop]
      split_ifs with hi
      · refine All.bind (all_touch fun j hj => ⟨i, hi, ?_⟩) fun _ _ => ih (i + 1)
        rw [Nat.lt_one_iff.mp hj]
        rfl
      · exact All.pure _

theorem consolereadLoop_within (target : ℤ) (cs : List UInt8) (dst : ℕ) (n : ℤ) :
    All (Within dst n) (consolereadLoop target cs dst n) := by
  induction cs generalizing dst n with
  | nil =>
      rw [consolereadLoop]
      split_ifs <;> exact All.pure _
  | cons c cs ih =>
      rw [consolereadLoop]
      split_ifs with hn hc hnl
      · exact All.pure _
      · refine All.bind (all_touch fun j hj => ⟨0, hn, ?_⟩) fun _ _ => All.pure _
        rw [Nat.lt_one_iff.mp hj]
      · refine All.bind (all_touch fun j hj => ⟨0, hn, ?_⟩) fun _ _ => ?_
        · rw [Nat.lt_one_iff.mp hj]
        · intro e he
          obtain ⟨j, hj, hje⟩ := ih (dst + 1) (n - 1) e he
          exact ⟨1 + j, by push_cast; omega, by rw [hje, add_assoc]⟩
      · exact All.pure _

theorem consolewrite_within (buf : ℕ) (n : ℤ) : All (Within buf n) (consolewrite buf n) :=
  All.bind (all_touch fun j hj => ⟨j, by omega, rfl⟩) fun _ _ => All.pure _

variable {ip : Inode}

/-- The block loop touches byte `k` of the buffer exactly if `bmap` returns for all
blocks up to the one of that byte. -/
theorem mem_copyLoop {n tot : ℕ} (hoff : off + (n - tot) < 2 ^ 32) :
    e ∈ (copyLoop store ip n tot off ptr).events ↔
      ∃ k < n - tot, e = ⟨store, (ptr + k) % 2 ^ 32⟩ ∧
        ∀ bn, off / BSIZE ≤ bn → bn ≤ (off + k) / BSIZE → ip.bmap bn = true := by
  fun_induction copyLoop store ip n tot off ptr with
  | case1 tot off ptr htot hmap m ih =>
      -- one block: its bytes, and those of the blocks behind it
      have hB : BSIZE = 512 := rfl
      have hm : m = min (n - tot) (512 - off % 512) := rfl
      have hmod : (off + m) % 2 ^ 32 = off + m := Nat.mod_eq_of_lt (by omega)
      have hnext : off + m + (n - (tot + m)) < 2 ^ 32 := by omega
      rw [hmod] at ih
      replace ih := ih hnext
      rw [mem_bind, mem_touch]
      simp only [touch_result, hmod]
      rw [hB] at hmap ⊢
      constructor
      · rintro (⟨j, hj, rfl⟩ | ⟨-, -, he⟩)
        · refine ⟨j, by omega, rfl, fun bn h₁ h₂ => ?_⟩
          have : bn = off / 512 := by omega
          rw [this]
          exact hmap
        · obtain ⟨k, hk, rfl, hall⟩ := ih.mp he
          refine ⟨m + k, by omega, ?_, fun bn h₁ h₂ => ?_⟩
          · rw [Nat.mod_add_mod, add_assoc]
          · rcases Nat.lt_or_ge bn ((off + m) / 512) with hlt | hge
            · have : bn = off / 512 := by omega
              rw [this]
              exact hmap
            · exact hall bn hge (by rw [hB]; omega)
      · rintro ⟨k, hk, rfl, hall⟩
        rcases Nat.lt_or_ge k m with hkm | hkm
        · exact Or.inl ⟨k, hkm, rfl⟩
        · have hlt : k - m < n - (tot + m) := by
            clear ih
            omega
          refine Or.inr ⟨(), trivial, ih.mpr ⟨k - m, hlt, ?_, fun bn h₁ h₂ => ?_⟩⟩
          · rw [Nat.mod_add_mod, add_assoc, Nat.add_sub_cancel' hkm]
          · refine hall bn ?_ ?_
            · rw [hB] at h₁
              omega
            · rw [hB] at h₂
              omega
  | case2 tot off ptr htot hmap =>
      simp only [events_stop, List.not_mem_nil, false_iff]
      rintro ⟨k, hk, -, hall⟩
      exact hmap (hall _ le_rfl (Nat.div_le_div_right (Nat.le_add_right _ _)))
  | case3 tot off ptr htot =>
      simp only [events_pure, List.not_mem_nil, false_iff]
      rintro ⟨k, hk, -⟩
      omega

theorem copyLoop_within {n : ℕ} (hoff : off + n < 2 ^ 32) :
    All (Within ptr n) (copyLoop store ip n 0 off ptr) := by
  intro e he
  obtain ⟨k, hk, rfl, -⟩ := (mem_copyLoop (by omega)).mp he
  exact ⟨k, by omega, rfl⟩

theorem ofInt32_of_nonneg (h : 0 ≤ n) (h' : n < 2 ^ 31) : (ofInt32 n : ℤ) = n := by
  rw [ofInt32]
  omega

theorem ofInt32_of_neg (h : n < 0) (h' : -2 ^ 31 ≤ n) : (ofInt32 n : ℤ) = 2 ^ 32 + n := by
  rw [ofInt32]
  omega

/-- `readi` of an ordinary inode touches byte `k` exactly if the byte is requested,
lies in the file, and `bmap` returns for the blocks up to it. -/
theorem mem_readi (hdev : ip.type ≠ T_DEV) {n : ℕ} (hoff : off ≤ ip.size.toNat)
    (hn : off + n < 2 ^ 32) :
    e ∈ (readi ip dst off n).events ↔
      ∃ k < min n (ip.size.toNat - off), e = ⟨true, (dst + k) % 2 ^ 32⟩ ∧
        ∀ bn, off / BSIZE ≤ bn → bn ≤ (off + k) / BSIZE → ip.bmap bn = true := by
  have hmod : (off + n) % 2 ^ 32 = off + n := Nat.mod_eq_of_lt hn
  have hclip : (if off + n > ip.size.toNat then ip.size.toNat - off else n)
      = min n (ip.size.toNat - off) := by
    split_ifs <;> omega
  rw [readi, if_neg hdev, hmod, if_neg (by omega), mem_bind]
  simp only [hclip, events_pure, List.not_mem_nil, and_false, exists_false, or_false]
  rw [mem_copyLoop (by omega), Nat.sub_zero]

/-- A refused `readi` touches nothing. -/
theorem readi_refused (hdev : ip.type ≠ T_DEV) {n : ℕ}
    (h : off > ip.size.toNat ∨ (off + n) % 2 ^ 32 < off) : (readi ip dst off n).events = [] := by
  rw [readi, if_neg hdev, if_pos h, events_pure]

theorem readi_within (ip : Inode) {n : ℕ} (hoff : off < 2 ^ 32) (hn : n < 2 ^ 31) :
    All (Within dst n) (readi ip dst off n) := by
  by_cases hdev : ip.type = T_DEV
  · rw [readi, if_pos hdev]
    split_ifs
    · exact All.pure _
    · have : toInt32 n = n := by rw [toInt32, if_pos hn]
      rw [consoleread, this]
      exact consolereadLoop_within _ _ _ _
  · by_cases href : off > ip.size.toNat ∨ (off + n) % 2 ^ 32 < off
    · intro e he
      rw [readi_refused hdev href] at he
      exact absurd he List.not_mem_nil
    · intro e he
      obtain ⟨k, hk, rfl, -⟩ := (mem_readi hdev (by omega) (by omega)).mp he
      exact ⟨k, by omega, rfl⟩

/-- `writei` touches only the bytes it is asked for, and returns at most their
number. -/
theorem writei_within (ip : Inode) {src n : ℕ} (hoff : off < 2 ^ 32) (hn : n < 2 ^ 31) :
    All (Within src n) (writei ip src off n) := by
  have hint : toInt32 n = n := by rw [toInt32, if_pos hn]
  rw [writei]
  split_ifs with hdev hno href hbig
  · exact All.pure _
  · rw [hint]
    exact All.bind (consolewrite_within src n) fun _ _ => All.pure _
  · exact All.pure _
  · exact All.pure _
  · exact All.bind (copyLoop_within (by omega)) fun _ _ => All.pure _
  · exact All.bind (copyLoop_within (by omega)) fun _ _ => All.pure _

theorem filewriteLoop_within (addr : ℕ) (n i : ℤ) (ip : Inode) (off : UInt32) (hi : 0 ≤ i) :
    All (Within addr n) (filewriteLoop addr n i ip off) := by
  fun_induction filewriteLoop addr n i ip off with
  | case1 i ip off hlt n1 ih =>
      have hmax : (writeMax : ℤ) = 6656 := rfl
      have hn1 : 0 < n1 ∧ n1 ≤ n - i ∧ n1 < 2 ^ 31 := by
        show 0 < (if n - i > writeMax then (writeMax : ℤ) else n - i) ∧
          (if n - i > writeMax then (writeMax : ℤ) else n - i) ≤ n - i ∧
          (if n - i > writeMax then (writeMax : ℤ) else n - i) < 2 ^ 31
        rw [hmax]
        split_ifs <;> omega
      have hcast := ofInt32_of_nonneg hn1.1.le hn1.2.2
      refine All.bind ?_ ?_
      · -- this chunk
        intro e he
        obtain ⟨j, hj, hje⟩ := writei_within ip off.toNat_lt (by omega) e he
        refine Within.shift (k := i.toNat) ⟨j, by omega, ?_⟩
        exact hje
      · -- the chunks behind it
        rintro ⟨r, ip'⟩ -
        dsimp only
        by_cases hr : r < 0
        · rw [if_pos hr]
          exact All.pure _
        · rw [if_neg hr]
          by_cases hne : r ≠ n1
          · rw [if_pos hne]
            exact All.stop
          · rw [if_neg hne]
            exact ih r ip' (by omega)
  | case2 i ip off hlt => exact All.pure _

/-! ### The checks -/

/-- The access is to the memory of the process. -/
def InBounds (p : Proc) (e : Access) : Prop := e.addr < p.sz.toNat

section Checks

variable {p : Proc} (hsz : p.sz.toNat ≤ KERNBASE)
include hsz

theorem fetchint_inBounds (addr : ℕ) : All (InBounds p) (fetchint p addr) := by
  have hK : KERNBASE = 2 ^ 31 := rfl
  rw [fetchint]
  split_ifs with h
  · exact All.pure _
  · refine All.bind (all_touch fun j hj => ?_) fun _ _ => All.pure _
    show (addr + j) % 2 ^ 32 < p.sz.toNat
    omega

theorem argint_inBounds (k : ℕ) : All (InBounds p) (argint p k) := fetchint_inBounds hsz _

theorem argptr_inBounds (k : ℕ) (size : ℤ) : All (InBounds p) (argptr p k size) := by
  refine All.bind (argint_inBounds hsz k) fun i _ => ?_
  rcases i with - | i
  · exact All.pure _
  · dsimp only
    split_ifs <;> exact All.pure _

theorem argfd_inBounds (k : ℕ) : All (InBounds p) (argfd p k) := by
  refine All.bind (argint_inBounds hsz k) fun i _ => ?_
  rcases i with - | i
  · exact All.pure _
  · dsimp only
    split_ifs <;> exact All.pure _

omit hsz in
/-- An `int` argument is an `int`. -/
theorem argint_range (h : (argint p k).result = some (some n)) : -2 ^ 31 ≤ n ∧ n < 2 ^ 31 := by
  rw [argint, fetchint] at h
  split_ifs at h with hb
  · simp at h
  · rw [bind_of_result (touch_result _ _ _)] at h
    have hn : toInt32 (p.mem.get32 ((p.esp.toNat + 4 + 4 * k) % 2 ^ 32)) = n := by
      simpa using h
    have := get32_lt p.mem ((p.esp.toNat + 4 + 4 * k) % 2 ^ 32)
    rw [← hn, toInt32]
    split_ifs <;> omega

omit hsz in
/-- What a pointer that passed the check satisfies. -/
theorem argptr_spec {size : ℤ} (h : (argptr p k size).result = some (some a)) :
    a < p.sz.toNat ∧ (a + ofInt32 size) % 2 ^ 32 ≤ p.sz.toNat := by
  rcases e : (argint p k).result with - | i
  · simp [argptr, Bind.bind, Traced.bind, e] at h
  · rw [argptr, bind_of_result e] at h
    rcases i with - | i
    · simp at h
    · dsimp only at h
      split_ifs at h with hc
      · simp at h
      · have : ofInt32 i = a := by simpa using h
        subst this
        omega

/-- The bytes a checked pointer and length cover belong to the process. -/
theorem inBounds_of_within (ha : a < p.sz.toNat) (hlen : (a + ofInt32 n) % 2 ^ 32 ≤ p.sz.toNat)
    (hn : n < 2 ^ 31) (he : Within a n e) : InBounds p e := by
  obtain ⟨j, hj, hje⟩ := he
  have hK : KERNBASE = 2 ^ 31 := rfl
  have hcast := ofInt32_of_nonneg (n := n) (by omega) hn
  rw [InBounds, hje]
  omega

theorem filewrite_inBounds (f : File) (ha : a < p.sz.toNat)
    (hlen : (a + ofInt32 n) % 2 ^ 32 ≤ p.sz.toNat) (hn : n < 2 ^ 31) :
    All (InBounds p) (filewrite f a n) := by
  have hin := fun e => inBounds_of_within hsz (e := e) ha hlen hn
  rw [filewrite]
  split_ifs
  · exact All.pure _
  · rcases f.type with - | pi | ip
    · exact All.stop
    · refine All.bind (fun e he => hin e ?_) fun _ _ => All.pure _
      exact pipewriteLoop_within a n _ _ e he
    · exact fun e he => hin e (filewriteLoop_within a n 0 ip _ le_rfl e he)

theorem filestat_inBounds (f : File) {st : ℕ} (ha : st < p.sz.toNat)
    (hlen : (st + ofInt32 20) % 2 ^ 32 ≤ p.sz.toNat) : All (InBounds p) (filestat f st) := by
  have hK : KERNBASE = 2 ^ 31 := rfl
  have h20 : ofInt32 20 = 20 := rfl
  -- each field lies among the 20 bytes
  have hfield : ∀ o len, o + len ≤ 20 → All (InBounds p) (touch true (st + o) len) := by
    intro o len ho
    refine all_touch fun j hj => ?_
    show (st + o + j) % 2 ^ 32 < p.sz.toNat
    omega
  rw [filestat]
  rcases f.type with - | pi | ip
  · exact All.pure _
  · exact All.pure _
  · exact All.bind (hfield 4 4 (by norm_num)) fun _ _ =>
      All.bind (hfield 8 4 (by norm_num)) fun _ _ =>
      All.bind (hfield 0 2 (by norm_num)) fun _ _ =>
      All.bind (hfield 12 2 (by norm_num)) fun _ _ =>
      All.bind (hfield 16 4 (by norm_num)) fun _ _ => All.pure _

end Checks

/-! ### The overrun -/

/-- A read that leaves the buffer: a negative length on an ordinary inode that
`readi` does not refuse, with more to transfer and more file behind the offset than
memory behind the pointer, and with `bmap` returning up to the first byte outside. -/
def File.Overruns (f : File) (sz a : ℕ) (n : ℤ) : Prop :=
  f.readable = true ∧ ∃ ip, f.type = .inode ip ∧ ip.type ≠ T_DEV ∧ n < 0 ∧
    f.off.toNat ≤ ip.size.toNat ∧ (f.off.toNat : ℤ) + n < 0 ∧
    ((sz - a : ℕ) : ℤ) < 2 ^ 32 + n ∧ sz - a < ip.size.toNat - f.off.toNat ∧
    ∀ bn, f.off.toNat / BSIZE ≤ bn → bn ≤ (f.off.toNat + (sz - a)) / BSIZE → ip.bmap bn = true

/-- `fileread` stays in bounds exactly if it does not overrun. -/
theorem fileread_inBounds_iff {p : Proc} (hsz : p.sz.toNat ≤ KERNBASE) (f : File)
    (ha : a < p.sz.toNat) (hlen : (a + ofInt32 n) % 2 ^ 32 ≤ p.sz.toNat) (hn : -2 ^ 31 ≤ n)
    (hn' : n < 2 ^ 31) : All (InBounds p) (fileread f a n) ↔ ¬ f.Overruns p.sz.toNat a n := by
  have hK : KERNBASE = 2 ^ 31 := rfl
  have hin := fun e => inBounds_of_within hsz (e := e) ha hlen hn'
  by_cases hr : f.readable = false
  · -- not readable
    refine iff_of_true ?_ fun ho => ?_
    · rw [fileread, if_pos hr]
      exact All.pure _
    · have := ho.1
      rw [hr] at this
      cases this
  rcases e : f.type with - | pi | ip
  · refine iff_of_true ?_ ?_
    · rw [fileread, if_neg hr, e]
      exact All.stop
    · rintro ⟨-, ip, hip, -⟩
      rw [e] at hip
      cases hip
  · -- a pipe takes the length as an `int`
    refine iff_of_true ?_ ?_
    · rw [fileread, if_neg hr, e]
      refine All.bind (fun x hx => hin x ?_) fun _ _ => All.pure _
      rw [piperead] at hx
      split_ifs at hx
      · simp at hx
      · exact pipereadLoop_within a n _ _ x hx
    · rintro ⟨-, ip, hip, -⟩
      rw [e] at hip
      cases hip
  · have hevents : (fileread f a n).events = (readi ip a f.off.toNat (ofInt32 n)).events := by
      rw [fileread, if_neg hr, e]
      ext1 i
      rcases h : (readi ip a f.off.toNat (ofInt32 n)).result with - | r
      · simp [Bind.bind, Traced.bind, h]
      · simp [bind_of_result h]
    rw [All, hevents]
    rcases lt_or_ge n 0 with hneg | hpos
    · have hcast := ofInt32_of_neg hneg hn
      by_cases hdev : ip.type = T_DEV
      · -- the console takes it back as an `int`
        refine iff_of_true ?_ ?_
        · intro x hx
          refine hin x ?_
          rw [readi, if_pos hdev] at hx
          split_ifs at hx
          · simp at hx
          · rw [consoleread, toInt32_ofInt32 hn hn'] at hx
            exact consolereadLoop_within _ _ _ _ x hx
        · rintro ⟨-, ip', hip, hdev', -⟩
          rw [e] at hip
          obtain rfl := FdType.inode.inj hip
          exact hdev' hdev
      · have hoff := f.off.toNat_lt
        by_cases href : f.off.toNat > ip.size.toNat ∨
            (f.off.toNat + ofInt32 n) % 2 ^ 32 < f.off.toNat
        · refine iff_of_true ?_ ?_
          · rw [readi_refused hdev href]
            simp
          · rintro ⟨-, ip', hip, -, -, h₁, h₂, -⟩
            rw [e] at hip
            obtain rfl := FdType.inode.inj hip
            omega
        · -- the clipped transfer
          have hclip := ip.size.toNat_lt
          have hmem : ∀ {x}, x ∈ (readi ip a f.off.toNat (ofInt32 n)).events ↔ _ :=
            mem_readi hdev (by omega) (by omega)
          constructor
          · rintro hall ⟨-, ip', hip, -, -, h₁, h₂, h₃, h₄, hmap⟩
            rw [e] at hip
            obtain rfl := FdType.inode.inj hip
            have hout := hall _ (hmem.mpr ⟨p.sz.toNat - a, by omega, rfl, hmap⟩)
            have hlt : (a + (p.sz.toNat - a)) % 2 ^ 32 < p.sz.toNat := hout
            omega
          · intro hno x hx
            obtain ⟨k, hk, rfl, hmap⟩ := hmem.mp hx
            have hbound : k < p.sz.toNat - a := by
              by_contra hge
              refine hno ⟨by simpa using hr, ip, e, hdev, hneg, by omega, by omega, by omega,
                by omega, fun bn h₁ h₂ => hmap bn h₁ (h₂.trans (Nat.div_le_div_right ?_))⟩
              omega
            show (a + k) % 2 ^ 32 < p.sz.toNat
            omega
    · refine iff_of_true ?_ fun ho => by
        obtain ⟨-, -, -, -, hneg, -⟩ := ho
        omega
      have hcast := ofInt32_of_nonneg hpos hn'
      intro x hx
      refine hin x ?_
      have := readi_within ip f.off.toNat_lt (by omega) x hx
      rwa [hcast] at this

/-! ### The system calls -/

/-- The arguments of `sys_read` and `sys_write`, fetched and checked. -/
structure Proc.Args (p : Proc) (f : File) (n : ℤ) (a : ℕ) : Prop where
  file : (argfd p 0).result = some (some f)
  length : (argint p 2).result = some (some n)
  buffer : (argptr p 1 n).result = some (some a)

/-- `sys_read` and `sys_write`: the accesses of the checks, then those of the
transfer. -/
theorem all_transfer {Q : Access → Prop} {p : Proc} (g : File → ℕ → ℤ → Traced Access (ℤ × UInt32))
    (hfd : All Q (argfd p 0)) (hint : All Q (argint p 2)) (hptr : ∀ n, All Q (argptr p 1 n)) :
    All Q (do
      let some f ← argfd p 0 | return -1
      let some n ← argint p 2 | return -1
      let some a ← argptr p 1 n | return -1
      let (r, _) ← g f a n
      return r) ↔ ∀ f n a, p.Args f n a → All Q (g f a n) := by
  constructor
  · intro h f n a hargs e he
    refine h e (mem_bind.mpr (Or.inr ⟨some f, hargs.file, ?_⟩))
    refine mem_bind.mpr (Or.inr ⟨some n, hargs.length, ?_⟩)
    refine mem_bind.mpr (Or.inr ⟨some a, hargs.buffer, ?_⟩)
    exact mem_bind.mpr (Or.inl he)
  · intro h
    refine All.bind hfd fun f? hf => ?_
    rcases f? with - | f
    · exact All.pure _
    refine All.bind hint fun n? hn => ?_
    rcases n? with - | n
    · exact All.pure _
    refine All.bind (hptr n) fun a? ha => ?_
    rcases a? with - | a
    · exact All.pure _
    exact All.bind (h f n a ⟨hf, hn, ha⟩) fun _ _ => All.pure _

theorem sysRead_inBounds_iff {p : Proc} (hsz : p.sz.toNat ≤ KERNBASE) :
    All (InBounds p) (sysRead p) ↔
      ∀ f n a, p.Args f n a → ¬ f.Overruns p.sz.toNat a n := by
  rw [sysRead, all_transfer fileread (argfd_inBounds hsz 0) (argint_inBounds hsz 2)
    (argptr_inBounds hsz 1)]
  refine forall₃_congr fun f n a => imp_congr_right fun hargs => ?_
  obtain ⟨ha, hlen⟩ := argptr_spec hargs.buffer
  obtain ⟨hn, hn'⟩ := argint_range hargs.length
  exact fileread_inBounds_iff hsz f ha hlen hn hn'

theorem sysWrite_inBounds {p : Proc} (hsz : p.sz.toNat ≤ KERNBASE) :
    All (InBounds p) (sysWrite p) := by
  rw [sysWrite, all_transfer filewrite (argfd_inBounds hsz 0) (argint_inBounds hsz 2)
    (argptr_inBounds hsz 1)]
  intro f n a hargs
  obtain ⟨ha, hlen⟩ := argptr_spec hargs.buffer
  exact filewrite_inBounds hsz f ha hlen (argint_range hargs.length).2

theorem sysFstat_inBounds {p : Proc} (hsz : p.sz.toNat ≤ KERNBASE) :
    All (InBounds p) (sysFstat p) := by
  refine All.bind (argfd_inBounds hsz 0) fun f? _ => ?_
  rcases f? with - | f
  · exact All.pure _
  refine All.bind (argptr_inBounds hsz 1 20) fun st? hst => ?_
  rcases st? with - | st
  · exact All.pure _
  obtain ⟨ha, hlen⟩ := argptr_spec hst
  exact filestat_inBounds hsz f ha hlen

theorem sysPipe_inBounds {p : Proc} (hsz : p.sz.toNat ≤ KERNBASE)
    (pipealloc : Option (File × File)) : All (InBounds p) (sysPipe p pipealloc) := by
  have hK : KERNBASE = 2 ^ 31 := rfl
  have h8 : ofInt32 8 = 8 := rfl
  refine All.bind (argptr_inBounds hsz 0 8) fun fd? hfd => ?_
  rcases fd? with - | fd
  · exact All.pure _
  obtain ⟨ha, hlen⟩ := argptr_spec hfd
  rcases pipealloc with - | ⟨rf, wf⟩
  · exact All.pure _
  dsimp only
  rcases fdalloc p.ofile with - | fd0
  · exact All.pure _
  dsimp only
  rcases fdalloc (Function.update p.ofile fd0 (some rf)) with - | fd1
  · exact All.pure _
  refine All.bind (all_touch fun j hj => ?_) fun _ _ =>
    All.bind (all_touch fun j hj => ?_) fun _ _ => All.pure _
  · show (fd + j) % 2 ^ 32 < p.sz.toNat
    omega
  · show (fd + 4 + j) % 2 ^ 32 < p.sz.toNat
    omega

/-- **Argument validation.**  For every process of at most `KERNBASE` bytes, every
stack pointer, every memory (so all argument values) and every open file, each of
the four system calls touches only addresses below `sz`, unless it is a `sys_read`
whose checked arguments overrun. -/
theorem syscall_in_bounds_iff (p : Proc) (hsz : p.sz.toNat ≤ KERNBASE) (c : Call) :
    (∀ e ∈ (syscall p c).events, e.addr < p.sz.toNat) ↔
      ¬ (c = .read ∧ ∃ f n a, p.Args f n a ∧ f.Overruns p.sz.toNat a n) := by
  cases c with
  | read =>
      rw [show (∀ e ∈ (syscall p .read).events, e.addr < p.sz.toNat) ↔ _ from
        sysRead_inBounds_iff hsz]
      push Not
      exact ⟨fun h _ f n a hargs => h f n a hargs, fun h f n a hargs => h rfl f n a hargs⟩
  | write => exact iff_of_true (sysWrite_inBounds hsz) fun h => by cases h.1
  | fstat => exact iff_of_true (sysFstat_inBounds hsz) fun h => by cases h.1
  | pipe pa => exact iff_of_true (sysPipe_inBounds hsz pa) fun h => by cases h.1

/-- An ordinary file of one block, open for reading at offset 0. -/
def oneBlock : File where
  type := .inode { type := 2, major := 0, size := 512, mapped := fun _ => true, console := [] }
  readable := true
  writable := false
  off := 0

/-- A process of one page that calls `read(0, 4000, n)`. -/
def reader (n : ℤ) : Proc where
  sz := 4096
  esp := 0
  mem := ((Bytes.zero.put32 4 0).put32 8 4000).put32 12 (ofInt32 n)
  ofile := fun _ => some oneBlock

/-- `read(0, 4000, 96)` keeps to the process. -/
theorem syscall_in_bounds_read :
    (reader 96).sz.toNat ≤ KERNBASE ∧
      ∀ e ∈ (syscall (reader 96) .read).events, e.addr < 4096 := by
  refine ⟨by decide, (syscall_in_bounds_iff (reader 96) (by decide) .read).mpr ?_⟩
  rintro ⟨-, f, n, a, hargs, -, ip, -, -, hneg, -⟩
  have h96 : (argint (reader 96) 2).result = some (some 96) := by decide +kernel
  rw [hargs.length] at h96
  have : n = 96 := by simpa using h96
  omega

/-- `read(0, 4000, -4000)` passes the checks and stores behind the end of the
process. -/
theorem negative_read_overruns :
    (reader (-4000)).sz.toNat ≤ KERNBASE ∧
      ∃ e ∈ (syscall (reader (-4000)) .read).events, ¬ e.addr < 4096 := by
  refine ⟨by decide, ?_⟩
  by_contra hno
  push Not at hno
  have hargs : (reader (-4000)).Args oneBlock (-4000) 4000 := by
    refine ⟨?_, by decide +kernel, by decide +kernel⟩
    rfl
  refine (sysRead_inBounds_iff (p := reader (-4000)) (by decide)).mp hno _ _ _ hargs ?_
  refine ⟨rfl, _, rfl, by decide, by norm_num, by decide, by decide, by decide, by decide, ?_⟩
  intro bn _ hbn
  have hB : BSIZE = 512 := rfl
  have h0 : bn = 0 := by
    rw [hB] at hbn
    have : (reader (-4000)).sz.toNat = 4096 := rfl
    have : oneBlock.off.toNat = 0 := rfl
    omega
  rw [h0]
  rfl

end Nunix.UserAccess
