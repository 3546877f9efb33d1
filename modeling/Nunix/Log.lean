/-
Nunix/Log.lean

The redo log of log.c: the log header, `commit` and `recover_from_log`.

`commit` and `recover_from_log` end with the same three calls
(`install_trans`, `log.lh.n = 0`, `write_head`), so both are runs of one
small-step machine `logStep`, entered at `Pc.commit` or at `Pc.readHead`.  One
step is one loop iteration or one straight-line statement; it writes at most one
sector, so a crash after any sector write is a crash after some step.

The buffer cache appears as an overlay.  A clean buffer holds what its sector
holds, so only the buffers with `B_DIRTY` are kept (`LogSt.dirty`); `bread`
yields the dirty buffer if there is one and the disk sector otherwise, and
`bwrite` stores a buffer's contents in its sector and clears `B_DIRTY`.

A process that calls `bread` for a buffer it already holds sleeps for ever.  In
`write_log` and `install_trans` that happens when a logged sector is the very log
block its contents go to; the machine then has no step (and is not at `done`).
-/
import Nunix.Bytes
import Nunix.Params
import Nunix.Redo

namespace Nunix

open Bytes

/-! ### Data -/

/-- `struct logheader`: the number of logged blocks and their home sectors. -/
structure LogHeader where
  n : ℤ
  sector : ℕ → UInt32

/-- Where the on-disk log lies (`log.start`, `log.size`): a header block at
`start`, then `size - 1` data blocks. -/
structure LogArea where
  start : ℕ
  size : ℕ
  deriving DecidableEq

/-- Sector `x` belongs to the on-disk log. -/
def LogArea.Contains (L : LogArea) (x : ℕ) : Prop := L.start ≤ x ∧ x < L.start + L.size

instance (L : LogArea) (x : ℕ) : Decidable (L.Contains x) := by
  unfold LogArea.Contains; infer_instance

/-- The disk, the dirty buffers of the cache, and the in-memory log header. -/
structure LogSt where
  disk : ℕ → Bytes
  dirty : ℕ → Option Bytes
  lh : LogHeader

/-- The contents `bread` returns for sector `x`. -/
def LogSt.bread (st : LogSt) (x : ℕ) : Bytes := (st.dirty x).getD (st.disk x)

/-- Fill the buffer of sector `x` with `b` and `bwrite` it. -/
def LogSt.bwrite (st : LogSt) (x : ℕ) (b : Bytes) : LogSt :=
  { st with
    disk := Function.update st.disk x b
    dirty := Function.update st.dirty x none }

@[simp] theorem LogSt.bwrite_disk (st : LogSt) (x : ℕ) (b : Bytes) :
    (st.bwrite x b).disk = Function.update st.disk x b := rfl

@[simp] theorem LogSt.bwrite_dirty (st : LogSt) (x : ℕ) (b : Bytes) :
    (st.bwrite x b).dirty = Function.update st.dirty x none := rfl

theorem LogSt.bread_of_clean {st : LogSt} {x : ℕ} (h : st.dirty x = none) :
    st.bread x = st.disk x := by
  simp [bread, h]

/-! ### The header block -/

/-- The header block's `n` field. -/
def headN (b : Bytes) : ℤ := toInt32 (b.get32 0)

/-- The header block's `sector[i]` field. -/
def headSector (b : Bytes) (i : ℕ) : UInt32 := UInt32.ofNat (b.get32 (4 + 4 * i))

/-- The effect of `read_head` on the in-memory header: take over `n` and the
first `n` sectors. -/
def LogHeader.load (lh : LogHeader) (b : Bytes) : LogHeader where
  n := headN b
  sector := fun i => if (i : ℤ) < headN b then headSector b i else lh.sector i

/-- Store the sectors `lh.sector[0 .. k)` in a header block. -/
def LogHeader.storeSectors (lh : LogHeader) (b : Bytes) : ℕ → Bytes
  | 0 => b
  | k + 1 => (lh.storeSectors b k).put32 (4 + 4 * k) (lh.sector k).toNat

/-- The effect of `write_head` on the header block: store `n` and the first `n`
sectors, keep the rest of the block. -/
def LogHeader.store (lh : LogHeader) (b : Bytes) : Bytes :=
  lh.storeSectors (b.put32 0 (ofInt32 lh.n)) lh.n.toNat

theorem LogHeader.storeSectors_get32_zero (lh : LogHeader) (b : Bytes) (k : ℕ) :
    (lh.storeSectors b k).get32 0 = b.get32 0 := by
  induction k with
  | zero => rfl
  | succ k ih =>
      rw [storeSectors, get32_put32_of_disjoint (by omega), ih]

theorem LogHeader.headSector_storeSectors (lh : LogHeader) (b : Bytes) {i k : ℕ}
    (h : i < k) : headSector (lh.storeSectors b k) i = lh.sector i := by
  induction k with
  | zero => omega
  | succ k ih =>
      rw [headSector, storeSectors]
      by_cases hik : i = k
      · subst hik
        rw [get32_put32_self, Nat.mod_eq_of_lt (lh.sector i).toNat_lt,
          UInt32.ofNat_toNat]
      · rw [get32_put32_of_disjoint (by omega)]
        exact ih (by omega)

/-- The header block stored by `write_head` has the in-memory `n`. -/
theorem LogHeader.headN_store (lh : LogHeader) (b : Bytes)
    (h : -2 ^ 31 ≤ lh.n) (h' : lh.n < 2 ^ 31) : headN (lh.store b) = lh.n := by
  rw [headN, store, storeSectors_get32_zero, get32_put32_self,
    Nat.mod_eq_of_lt (ofInt32_lt _), toInt32_ofInt32 h h']

/-- The header block stored by `write_head` has the in-memory sectors. -/
theorem LogHeader.headSector_store (lh : LogHeader) (b : Bytes) {i : ℕ}
    (h : (i : ℤ) < lh.n) : headSector (lh.store b) i = lh.sector i :=
  lh.headSector_storeSectors _ (by omega)

/-! ### The machine -/

/-- Where `commit` or `recover_from_log` stands. -/
inductive Pc
  /-- Entry of `commit`. -/
  | commit
  /-- In `write_log`, about to test `tail < log.lh.n`. -/
  | writeLog (tail : ℕ)
  /-- Before the `write_head` that commits the transaction. -/
  | writeHead
  /-- Entry of `recover_from_log`: before `read_head`. -/
  | readHead
  /-- In `install_trans`, about to test `tail < log.lh.n`. -/
  | installTrans (tail : ℕ)
  /-- Before `log.lh.n = 0`. -/
  | clear
  /-- Before the `write_head` that erases the transaction. -/
  | erase
  | done
  deriving DecidableEq

/-- `write_head`: bring the in-memory header to the header block on disk. -/
def LogSt.writeHead (L : LogArea) (st : LogSt) : LogSt :=
  st.bwrite L.start (st.lh.store (st.bread L.start))

/-- One iteration of `write_log`: copy the cached block to the log. -/
def LogSt.writeLog (L : LogArea) (st : LogSt) (tail : ℕ) : LogSt :=
  st.bwrite (L.start + tail + 1) (st.bread (st.lh.sector tail).toNat)

/-- One iteration of `install_trans`: copy the log block to its home. -/
def LogSt.installTrans (L : LogArea) (st : LogSt) (tail : ℕ) : LogSt :=
  st.bwrite (st.lh.sector tail).toNat (st.bread (L.start + tail + 1))

/-- One step of `commit` or `recover_from_log`. -/
def logStep (L : LogArea) : LogSt × Pc → Option (LogSt × Pc)
  | (st, .commit) => some (st, if 0 < st.lh.n then .writeLog 0 else .done)
  | (st, .writeLog tail) =>
      if (tail : ℤ) < st.lh.n then
        -- bread(sector) would wait for the buffer this process already holds
        if (st.lh.sector tail).toNat = L.start + tail + 1 then none
        else some (st.writeLog L tail, .writeLog (tail + 1))
      else some (st, .writeHead)
  | (st, .writeHead) => some (st.writeHead L, .installTrans 0)
  | (st, .readHead) =>
      some ({ st with lh := st.lh.load (st.bread L.start) }, .installTrans 0)
  | (st, .installTrans tail) =>
      if (tail : ℤ) < st.lh.n then
        if (st.lh.sector tail).toNat = L.start + tail + 1 then none
        else some (st.installTrans L tail, .installTrans (tail + 1))
      else some (st, .clear)
  | (st, .clear) => some ({ st with lh := { st.lh with n := 0 } }, .erase)
  | (st, .erase) => some (st.writeHead L, .done)
  | (_, .done) => none

/-- The state in which the kernel boots on disk `d` and calls
`recover_from_log`: nothing cached, the in-memory header zero. -/
def LogSt.boot (d : ℕ → Bytes) : LogSt where
  disk := d
  dirty := fun _ => none
  lh := { n := 0, sector := fun _ => 0 }

end Nunix
