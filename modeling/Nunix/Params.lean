/-
Nunix/Params.lean

The kernel's compile-time constants (param.h, fs.h, file.h, stat.h, memlayout.h).
-/
import Mathlib

namespace Nunix

/-! ### param.h -/

/-- Maximum number of processes. -/
def NPROC : ℕ := 64

/-- Maximum number of CPUs. -/
def NCPU : ℕ := 8

/-- Open files per system. -/
def NFILE : ℕ := 100

/-- Open files per process. -/
def NOFILE : ℕ := 16

/-- Maximum number of active i-nodes. -/
def NINODE : ℕ := 50

/-- Maximum major device number. -/
def NDEV : ℕ := 10

/-- Device number of the file system root disk. -/
def ROOTDEV : ℕ := 1

/-- Maximum number of blocks any file system operation writes. -/
def MAXOPBLOCKS : ℕ := 10

/-- Maximum number of data sectors in the on-disk log. -/
def LOGSIZE : ℕ := MAXOPBLOCKS * 3

/-- Size of the disk block cache. -/
def NBUF : ℕ := MAXOPBLOCKS * 3

/-! ### fs.h, file.h, stat.h -/

/-- Block size. -/
def BSIZE : ℕ := 512

/-- Direct block addresses in an inode. -/
def NDIRECT : ℕ := 12

/-- Block addresses in the indirect block. -/
def NINDIRECT : ℕ := BSIZE / 4

/-- Maximum file size in blocks. -/
def MAXFILE : ℕ := NDIRECT + NINDIRECT

/-- Inodes per block. -/
def IPB : ℕ := BSIZE / 64

/-- Bitmap bits per block. -/
def BPB : ℕ := BSIZE * 8

/-- Bytes of a name in a directory entry. -/
def DIRSIZ : ℕ := 14

/-- Inode number of the root directory. -/
def ROOTINO : ℕ := 1

/-- Inode types. -/
def T_DIR : Int16 := 1

@[inherit_doc T_DIR] def T_FILE : Int16 := 2

@[inherit_doc T_DIR] def T_DEV : Int16 := 3

/-- Major device number of the console. -/
def CONSOLE : Int16 := 1

/-! ### memlayout.h -/

/-- First kernel virtual address. -/
def KERNBASE : ℕ := 0x80000000

end Nunix
