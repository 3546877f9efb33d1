import Nunix.Admission
import Nunix.GroupCommit
import Nunix.LogRace
import Nunix.Traced
import Nunix.UserAccess
import Nunix.Fs.Disk
import Nunix.Hoare
import Nunix.Ownership
import Nunix.Fs.Dir
import Nunix.Fs.Table
import Nunix.Fs.Owned
import Nunix.Fs.Content
import Nunix.Fs.Trunc
import Nunix.Fs.Cache
import Nunix.Fs.Calls
import Nunix.Fs.Ops
import Nunix.Fs.WellFormed
import Nunix.Fs.Mkfs
import Nunix.Fs.Image
import Nunix.Fs.DataArea
import Nunix.Fs.Plan
import Nunix.Fs.WriteBudget
import Nunix.PipeFifo
import Nunix.PipeWake
import Nunix.Bio
import Nunix.BioCoherence
import Nunix.Icache
import Nunix.IcacheCoherence
import Nunix.Fs.Names
import Nunix.Fs.Entries
import Nunix.Fs.Paths
import Nunix.Fs.Sys
import Nunix.Sched
import Nunix.SchedInv
import Nunix.SchedRun
import Nunix.ProcTable
import Nunix.ProcLife
import Nunix.ProcLedger
import Nunix.ProcKill
import Nunix.ProcTrace
import Nunix.SleepWakeup
import Nunix.Fs.FileTable
import Nunix.Fs.Frames
import Nunix.Fs.InodeRefs
import Nunix.Fs.MkfsRead
import Nunix.Fs.Transactions
import Nunix.Fs.MkfsForm
import Nunix.Pool
import Nunix.Vm.Paging
import Nunix.Vm.Space
import Nunix.Vm.Tables
import Nunix.Vm.Uvm
import Nunix.Vm.CopyOut
import Nunix.Vm.Growproc
import Nunix.Vm.Exec
import Nunix.Vm.ArgStack
import Nunix.Vm.ExecImage
import Nunix.Vm.ExecResult
import Nunix.Vm.Hostile
import Nunix.Links
import Nunix.Umalloc.FreeList
import Nunix.Umalloc.Heap
import Nunix.Shell.Model
import Nunix.Shell.Tokens
import Nunix.Shell.Words
import Nunix.Vm.CopyUvm
import Nunix.Vm.Range
import Nunix.Fs.ByteArray
import Nunix.Fs.DirMap
import Nunix.Fs.NameCalls
import Nunix.Fs.OneName
import Nunix.Grep.Match
import Nunix.Mp
import Nunix.Umalloc.Kernel
import Nunix.Memmove
import Nunix.Printint
import Nunix.Fs.Layout
