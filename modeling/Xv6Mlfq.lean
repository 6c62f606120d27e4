import Xv6Mlfq.Lib.Transition
import Xv6Mlfq.Proc.Types
import Xv6Mlfq.Proc.Scheduler
import Xv6Mlfq.Sched.Handoff
import Xv6Mlfq.Lib.Multilevel
import Xv6Mlfq.Sched.Board
import Xv6Mlfq.Sched.Membership
import Xv6Mlfq.Sched.Bounds
import Xv6Mlfq.Sched.ForkFailure
import Xv6Mlfq.Sched.Aging
import Xv6Mlfq.Sched.RoundRobin
import Xv6Mlfq.Sched.Pass
import Xv6Mlfq.Stats.Totals
import Xv6Mlfq.Lib.Timeline
import Xv6Mlfq.Stats.Records
import Xv6Mlfq.Stats.Reuse
import Xv6Mlfq.Stats.Overrun
import Xv6Mlfq.Lib.Family
import Xv6Mlfq.Life.Families
import Xv6Mlfq.Life.Kill
import Xv6Mlfq.Life.Wait
import Xv6Mlfq.Lib.Monitor
import Xv6Mlfq.Sync.Sleep
import Xv6Mlfq.Sync.SleepLock
import Xv6Mlfq.Lib.RedoLog
import Xv6Mlfq.Log.Disk
import Xv6Mlfq.Log.System
import Xv6Mlfq.Log.Crash
import Xv6Mlfq.Log.Reservation
import Xv6Mlfq.Bio.Cache
import Xv6Mlfq.Lib.WriteBack
import Xv6Mlfq.Bio.Control
import Xv6Mlfq.Bio.Refinement
import Xv6Mlfq.Vm.AddressSpace
import Xv6Mlfq.Fs.Blocks
import Xv6Mlfq.Fs.Owned
import Xv6Mlfq.Fs.SharedFile
import Xv6Mlfq.Mkfs.Image
import Xv6Mlfq.Mkfs.Append
import Xv6Mlfq.Mkfs.Format
import Xv6Mlfq.Mkfs.WellFormed
import Xv6Mlfq.Ipc.Pipe
import Xv6Mlfq.Ipc.Console
import Xv6Mlfq.Bio.Ide
import Xv6Mlfq.Shell.Grammar
import Xv6Mlfq.Shell.Parser
import Xv6Mlfq.Shell.Correct
import Xv6Mlfq.Sched.Slice
import Xv6Mlfq.Lib.Ledger
import Xv6Mlfq.Vm.Conservation
import Xv6Mlfq.Vm.Teardown
import Xv6Mlfq.Vm.Build
import Xv6Mlfq.Vm.Grow
import Xv6Mlfq.Vm.Fork
import Xv6Mlfq.Exec.Load
import Xv6Mlfq.Exec.Stack
import Xv6Mlfq.Exec.Atomic
import Xv6Mlfq.Exec.UserStack
import Xv6Mlfq.Syscall.Args
import Xv6Mlfq.Fs.ByteArray
import Xv6Mlfq.Fs.Dirents
import Xv6Mlfq.Fs.Paths
import Xv6Mlfq.Lib.Cycle
import Xv6Mlfq.Lib.Extents
import Xv6Mlfq.Umalloc.Malloc
import Xv6Mlfq.Umalloc.FreeList
import Xv6Mlfq.Umalloc.Runs
import Xv6Mlfq.Fs.Logged
import Xv6Mlfq.Fs.LogCost
import Xv6Mlfq.Fs.LogBound
import Xv6Mlfq.Sched.Selection
import Xv6Mlfq.Lib.Region
import Xv6Mlfq.Libc.Memmove
import Xv6Mlfq.Vm.Skip
import Xv6Mlfq.Grep.Match
import Xv6Mlfq.Mp.Init
import Xv6Mlfq.Lib.Lines
import Xv6Mlfq.Grep.Stream
import Xv6Mlfq.Shell.Structs
import Xv6Mlfq.Sync.Spinlock
import Xv6Mlfq.Exec.Space
