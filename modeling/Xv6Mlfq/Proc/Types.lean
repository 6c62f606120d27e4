import Xv6Mlfq.Lib.CArray
import Mathlib.Logic.Function.Basic
import Mathlib.Tactic.Simps.Basic
import Mathlib.Order.Fin.Basic

/-!
# Process table, run queues and CPUs

The data of `proc.h`, `pstat.h` and the globals of `proc.c`.  A pointer into the
process table is a slot number; a null pointer is `none`.  Counters of type `int` are
integers — signed overflow has no meaning in C — while the clock `ticks` and the two
fields computed from it keep their 32 bits, because `uint` arithmetic wraps.

Fields that no modelled function reads to decide or report anything are left out: the
address space (`sz`, `pgdir`), the kernel stack page, the trap frame, and the global
debugging arrays `queue0 … state2`.  The *indices* used for the latter are recorded.

What a C function keeps on a stack across a context switch is explicit here.  The
frame of `scheduler` (its `p`, `queue`, `queuepriority` and `count`) is part of the
CPU, the place where a process continues after `swtch` is its `context`, and the local
`np` of a `fork` that is between two critical sections is in `forking`.
-/

namespace Xv6Mlfq

/-- `param.h`: maximum number of processes. -/
abbrev NPROC : ℕ := 64
/-- `param.h`: open files per process. -/
abbrev NOFILE : ℕ := 16
/-- `fs.h`: the root i-number. -/
abbrev ROOTINO : ℕ := 1
/-- `pstat.h`: length of the per-tick arrays. -/
abbrev NTICKS : ℕ := 500
/-- `pstat.h`: number of scheduling records of a process. -/
abbrev NSCHEDSTATS : ℕ := 1500

/-- A pointer to an entry of `ptable.proc`. -/
abbrev Slot := Fin NPROC

/-- A priority level, which also names one of the queues `q0`, `q1`, `q2`. -/
abbrev Level := Fin 3

-- numerals that are levels, slots or CPUs refer to these by name, whatever a module imports
instance neZero_level : NeZero 3 := Nat.instNeZeroSucc

instance neZero_slot : NeZero NPROC := Nat.instNeZeroSucc

instance neZero_one : NeZero 1 := Nat.instNeZeroSucc

instance neZero_two : NeZero 2 := Nat.instNeZeroSucc

/-- `enum procstate`. -/
inductive ProcState
  | UNUSED | EMBRYO | SLEEPING | RUNNABLE | RUNNING | ZOMBIE
  deriving DecidableEq, Repr, Inhabited

/-- A sleep channel: `wait` sleeps on the address of its own process, every other
caller of `sleep` on some kernel address. -/
inductive Chan
  | proc (p : Slot)
  | addr (a : ℕ)
  deriving DecidableEq, Repr

/-- Where `swtch` continues a process: the start of `forkret`, or the return from one
of the calls of `sched`. -/
inductive Context
  | forkret | yield | sleep | wait | exit
  deriving DecidableEq, Repr, Inhabited

/-- How far a `fork` has come: the new slot is allocated, it has its kernel stack, or
it is a complete copy that only has to be made `RUNNABLE`. -/
inductive ForkStage
  | alloced | stacked | copied
  deriving DecidableEq, Repr

/-- `struct sched_stat_t`. -/
structure SchedStat where
  startTick : BitVec 32
  duration : BitVec 32
  priority : Level
  deriving DecidableEq, Repr, Inhabited

/-- The fields of `struct proc` that xv6 has for the life of a process. -/
structure Life where
  state : ProcState
  pid : ℤ
  parent : Option Slot
  context : Context
  chan : Option Chan
  killed : Bool
  ofile : Fin NOFILE → Option ℕ
  cwd : Option ℕ
  name : String
  forking : Option (ForkStage × Slot)

/-- The fields of `struct proc` added for the queues and the statistics. -/
structure Pstat where
  priority : Level
  ticks : Level → ℤ
  times : Level → ℤ
  queue : CArray Level NTICKS
  totalTicks : ℤ
  waitTime : ℤ
  stats : CArray SchedStat NSCHEDSTATS
  numStatUsed : ℤ
  Ticks : ℤ

/-- `struct proc`. -/
structure Proc extends Life, Pstat

/-- The table is zeroed memory at boot. -/
instance : Inhabited Proc where
  default :=
    { state := .UNUSED, pid := 0, parent := none, context := .forkret, chan := none
      killed := false, ofile := fun _ => none, cwd := none, name := "", forking := none
      priority := 0, ticks := fun _ => 0, times := fun _ => 0, queue := default
      totalTicks := 0, waitTime := 0, stats := default, numStatUsed := 0, Ticks := 0 }

/-- `p->queue[i] = v`.  The array is followed by `total_ticks`, so that the one index
past its end, which `TOTAL` reaches, names that field. -/
def Proc.setQueue (p : Proc) (i : ℤ) (v : Level) : Proc :=
  if i = NTICKS then { p with totalTicks := v.val } else { p with queue := p.queue.set i v }

@[simp] theorem Proc.setQueue_life (x : Proc) (i : ℤ) (v : Level) :
    (x.setQueue i v).toLife = x.toLife := by
  simp only [Proc.setQueue]
  split_ifs <;> rfl

/-- `struct pqueue`, with `end` under the name `endIdx`. -/
structure PQueue where
  queue : CArray (Option Slot) NPROC
  ticks : ℤ
  endIdx : ℤ
  numOfProc : ℤ
  priority : Level

instance : Inhabited PQueue where
  default := { queue := default, ticks := 0, endIdx := 0, numOfProc := 0, priority := 0 }

/-- The entries `queue[0..end)`. -/
def PQueue.entries (pq : PQueue) : List (Option Slot) := pq.queue.window pq.endIdx

/-- The locals of one slice of `scheduler`. -/
structure Frame where
  p : Slot
  queue : Level
  queuepriority : Level
  count : ℤ
  deriving DecidableEq, Repr

/-- Where a CPU is in `scheduler`: before `acquire`; in the loop over the table, about
to look at entry `i`; at the guard of the slice loop; in the process it switched to;
or just switched back. -/
inductive Ctl
  | idle
  | scan (i : ℕ)
  | slice (f : Frame)
  | running (f : Frame)
  | returned (f : Frame)
  deriving DecidableEq, Repr

/-- The slice a CPU is in the middle of. -/
def Ctl.frame : Ctl → Option Frame
  | .idle | .scan _ => none
  | .slice f | .running f | .returned f => some f

/-- `struct cpu`. -/
structure Cpu where
  proc : Option Slot
  ctl : Ctl
  deriving DecidableEq, Repr

/-- An index into one of the arrays: `pq->queue[i]`, an array of `NTICKS` entries
indexed by `TOTAL`, or `p->stats[i]`. -/
inductive Use
  | queue (i : ℤ)
  | total (i : ℤ)
  | stats (i : ℤ)
  deriving DecidableEq, Repr

/-- The globals outside the process table and the queues, with `n` CPUs. -/
structure Machine (n : ℕ) where
  initproc : Option Slot
  nextpid : ℤ
  TOTAL : ℤ
  ticks : BitVec 32
  lock : Option (Fin n)
  cpu : Fin n → Cpu

/-- The kernel.  `uses` records every index as it is used; nothing reads it. -/
structure Kernel (n : ℕ) extends Machine n where
  proc : Slot → Proc
  q : Level → PQueue
  uses : List Use

/-- Zeroed memory, except that `nextpid` is initialised. -/
instance {n : ℕ} : Inhabited (Kernel n) where
  default :=
    { proc := fun _ => default, q := fun _ => default, initproc := none, nextpid := 1
      TOTAL := 0, ticks := 0, lock := none, cpu := fun _ => ⟨none, .idle⟩, uses := [] }

namespace Kernel

variable {n : ℕ}

/-- Update one entry of the process table. -/
@[simps -fullyApplied toMachine proc q uses] def modify (s : Kernel n) (p : Slot)
    (f : Proc → Proc) : Kernel n :=
  { s with proc := Function.update s.proc p (f (s.proc p)) }

/-- Move a CPU to another place of `scheduler`. -/
@[simps -fullyApplied] def setCtl (s : Kernel n) (c : Fin n) (x : Ctl) : Kernel n :=
  { s with cpu := Function.update s.cpu c ⟨(s.cpu c).proc, x⟩ }

/-- `c->proc = p`. -/
@[simps -fullyApplied] def setCur (s : Kernel n) (c : Fin n) (p : Option Slot) : Kernel n :=
  { s with cpu := Function.update s.cpu c ⟨p, (s.cpu c).ctl⟩ }

/-- Acquire or release `ptable.lock`. -/
@[simps -fullyApplied] def setLock (s : Kernel n) (x : Option (Fin n)) : Kernel n :=
  { s with lock := x }

/-- Replace one of the queues. -/
@[simps -fullyApplied toMachine proc q uses] def setQ (s : Kernel n) (k : Level) (pq : PQueue) :
    Kernel n :=
  { s with q := Function.update s.q k pq }

/-- Record the use of indices. -/
@[simps -fullyApplied toMachine proc q uses] def use (s : Kernel n) (us : List Use) : Kernel n :=
  { s with uses := s.uses ++ us }

@[simp] theorem use_use (s : Kernel n) (us vs : List Use) :
    (s.use us).use vs = s.use (us ++ vs) := by
  simp [use, List.append_assoc]

@[simp] theorem use_setQ (s : Kernel n) (us : List Use) (k : Level) (pq : PQueue) :
    (s.use us).setQ k pq = (s.setQ k pq).use us := rfl

@[simp] theorem setQ_self (s : Kernel n) (k : Level) : s.setQ k (s.q k) = s := by
  simp [setQ]

end Kernel
end Xv6Mlfq
