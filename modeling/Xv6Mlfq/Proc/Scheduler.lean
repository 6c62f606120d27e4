import Xv6Mlfq.Lib.Transition
import Xv6Mlfq.Proc.Lifecycle

/-!
# The scheduler and the system it drives

`scheduler()` of every CPU, the processes it switches to and the clock, as one step
function.  A label names the CPU that moves and what the environment contributes (the
channel of a `sleep`, the outcome of an allocation).  A step is at most one piece of
code between two places where another CPU may get in, so a run is an arbitrary
interleaving of the critical sections of `ptable.lock`, on any number `n` of CPUs.

The lock is held by a CPU, not by a process: `scheduler` acquires it, the process it
switches to releases it (`resume`), and a process that leaves the CPU acquires it and
hands it back to `scheduler` of the same CPU.

## Main definitions

* `Kernel.dispatch`, `Kernel.afterSwtch`, `Kernel.sliceEnd` — the three parts of the
  body of a slice.
* `Label`, `step` — the moves of the system.
* `boot` — the state `userinit` leaves, with every CPU at the top of `scheduler`.
-/

namespace Xv6Mlfq
namespace Kernel

variable {n : ℕ}

/-! ## The body of a slice -/

/-- The slice loop up to `swtch`.  `queue0[TOTAL]` and `name0[TOTAL]` (or those of the
process's level) are written for debugging. -/
def dispatch (s : Kernel n) (c : Fin n) (f : Frame) : Kernel n :=
  let i := (s.proc f.p).numStatUsed
  let s := s.use [.total s.TOTAL, .total s.TOTAL, .stats i, .stats i]
  let s := s.setCur c (some f.p)
  s.modify f.p fun x => { x with
    state := .RUNNING
    stats := x.stats.set i { x.stats.get i with startTick := s.ticks, priority := x.priority } }

/-- The slice loop after `swtch`. -/
def afterSwtch (s : Kernel n) (c : Fin n) (f : Frame) : Kernel n :=
  let i := (s.proc f.p).numStatUsed
  let s := s.use [.stats i, .stats i]
  let s := s.modify f.p fun x => { x with
    stats := x.stats.set i { x.stats.get i with
      duration := (x.stats.get i).duration + (s.ticks - (x.stats.get i).startTick) } }
  let s := s.setCur c none
  let s := s.use [.total s.TOTAL]
  let s := s.modify f.p fun x => { x with Ticks := x.Ticks + 1 }
  let s := s.updatePstat
  { s with TOTAL := if s.TOTAL < NTICKS then s.TOTAL + 1 else s.TOTAL }

/-- The end of a slice.  A process that is still `RUNNABLE` in `q2` with fewer than 50
ticks is in none of the three cases and keeps its place. -/
def sliceEnd (s : Kernel n) (f : Frame) : Kernel n :=
  let p := f.p
  let s := s.modify p fun x => { x with
    ticks := Function.update x.ticks f.queuepriority (x.ticks f.queuepriority + f.count)
    times := Function.update x.times x.priority (x.times x.priority + 1) }
  let x := s.proc p
  let next := s.modify p fun x => { x with numStatUsed := x.numStatUsed + 1 }
  if x.state = .RUNNABLE ∧ (x.priority = 1 ∨ x.priority = 0) then next.degrade f.queue p
  else if x.state = .RUNNABLE ∧ x.priority = 2 ∧ 50 ≤ x.Ticks then next.boost p
  else if x.state = .SLEEPING then (next.deleteQueue f.queue p).addQueue f.queue p
  else s

/-- The scan found the process to run: set up the locals of a slice. -/
def startSlice (s : Kernel n) (c : Fin n) (p : Slot) : Kernel n :=
  (s.use s.returnQueueUses).setCtl c (.slice ⟨p, s.returnQueue, (s.proc p).priority, 0⟩)

/-- The guard of the slice loop. -/
def sliceGoesOn (s : Kernel n) (f : Frame) : Prop :=
  (s.proc f.p).state = .RUNNABLE ∧ f.count < (s.q f.queue).ticks

instance (s : Kernel n) (f : Frame) : Decidable (s.sliceGoesOn f) :=
  inferInstanceAs (Decidable (_ ∧ _))

/-! ## Processes on a CPU -/

/-- The slice whose process has control of the CPU and does not hold the lock. -/
def current (s : Kernel n) (c : Fin n) : Option Frame :=
  match (s.cpu c).ctl with
  | .running f => if s.lock = some c then none else some f
  | _ => none

/-- `sched`: hand the CPU and the lock to `scheduler`. -/
def sched (s : Kernel n) (c : Fin n) (f : Frame) : Kernel n :=
  (s.setLock (some c)).setCtl c (.returned f)

/-- `sleep` tidies up after `sched` returns. -/
def awake (s : Kernel n) (p : Slot) : Kernel n := s.modify p fun x => { x with chan := none }

/-- A round of `wait` that begins with the lock held, up to its release. -/
def waitRound (s : Kernel n) (c : Fin n) (f : Frame) : Kernel n :=
  match s.wait f.p with
  | (.sleeps, s) => s.sched c f
  | (_, s) => s.setLock none

def setForking (s : Kernel n) (p : Slot) (x : Option (ForkStage × Slot)) : Kernel n :=
  s.modify p fun y => { y with forking := x }

end Kernel

open Kernel

variable {n : ℕ}

/-- The moves of the system. -/
inductive Label (n : ℕ)
  /-- `scheduler`: enable interrupts and acquire the lock. -/
  | acquire (c : Fin n)
  /-- `scheduler`: one round of the loop over the table, or its end. -/
  | scan (c : Fin n)
  /-- `scheduler`: the guard of the slice loop, then `swtch` or the end of the slice. -/
  | loop (c : Fin n)
  /-- The process switched to continues where it left the CPU. -/
  | resume (c : Fin n)
  /-- `scheduler`: continue after `swtch`. -/
  | back (c : Fin n)
  | yield (c : Fin n)
  | sleep (c : Fin n) (chan : ℕ)
  | exit (c : Fin n)
  | wait (c : Fin n)
  | kill (c : Fin n) (pid : ℤ)
  /-- `trap`: the process did something in user space that it must not do. -/
  | fault (c : Fin n)
  /-- `fork`: the critical section of `allocproc`. -/
  | forkAlloc (c : Fin n)
  /-- `fork`: the kernel stack. -/
  | forkStack (c : Fin n) (kalloc : Bool)
  /-- `fork`: the copy of the address space and of the process. -/
  | forkCopy (c : Fin n) (setupkvm : Bool) (pages : List Bool)
  /-- `fork`: its own critical section. -/
  | forkRun (c : Fin n)
  /-- `wakeup`, called by a process or an interrupt handler. -/
  | wakeup (chan : ℕ)
  /-- The timer interrupt of CPU 0 increments `ticks`. -/
  | tick
  deriving DecidableEq, Repr

/-- A system call that needs the lock and is not in the middle of a `fork`. -/
def syscall (s : Kernel n) (c : Fin n) (call : Frame → Option (Kernel n)) : Option (Kernel n) :=
  match s.current c with
  | some f => if s.lock = none ∧ (s.proc f.p).forking = none then call f else none
  | none => none

/-- A piece of `fork` after `allocproc` has claimed the slot `np`. -/
def forkStep (s : Kernel n) (c : Fin n) (stage : ForkStage) (go : Slot → Slot → Kernel n) :
    Option (Kernel n) :=
  match s.current c with
  | some f =>
    match (s.proc f.p).forking with
    | some (st, np) => if st = stage then some (go f.p np) else none
    | none => none
  | none => none

/-- One move; `none` when it is not possible (or ends in `panic`). -/
def step : Label n → Kernel n → Option (Kernel n)
  | .acquire c, s =>
    if s.lock = none ∧ (s.cpu c).ctl = .idle then
      some ((s.setLock (some c)).setCtl c (.scan 0))
    else none
  | .scan c, s =>
    match (s.cpu c).ctl with
    | .scan i =>
      if h : i < NPROC then
        let p : Slot := ⟨i, h⟩
        let (r, s) := s.returnProc
        if r = some p then some (s.startSlice c p)
        else some (s.setCtl c (.scan (i + 1)))
      else some ((s.setLock none).setCtl c .idle)
    | _ => none
  | .loop c, s =>
    match (s.cpu c).ctl with
    | .slice f =>
      if s.sliceGoesOn f then some ((s.dispatch c f).setCtl c (.running f))
      else some ((s.sliceEnd f).setCtl c (.scan (f.p + 1)))
    | _ => none
  | .resume c, s =>
    match (s.cpu c).ctl with
    | .running f =>
      if s.lock = some c then
        match (s.proc f.p).context with
        | .forkret | .yield => some (s.setLock none)
        | .sleep => some ((s.awake f.p).setLock none)
        | .wait => some ((s.awake f.p).waitRound c f)
        | .exit => none
      else none
    | _ => none
  | .back c, s =>
    match (s.cpu c).ctl with
    | .returned f =>
      some ((s.afterSwtch c f).setCtl c (.slice { f with count := f.count + 1 }))
    | _ => none
  | .yield c, s =>
    match s.current c with
    | some f => if s.lock = none then some ((s.yield f.p).sched c f) else none
    | none => none
  | .sleep c chan, s => syscall s c fun f => some ((s.sleep f.p chan).sched c f)
  | .exit c, s => syscall s c fun f =>
    if s.initproc = some f.p then none else some ((s.exit f.p).sched c f)
  | .wait c, s => syscall s c fun f => some (s.waitRound c f)
  | .kill c pid, s => syscall s c fun _ => some (s.kill pid).2
  | .fault c, s =>
      match s.current c with
      | some f => if (s.proc f.p).forking = none then some (s.fault f.p) else none
      | none => none
  | .forkAlloc c, s => syscall s c fun f =>
    match s.findUnused with
    | none => some s
    | some np => some ((s.claimSlot np).setForking f.p (some (.alloced, np)))
  | .forkStack c kalloc, s => forkStep s c .alloced fun p np =>
    (s.giveStack np kalloc).setForking p (if kalloc then some (.stacked, np) else none)
  | .forkCopy c setupkvm pages, s => forkStep s c .stacked fun p np =>
    if copyuvm setupkvm pages then (s.copyProc p np).setForking p (some (.copied, np))
    else (s.setState np .UNUSED).setForking p none
  | .forkRun c, s =>
    if s.lock = none then
      forkStep s c .copied fun p np => (s.setState np .RUNNABLE).setForking p none
    else none
  | .wakeup chan, s => if s.lock = none then some (s.wakeup1 (some (.addr chan))) else none
  | .tick, s =>
    if ∀ c, s.lock = some c → c.val ≠ 0 then some { s with ticks := s.ticks + 1 } else none

/-! ## What the pieces of a slice leave alone -/

namespace Kernel

@[simp] theorem sliceEnd_toMachine (s : Kernel n) (f : Frame) :
    (s.sliceEnd f).toMachine = s.toMachine := by
  simp only [sliceEnd]
  split_ifs <;> simp

@[simp] theorem sliceEnd_life (s : Kernel n) (f : Frame) (r : Slot) :
    ((s.sliceEnd f).proc r).toLife = (s.proc r).toLife := by
  simp only [sliceEnd]
  by_cases h : r = f.p
  · subst h
    split_ifs <;> simp
  · split_ifs <;> simp [h]

@[simp] theorem dispatch_q (s : Kernel n) (c : Fin n) (f : Frame) : (s.dispatch c f).q = s.q := rfl

theorem dispatch_proc_ne (s : Kernel n) (c : Fin n) {f : Frame} {r : Slot} (h : r ≠ f.p) :
    (s.dispatch c f).proc r = s.proc r := by
  simp [dispatch, h]

theorem dispatch_life (s : Kernel n) (c : Fin n) (f : Frame) :
    ((s.dispatch c f).proc f.p).toLife = { (s.proc f.p).toLife with state := .RUNNING } := by
  simp [dispatch]

@[simp] theorem afterSwtch_q (s : Kernel n) (c : Fin n) (f : Frame) :
    (s.afterSwtch c f).q = s.q := rfl

@[simp] theorem afterSwtch_life (s : Kernel n) (c : Fin n) (f : Frame) (r : Slot) :
    ((s.afterSwtch c f).proc r).toLife = (s.proc r).toLife := by
  simp only [afterSwtch, updatePstat_life]
  by_cases h : r = f.p
  · subst h; simp
  · simp [h]

theorem dispatch_priority (s : Kernel n) (c : Fin n) (f : Frame) (r : Slot) :
    ((s.dispatch c f).proc r).priority = (s.proc r).priority := by
  by_cases h : r = f.p
  · subst h; simp [dispatch]
  · rw [dispatch_proc_ne s c h]

theorem afterSwtch_priority (s : Kernel n) (c : Fin n) (f : Frame) (r : Slot) :
    ((s.afterSwtch c f).proc r).priority = (s.proc r).priority := by
  simp only [afterSwtch, updatePstat_priority]
  by_cases h : r = f.p
  · subst h; simp
  · simp [h]

@[simp] theorem setForking_toMachine (s : Kernel n) (p : Slot)
    (x : Option (ForkStage × Slot)) : (s.setForking p x).toMachine = s.toMachine := rfl

@[simp] theorem setForking_q (s : Kernel n) (p : Slot) (x : Option (ForkStage × Slot)) :
    (s.setForking p x).q = s.q := rfl

@[simp] theorem setForking_pstat (s : Kernel n) (p r : Slot) (x : Option (ForkStage × Slot)) :
    ((s.setForking p x).proc r).toPstat = (s.proc r).toPstat := by
  by_cases h : r = p
  · subst h; simp [setForking]
  · simp [setForking, h]

@[simp] theorem setForking_state (s : Kernel n) (p r : Slot) (x : Option (ForkStage × Slot)) :
    ((s.setForking p x).proc r).state = (s.proc r).state := by
  by_cases h : r = p
  · subst h; simp [setForking]
  · simp [setForking, h]

@[simp] theorem setForking_pid (s : Kernel n) (p r : Slot) (x : Option (ForkStage × Slot)) :
    ((s.setForking p x).proc r).pid = (s.proc r).pid := by
  by_cases h : r = p
  · subst h; simp [setForking]
  · simp [setForking, h]

/-- The three ways a round of `wait` can end. -/
theorem waitRound_cases (s : Kernel n) (c : Fin n) (f : Frame) :
    (∃ z, s.zombieChild f.p = some z ∧ s.waitRound c f = (s.reap z).setLock none) ∨
    (s.zombieChild f.p = none ∧ s.waitRound c f = s.setLock none) ∨
    (s.zombieChild f.p = none ∧ s.waitRound c f =
      (s.modify f.p fun x => { x with
        chan := some (.proc f.p), state := .SLEEPING, context := .wait }).sched c f) := by
  simp only [waitRound, wait]
  cases hz : s.zombieChild f.p with
  | some z => exact .inl ⟨z, rfl, rfl⟩
  | none =>
    right
    by_cases hk : (∀ p, (s.proc p).parent ≠ some f.p) ∨ (s.proc f.p).killed
    · rw [if_pos hk]
      exact .inl ⟨rfl, rfl⟩
    · rw [if_neg hk]
      exact .inr ⟨rfl, rfl⟩

end Kernel

/-! ## What a step can do

One inversion lemma for each label: when the step is possible and what it leaves.
Every invariant is proved from these. -/

variable {s s' : Kernel n} {c : Fin n}

theorem current_eq_some {f : Frame} (h : s.current c = some f) :
    (s.cpu c).ctl = .running f ∧ s.lock ≠ some c := by
  simp only [current] at h
  split at h
  case h_1 g hc =>
    split at h
    · cases h
    · cases h
      exact ⟨hc, by assumption⟩
  case h_2 => cases h

theorem syscall_eq_some {call : Frame → Option (Kernel n)} (h : syscall s c call = some s') :
    ∃ f, (s.cpu c).ctl = .running f ∧ s.lock = none ∧ (s.proc f.p).forking = none ∧
      call f = some s' := by
  simp only [syscall] at h
  split at h
  case h_1 f hf =>
    split at h
    case isTrue hg => exact ⟨f, (current_eq_some hf).1, hg.1, hg.2, h⟩
    case isFalse => cases h
  case h_2 => cases h

theorem forkStep_eq_some {stage : ForkStage}
    {go : Slot → Slot → Kernel n} (h : forkStep s c stage go = some s') :
    ∃ f np, (s.cpu c).ctl = .running f ∧ s.lock ≠ some c ∧
      (s.proc f.p).forking = some (stage, np) ∧ s' = go f.p np := by
  simp only [forkStep] at h
  split at h
  case h_1 f hf =>
    split at h
    case h_1 st np hst =>
      split at h
      case isTrue heq =>
        cases h
        exact ⟨f, np, (current_eq_some hf).1, (current_eq_some hf).2, heq ▸ hst, rfl⟩
      case isFalse => cases h
    case h_2 => cases h
  case h_2 => cases h

theorem step_acquire (h : step (.acquire c) s = some s') : s.lock = none ∧ (s.cpu c).ctl = .idle ∧
      s' = (s.setLock (some c)).setCtl c (.scan 0) := by
  simp only [step] at h
  split at h
  case isTrue hg => exact ⟨hg.1, hg.2, (Option.some.inj h).symm⟩
  case isFalse => cases h

theorem step_scan (h : step (.scan c) s = some s') : ∃ i, (s.cpu c).ctl = .scan i ∧
      ((∃ p : Slot, p.val = i ∧ s.returnProc.1 = some p ∧ s' = s.returnProc.2.startSlice c p) ∨
        (i < NPROC ∧ s' = s.returnProc.2.setCtl c (.scan (i + 1))) ∨
        (NPROC ≤ i ∧ s' = (s.setLock none).setCtl c .idle)) := by
  simp only [step] at h
  split at h
  case h_1 i hc =>
    refine ⟨i, hc, ?_⟩
    split at h
    case isTrue hi =>
      split at h
      case isTrue hr => exact .inl ⟨⟨i, hi⟩, rfl, hr, (Option.some.inj h).symm⟩
      case isFalse => exact .inr (.inl ⟨hi, (Option.some.inj h).symm⟩)
    case isFalse hi => exact .inr (.inr ⟨by omega, (Option.some.inj h).symm⟩)
  case h_2 => cases h

theorem step_loop (h : step (.loop c) s = some s') : ∃ f, (s.cpu c).ctl = .slice f ∧
      ((s.sliceGoesOn f ∧ s' = (s.dispatch c f).setCtl c (.running f)) ∨
        (¬ s.sliceGoesOn f ∧ s' = (s.sliceEnd f).setCtl c (.scan (f.p + 1)))) := by
  simp only [step] at h
  split at h
  case h_1 f hc =>
    refine ⟨f, hc, ?_⟩
    split at h
    case isTrue hg => exact .inl ⟨hg, (Option.some.inj h).symm⟩
    case isFalse hg => exact .inr ⟨hg, (Option.some.inj h).symm⟩
  case h_2 => cases h

theorem step_resume (h : step (.resume c) s = some s') :
    ∃ f, (s.cpu c).ctl = .running f ∧ s.lock = some c ∧
      (s' = s.setLock none ∨ s' = (s.awake f.p).setLock none ∨
        (s.proc f.p).context = .wait ∧ s' = (s.awake f.p).waitRound c f) := by
  simp only [step] at h
  split at h
  case h_1 f hc =>
    split at h
    case isTrue hl =>
      refine ⟨f, hc, hl, ?_⟩
      split at h
      case h_1 | h_2 => exact .inl (Option.some.inj h).symm
      case h_3 => exact .inr (.inl (Option.some.inj h).symm)
      case h_4 hx => exact .inr (.inr ⟨hx, (Option.some.inj h).symm⟩)
      case h_5 => cases h
    case isFalse => cases h
  case h_2 => cases h

theorem step_back (h : step (.back c) s = some s') : ∃ f, (s.cpu c).ctl = .returned f ∧
      s' = (s.afterSwtch c f).setCtl c (.slice { f with count := f.count + 1 }) := by
  simp only [step] at h
  split at h
  case h_1 f hc => exact ⟨f, hc, (Option.some.inj h).symm⟩
  case h_2 => cases h

theorem step_yield (h : step (.yield c) s = some s') :
    ∃ f, (s.cpu c).ctl = .running f ∧ s.lock = none ∧ s' = (s.yield f.p).sched c f := by
  simp only [step] at h
  split at h
  case h_1 f hf =>
    split at h
    case isTrue hl => exact ⟨f, (current_eq_some hf).1, hl, (Option.some.inj h).symm⟩
    case isFalse => cases h
  case h_2 => cases h

theorem step_sleep {chan : ℕ} (h : step (.sleep c chan) s = some s') :
    ∃ f, (s.cpu c).ctl = .running f ∧ s.lock = none ∧ (s.proc f.p).forking = none ∧
      s' = (s.sleep f.p chan).sched c f := by
  obtain ⟨f, hc, hl, hf, hs⟩ := syscall_eq_some h
  exact ⟨f, hc, hl, hf, (Option.some.inj hs).symm⟩

theorem step_exit (h : step (.exit c) s = some s') :
    ∃ f, (s.cpu c).ctl = .running f ∧ s.lock = none ∧ (s.proc f.p).forking = none ∧
      s.initproc ≠ some f.p ∧ s' = (s.exit f.p).sched c f := by
  obtain ⟨f, hc, hl, hf, hs⟩ := syscall_eq_some h
  split at hs
  case isTrue => cases hs
  case isFalse hi => exact ⟨f, hc, hl, hf, hi, (Option.some.inj hs).symm⟩

theorem step_wait (h : step (.wait c) s = some s') :
    ∃ f, (s.cpu c).ctl = .running f ∧ s.lock = none ∧ (s.proc f.p).forking = none ∧
      s' = s.waitRound c f := by
  obtain ⟨f, hc, hl, hf, hs⟩ := syscall_eq_some h
  exact ⟨f, hc, hl, hf, (Option.some.inj hs).symm⟩

theorem step_kill {pid : ℤ} (h : step (.kill c pid) s = some s') :
    ∃ f, (s.cpu c).ctl = .running f ∧ s.lock = none ∧ s' = (s.kill pid).2 := by
  obtain ⟨f, hc, hl, _, hs⟩ := syscall_eq_some h
  exact ⟨f, hc, hl, (Option.some.inj hs).symm⟩

theorem step_fault (h : step (.fault c) s = some s') :
    ∃ f, (s.cpu c).ctl = .running f ∧ s.lock ≠ some c ∧ s' = s.fault f.p := by
  simp only [step] at h
  split at h
  case h_1 f hf =>
    obtain ⟨hc, hl⟩ := current_eq_some hf
    split at h
    case isTrue => exact ⟨f, hc, hl, (Option.some.inj h).symm⟩
    case isFalse => cases h
  case h_2 => cases h

theorem step_forkAlloc (h : step (.forkAlloc c) s = some s') :
    ∃ f, (s.cpu c).ctl = .running f ∧ s.lock = none ∧ (s.proc f.p).forking = none ∧
      ((s.findUnused = none ∧ s' = s) ∨
        ∃ np, s.findUnused = some np ∧
          s' = (s.claimSlot np).setForking f.p (some (.alloced, np))) := by
  obtain ⟨f, hc, hl, hf, hs⟩ := syscall_eq_some h
  refine ⟨f, hc, hl, hf, ?_⟩
  split at hs
  case h_1 hn => exact .inl ⟨hn, (Option.some.inj hs).symm⟩
  case h_2 np hn => exact .inr ⟨np, hn, (Option.some.inj hs).symm⟩

theorem step_forkStack {kalloc : Bool} (h : step (.forkStack c kalloc) s = some s') :
    ∃ f np, (s.cpu c).ctl = .running f ∧ s.lock ≠ some c ∧
      (s.proc f.p).forking = some (.alloced, np) ∧
      s' = (s.giveStack np kalloc).setForking f.p
        (if kalloc then some (.stacked, np) else none) := by
  simp only [step] at h
  exact forkStep_eq_some h

theorem step_forkCopy {setupkvm : Bool} {pages : List Bool}
    (h : step (.forkCopy c setupkvm pages) s = some s') :
    ∃ f np, (s.cpu c).ctl = .running f ∧ s.lock ≠ some c ∧
      (s.proc f.p).forking = some (.stacked, np) ∧
      s' = if copyuvm setupkvm pages then
          (s.copyProc f.p np).setForking f.p (some (.copied, np))
        else (s.setState np .UNUSED).setForking f.p none := by
  simp only [step] at h
  exact forkStep_eq_some h

theorem step_forkRun (h : step (.forkRun c) s = some s') :
    ∃ f np, (s.cpu c).ctl = .running f ∧ s.lock = none ∧
      (s.proc f.p).forking = some (.copied, np) ∧
      s' = (s.setState np .RUNNABLE).setForking f.p none := by
  simp only [step] at h
  split at h
  case isTrue hl =>
    obtain ⟨f, np, hc, _, hf, hs⟩ := forkStep_eq_some h
    exact ⟨f, np, hc, hl, hf, hs⟩
  case isFalse => cases h

theorem step_wakeup {chan : ℕ} (h : step (.wakeup chan) s = some s') :
    s.lock = none ∧ s' = s.wakeup1 (some (.addr chan)) := by
  simp only [step] at h
  split at h
  case isTrue hl => exact ⟨hl, (Option.some.inj h).symm⟩
  case isFalse => cases h

theorem step_tick (h : step .tick s = some s') :
    (∀ c, s.lock = some c → c.val ≠ 0) ∧ s' = { s with ticks := s.ticks + 1 } := by
  simp only [step] at h
  split at h
  case isTrue hl => exact ⟨hl, (Option.some.inj h).symm⟩
  case isFalse => cases h

/-! ## Boot -/

/-- The state after `userinit`, with every CPU about to enter the loop of
`scheduler`. -/
def boot (n : ℕ) : Kernel n := userinit default

/-- A state of some run of the system. -/
def Reached (s : Kernel n) : Prop := Transition.Reachable step (boot n) s

theorem Reached.next {l : Label n} (h : Reached s) (hs : step l s = some s') : Reached s' :=
  Transition.Reachable.next h hs

/-- A run that is found by evaluation. -/
theorem exists_run (ls : List (Label n)) (P : Kernel n → Prop) [DecidablePred P]
    (h : (Transition.exec step ls (boot n)).any (fun s => decide (P s)) = true) :
    ∃ s, Transition.exec step ls (boot n) = some s ∧ P s :=
  Transition.exists_exec ls P h

/-- `userinit` finds the first slot. -/
theorem boot_eq : boot n =
    ({ ((default : Kernel n).initQueues.claimSlot 0).giveStack 0 true with
      initproc := some 0 } : Kernel n).modify 0 fun x => { x with
        name := "initcode", cwd := some ROOTINO, state := .RUNNABLE } := rfl

theorem boot_proc_zero : (boot n).proc 0 = { (default : Proc) with
    state := .RUNNABLE, pid := 1, name := "initcode", cwd := some ROOTINO } := rfl

theorem boot_proc_ne {p : Slot} (h : p ≠ 0) : (boot n).proc p = default := by
  simp [boot_eq, h, claimSlot_proc_ne]
  rfl

theorem boot_state (p : Slot) :
    ((boot n).proc p).state = if p = 0 then .RUNNABLE else .UNUSED := by
  by_cases h : p = 0
  · subst h; rfl
  · rw [boot_proc_ne h, if_neg h]; rfl

/-- Only init exists. -/
theorem eq_zero_of_boot {p : Slot} (h : ((boot n).proc p).state ≠ .UNUSED) : p = 0 := by
  by_contra hne
  exact h (by rw [boot_state, if_neg hne])

theorem boot_forking (p : Slot) : ((boot n).proc p).forking = none := by
  by_cases h : p = 0
  · subst h; rfl
  · rw [boot_proc_ne h]; rfl

end Xv6Mlfq
