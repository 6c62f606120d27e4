import Xv6Mlfq.Proc.Queue

/-!
# The life of a process

`allocproc`, `userinit`, `fork`, `exit`, `wait`, `sleep`, `wakeup`, `kill`, `yield` and
`getpinfo`.  A function that runs in one critical section of `ptable.lock` is one
definition.  `allocproc` and `fork` hold the lock only at their beginning and end, so
they are cut at those places (`claimSlot`, `giveStack`, `copyProc`) and put together
again in `allocproc` and `fork`; the scheduler model steps through the pieces.

Whether an allocation succeeds is an argument: `kalloc` for the kernel stack, and for
`copyuvm` the outcome of `setupkvm` and of each page.
-/

namespace Xv6Mlfq
namespace Kernel

variable {n : ℕ}

/-! ## Creation -/

/-- The first loop of `allocproc`. -/
def findUnused (s : Kernel n) : Option Slot :=
  (List.finRange NPROC).find? fun p => (s.proc p).state = .UNUSED

/-- `allocproc` from `found:` to `release`.  A slot with a positive pid was left by a
failed `fork`; its entry is to be removed, and all three calls name `q0`. -/
def claimSlot (s : Kernel n) (p : Slot) : Kernel n :=
  let s := if 0 < (s.proc p).pid then
      ((s.deleteQueue 0 p).deleteQueue 0 p).deleteQueue 0 p
    else s
  let s := s.modify p fun x => { x with state := .EMBRYO, pid := s.nextpid, priority := 0 }
  let s := { s with nextpid := s.nextpid + 1 }
  (s.addQueue 0 p).modify p fun x => { x with numStatUsed := 0 }

/-- `allocproc` after `release`: without a kernel stack the slot is given back, else it
is set up to start at `forkret`. -/
def giveStack (s : Kernel n) (p : Slot) (kalloc : Bool) : Kernel n :=
  if kalloc then s.modify p fun x => { x with context := .forkret }
  else s.modify p fun x => { x with state := .UNUSED }

/-- Look in the process table for an `UNUSED` proc and initialise it. -/
def allocproc (s : Kernel n) (kalloc : Bool) : Option Slot × Kernel n :=
  match s.findUnused with
  | none => (none, s)
  | some p => (if kalloc then some p else none, (s.claimSlot p).giveStack p kalloc)

/-- `copyuvm`: `setupkvm`, then one page after the other; the first failure frees what
was copied and returns 0. -/
def copyuvm (setupkvm : Bool) (pages : List Bool) : Bool := setupkvm && pages.all id

/-- `fork` from the copy of `parent` to the copy of `name`. -/
def copyProc (s : Kernel n) (cur np : Slot) : Kernel n :=
  let curproc := s.proc cur
  s.modify np fun x => { x with
    parent := some cur
    ofile := fun i => if (curproc.ofile i).isSome then curproc.ofile i else x.ofile i
    cwd := curproc.cwd
    name := curproc.name }

def setState (s : Kernel n) (p : Slot) (x : ProcState) : Kernel n :=
  s.modify p fun y => { y with state := x }

/-- Create a new process copying `cur` as the parent; the result is what `fork`
returns to the parent. -/
def fork (s : Kernel n) (cur : Slot) (kalloc setupkvm : Bool) (pages : List Bool) :
    ℤ × Kernel n :=
  match s.allocproc kalloc with
  | (none, s) => (-1, s)
  | (some np, s) =>
    if copyuvm setupkvm pages then
      let s := s.copyProc cur np
      ((s.proc np).pid, s.setState np .RUNNABLE)
    else (-1, s.setState np .UNUSED)

/-- `ticks` of `q0`, `q1` and `q2` as `userinit` sets them. -/
def quantum : Level → ℤ
  | 0 => 1
  | 1 => 2
  | 2 => 8

theorem quantum_pos (k : Level) : 0 < quantum k := by
  match k with
  | 0 | 1 | 2 => decide

/-- `userinit` up to `allocproc`. -/
def initQueues (s : Kernel n) : Kernel n :=
  { s with
    TOTAL := 0
    q := fun k => { s.q k with
      endIdx := 0, numOfProc := 0, ticks := quantum k, priority := k } }

/-- Set up the queues and the first user process. -/
def userinit (s : Kernel n) : Kernel n :=
  match s.initQueues.allocproc true with
  | (none, s) => s
  | (some p, s) =>
    let s := { s with initproc := some p }
    s.modify p fun x => { x with name := "initcode", cwd := some ROOTINO, state := .RUNNABLE }

/-! ## Sleeping and waking -/

/-- Wake up all processes sleeping on `chan`. -/
def wakeup1 (s : Kernel n) (chan : Option Chan) : Kernel n :=
  { s with
    proc := fun p =>
      let x := s.proc p
      if x.state = .SLEEPING ∧ x.chan = chan then { x with state := .RUNNABLE } else x }

/-- `sleep` up to `sched`, called with a lock other than `ptable.lock`. -/
def sleep (s : Kernel n) (cur : Slot) (chan : ℕ) : Kernel n :=
  s.modify cur fun x => { x with
    chan := some (.addr chan), state := .SLEEPING, context := .sleep }

/-- `yield` up to `sched`. -/
def yield (s : Kernel n) (cur : Slot) : Kernel n :=
  s.modify cur fun x => { x with state := .RUNNABLE, context := .yield }

/-- Kill the process with the given pid. -/
def kill (s : Kernel n) (pid : ℤ) : ℤ × Kernel n :=
  match (List.finRange NPROC).find? fun p => (s.proc p).pid = pid with
  | none => (-1, s)
  | some p =>
    (0, s.modify p fun x => { x with
      killed := true
      state := if x.state = .SLEEPING then .RUNNABLE else x.state })

/-- The last case of `trap`, in user space: the process misbehaved. -/
def fault (s : Kernel n) (cur : Slot) : Kernel n := s.modify cur fun x => { x with killed := true }

/-! ## Termination -/

/-- One round of the loop of `exit` that passes abandoned children to init. -/
def abandon (cur : Slot) (s : Kernel n) (p : Slot) : Kernel n :=
  if (s.proc p).parent = some cur then
    let s := s.modify p fun x => { x with parent := s.initproc }
    if (s.proc p).state = .ZOMBIE then s.wakeup1 (s.initproc.map .proc) else s
  else s

/-- `exit` up to `sched`. -/
def exit (s : Kernel n) (cur : Slot) : Kernel n :=
  let s := s.modify cur fun x => { x with ofile := fun _ => none, cwd := none }
  let s := s.wakeup1 ((s.proc cur).parent.map .proc)
  let s := (List.finRange NPROC).foldl (abandon cur) s
  s.modify cur fun x => { x with state := .ZOMBIE, context := .exit }

/-- What `wait` does with an exited child. -/
def reap (s : Kernel n) (p : Slot) : Kernel n :=
  s.modify p fun x => { x with
    pid := 0, parent := none, name := "", killed := false, state := .UNUSED }

/-- What one round of the loop of `wait` ends with. -/
inductive WaitResult
  | reaped (pid : ℤ)
  | fails
  | sleeps
  deriving DecidableEq, Repr

/-- The first exited child in the table. -/
def zombieChild (s : Kernel n) (cur : Slot) : Option Slot :=
  (List.finRange NPROC).find? fun p =>
    (s.proc p).parent = some cur ∧ (s.proc p).state = .ZOMBIE

/-- One round of the loop of `wait`: reap a child, give up, or go to sleep. -/
def wait (s : Kernel n) (cur : Slot) : WaitResult × Kernel n :=
  match s.zombieChild cur with
  | some p => (.reaped (s.proc p).pid, s.reap p)
  | none =>
    if (∀ p, (s.proc p).parent ≠ some cur) ∨ (s.proc cur).killed then (.fails, s)
    else
      (.sleeps, s.modify cur fun x => { x with
        chan := some (.proc cur), state := .SLEEPING, context := .wait })

/-! ## Reporting -/

/-- What `getpinfo` prints of a process. -/
structure Report where
  name : String
  pid : ℤ
  times : Level → ℤ
  ticks : Level → ℤ
  records : List SchedStat

/-- `getpinfo`: the report on the first slot with this pid, if there is one. -/
def getpinfo (s : Kernel n) (pid : ℤ) : Option Report :=
  ((List.finRange NPROC).find? fun p => (s.proc p).pid = pid).map fun p =>
    let x := s.proc p
    { name := x.name, pid := x.pid, times := x.times, ticks := x.ticks
      records := x.stats.window x.numStatUsed }

/-! ## Creation, as a change of the table

`claimSlot` changes one entry of the table and `q0`; the other pieces of `fork` change
one entry and nothing else. -/

theorem findUnused_some {s : Kernel n} {p : Slot} (h : s.findUnused = some p) :
    (s.proc p).state = .UNUSED := by
  simpa using List.find?_some h

@[simp] theorem giveStack_true (s : Kernel n) (p : Slot) :
    s.giveStack p true = s.modify p fun x => { x with context := .forkret } := rfl

@[simp] theorem giveStack_false (s : Kernel n) (p : Slot) :
    s.giveStack p false = s.setState p .UNUSED := rfl

theorem claimSlot_toMachine (s : Kernel n) (p : Slot) :
    (s.claimSlot p).toMachine = { s.toMachine with nextpid := s.nextpid + 1 } := by
  simp only [claimSlot]
  split_ifs <;> rfl

theorem claimSlot_proc_ne (s : Kernel n) {p r : Slot} (h : r ≠ p) :
    (s.claimSlot p).proc r = s.proc r := by
  simp only [claimSlot]
  split_ifs <;> simp [addQueue_proc, h]

theorem claimSlot_proc_self (s : Kernel n) (p : Slot) :
    (s.claimSlot p).proc p = { s.proc p with
      state := .EMBRYO, pid := s.nextpid, priority := (s.q 0).priority, Ticks := 0
      numStatUsed := 0 } := by
  simp only [claimSlot]
  split_ifs <;> simp [addQueue_proc]

/-- A slot that no failed `fork` left behind is appended to `q0`. -/
theorem claimSlot_q (s : Kernel n) {p : Slot} (h : (s.proc p).pid ≤ 0) :
    (s.claimSlot p).q = (s.addQueue 0 p).q := by
  simp only [claimSlot, if_neg (not_lt.mpr h)]
  rfl

theorem claimSlot_uses (s : Kernel n) {p : Slot} (h : (s.proc p).pid ≤ 0) :
    (s.claimSlot p).uses = (s.addQueue 0 p).uses := by
  simp only [claimSlot, if_neg (not_lt.mpr h)]
  rfl

/-! ## Waking

Everything that may happen to a process that does not take part: it may be woken, and
its `parent`, `chan`, `killed`, `ofile`, `cwd` and `name` may change. -/

/-- `t` differs from `s` at most by woken processes and fields that no queue and no
CPU depends on. -/
structure Wakes (s t : Kernel n) : Prop where
  machine : t.toMachine = s.toMachine
  q : t.q = s.q
  uses : t.uses = s.uses
  pstat : ∀ p, (t.proc p).toPstat = (s.proc p).toPstat
  pid : ∀ p, (t.proc p).pid = (s.proc p).pid
  context : ∀ p, (t.proc p).context = (s.proc p).context
  forking : ∀ p, (t.proc p).forking = (s.proc p).forking
  state : ∀ p, (t.proc p).state = (s.proc p).state ∨
    (s.proc p).state = .SLEEPING ∧ (t.proc p).state = .RUNNABLE

theorem Wakes.refl (s : Kernel n) : Wakes s s :=
  ⟨rfl, rfl, rfl, fun _ => rfl, fun _ => rfl, fun _ => rfl, fun _ => rfl, fun _ => .inl rfl⟩

theorem Wakes.trans {s t u : Kernel n} (h₁ : Wakes s t) (h₂ : Wakes t u) : Wakes s u where
  machine := h₂.machine.trans h₁.machine
  q := h₂.q.trans h₁.q
  uses := h₂.uses.trans h₁.uses
  pstat p := (h₂.pstat p).trans (h₁.pstat p)
  pid p := (h₂.pid p).trans (h₁.pid p)
  context p := (h₂.context p).trans (h₁.context p)
  forking p := (h₂.forking p).trans (h₁.forking p)
  state p := by
    rcases h₁.state p with e₁ | ⟨a₁, b₁⟩
    · rw [← e₁]
      exact h₂.state p
    · rcases h₂.state p with e₂ | ⟨a₂, _⟩
      · exact .inr ⟨a₁, e₂.trans b₁⟩
      · exact absurd (b₁.symm.trans a₂) (by decide)

theorem wakes_wakeup1 (s : Kernel n) (chan : Option Chan) : Wakes s (s.wakeup1 chan) where
  machine := rfl
  q := rfl
  uses := rfl
  pstat p := by simp only [wakeup1]; split_ifs <;> rfl
  pid p := by simp only [wakeup1]; split_ifs <;> rfl
  context p := by simp only [wakeup1]; split_ifs <;> rfl
  forking p := by simp only [wakeup1]; split_ifs <;> rfl
  state p := by
    simp only [wakeup1]
    split_ifs with h
    · exact .inr ⟨h.1, rfl⟩
    · exact .inl rfl

/-- An update of one entry that keeps the fields `Wakes` names. -/
theorem wakes_modify (s : Kernel n) (p : Slot) (f : Proc → Proc)
    (hps : (f (s.proc p)).toPstat = (s.proc p).toPstat)
    (hpid : (f (s.proc p)).pid = (s.proc p).pid)
    (hctx : (f (s.proc p)).context = (s.proc p).context)
    (hfork : (f (s.proc p)).forking = (s.proc p).forking)
    (hst : (f (s.proc p)).state = (s.proc p).state ∨
      (s.proc p).state = .SLEEPING ∧ (f (s.proc p)).state = .RUNNABLE) :
    Wakes s (s.modify p f) := by
  refine ⟨rfl, rfl, rfl, ?_, ?_, ?_, ?_, ?_⟩ <;> intro r <;> by_cases hr : r = p
  all_goals first
    | (subst hr; simpa using ‹_›)
    | simp [hr]

theorem wakes_kill (s : Kernel n) (pid : ℤ) : Wakes s (s.kill pid).2 := by
  simp only [kill]
  split
  · exact Wakes.refl s
  · dsimp only
    refine wakes_modify _ _ _ rfl rfl rfl rfl ?_
    split_ifs with h
    · exact .inr ⟨h, rfl⟩
    · exact .inl rfl

theorem wakes_fault (s : Kernel n) (cur : Slot) : Wakes s (s.fault cur) :=
  wakes_modify _ _ _ rfl rfl rfl rfl (.inl rfl)

theorem fault_life (s : Kernel n) (cur r : Slot) : ((s.fault cur).proc r).toLife =
    { (s.proc r).toLife with killed := r = cur || (s.proc r).killed } := by
  by_cases h : r = cur
  · subst h; simp [fault]
  · simp [fault, h]

theorem wakes_abandon (cur : Slot) (s : Kernel n) (p : Slot) : Wakes s (abandon cur s p) := by
  have hpar : Wakes s (s.modify p fun x => { x with parent := s.initproc }) :=
    wakes_modify _ _ _ rfl rfl rfl rfl (.inl rfl)
  simp only [abandon]
  split_ifs
  · exact hpar.trans (wakes_wakeup1 _ _)
  · exact hpar
  · exact Wakes.refl s

theorem wakes_foldl_abandon (cur : Slot) (ps : List Slot) (s : Kernel n) :
    Wakes s (ps.foldl (abandon cur) s) := by
  induction ps generalizing s with
  | nil => exact Wakes.refl s
  | cons p ps ih => exact (wakes_abandon cur s p).trans (ih _)

/-- `exit` wakes some processes and makes the current one a zombie. -/
theorem exit_cases (s : Kernel n) (cur : Slot) :
    ∃ t, Wakes s t ∧
      s.exit cur = t.modify cur fun x => { x with state := .ZOMBIE, context := .exit } := by
  refine ⟨_, ?_, rfl⟩
  refine Wakes.trans ?_ (wakes_foldl_abandon _ _ _)
  refine Wakes.trans ?_ (wakes_wakeup1 _ _)
  exact wakes_modify _ _ _ rfl rfl rfl rfl (.inl rfl)

theorem zombieChild_some {s : Kernel n} {cur p : Slot} (h : s.zombieChild cur = some p) :
    (s.proc p).parent = some cur ∧ (s.proc p).state = .ZOMBIE := by
  simpa using List.find?_some h

end Kernel
end Xv6Mlfq
