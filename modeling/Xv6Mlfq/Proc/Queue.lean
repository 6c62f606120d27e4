import Xv6Mlfq.Proc.Types

/-!
# Managing the run queues

The helper functions of `proc.c` between `returnQueue` and `boost`, and what each does
to the entries `queue[0..end)` of the queues.  None of them checks a bound: `addQueue`
writes the cell after the last entry whatever `end` is, and `deleteQueue` decrements
`end` whether or not it found its process.  Both cases are in the statements below.

## Main results

* `entries_addQueue` — an append, when the queue has room.
* `entries_deleteQueue` — the first occurrence is removed; when there is none, the
  *last entry* is dropped instead.
* `deleteQueue_removes_iff` — so `deleteQueue` is a removal exactly when it finds its process.
* `returnProc_cases` — `returnProc` finds the first `RUNNABLE` entry of the lowest
  queue that has one, and exchanges it with the first entry of that queue.
-/

namespace Xv6Mlfq
namespace Kernel

variable {n : ℕ}

/-- `e->state == RUNNABLE`, for a queue entry. -/
def isRunnable (s : Kernel n) : Option Slot → Bool
  | some p => (s.proc p).state = .RUNNABLE
  | none => false

/-- Adds process to end of specified priority queue. -/
def addQueue (s : Kernel n) (k : Level) (p : Slot) : Kernel n :=
  let pq := s.q k
  ((s.setQ k { pq with
      queue := pq.queue.set pq.endIdx (some p)
      endIdx := pq.endIdx + 1
      numOfProc := pq.numOfProc + 1 }).modify p
    fun x => { x with Ticks := 0, priority := pq.priority }).use [.queue pq.endIdx]

/-- The index at which the first loop of `deleteQueue` stops. -/
def deleteIndex (s : Kernel n) (k : Level) (p : Slot) : ℕ :=
  (s.q k).queue.search (· == some p) (s.q k).endIdx

/-- Removes process from the specified priority queue: search, shift left over the
entry found, shorten.  An unsuccessful search shortens the queue all the same. -/
def deleteQueue (s : Kernel n) (k : Level) (p : Slot) : Kernel n :=
  let pq := s.q k
  let i := s.deleteIndex k p
  let firstFreeIndex := pq.endIdx
  (s.setQ k { pq with
      queue := CArray.shiftFrom (firstFreeIndex.toNat - i) i pq.queue
      endIdx := pq.endIdx - 1
      numOfProc := pq.numOfProc - 1 }).use
    ((pq.queue.searchUses (· == some p) pq.endIdx ++
      CArray.shiftFromUses (firstFreeIndex.toNat - i) i).map .queue)

/-- Downgrades process to a lower priority queue. -/
def degrade (s : Kernel n) (k : Level) (p : Slot) : Kernel n :=
  if (s.q k).priority = 0 then (s.deleteQueue 0 p).addQueue 1 p
  else if (s.q k).priority = 1 then (s.deleteQueue 1 p).addQueue 2 p
  else s

/-- Moves process from `q2` to `q0`. -/
def boost (s : Kernel n) (p : Slot) : Kernel n :=
  let s := (s.deleteQueue 2 p).addQueue 0 p
  let i := (s.proc p).numStatUsed
  (s.modify p fun x => { x with
      priority := 0
      stats := x.stats.set i { x.stats.get i with priority := 0 } }).use [.stats i]

/-- The search for a `RUNNABLE` entry of one queue. -/
def runnableIndex (s : Kernel n) (k : Level) : ℕ :=
  (s.q k).queue.search s.isRunnable (s.q k).endIdx

/-- One branch of `returnQueue`: a queue with processes, one of them `RUNNABLE`. -/
def hasRunnable (s : Kernel n) (k : Level) : Bool :=
  (s.q k).numOfProc ≠ 0 && (s.runnableIndex k : ℤ) < (s.q k).endIdx

/-- The indices one branch of `returnQueue` reads. -/
def hasRunnableUses (s : Kernel n) (k : Level) : List Use :=
  if (s.q k).numOfProc ≠ 0 then
    ((s.q k).queue.searchUses s.isRunnable (s.q k).endIdx).map .queue
  else []

/-- Returns the highest priority queue with a ready process, and `q0` if there is
none. -/
def returnQueue (s : Kernel n) : Level :=
  if s.hasRunnable 0 then 0
  else if s.hasRunnable 1 then 1
  else if s.hasRunnable 2 then 2
  else 0

def returnQueueUses (s : Kernel n) : List Use :=
  s.hasRunnableUses 0 ++
    if s.hasRunnable 0 then []
    else s.hasRunnableUses 1 ++ if s.hasRunnable 1 then [] else s.hasRunnableUses 2

/-- Returns highest priority `RUNNABLE` process, exchanging it with the first entry of
its queue. -/
def returnProc (s : Kernel n) : Option Slot × Kernel n :=
  let k := s.returnQueue
  let pq := s.q k
  let s := s.use s.returnQueueUses
  if pq.numOfProc = 0 then (none, s)
  else
    let i := s.runnableIndex k
    let s := s.use ((pq.queue.searchUses s.isRunnable pq.endIdx).map .queue)
    if (i : ℤ) < pq.endIdx then
      if i ≠ 0 then
        (pq.queue.get i,
          (s.setQ k { pq with queue := pq.queue.swapFirst i }).use
            [.queue i, .queue 0, .queue i, .queue 0])
      else (pq.queue.get i, s.use [.queue i])
    else (none, s)

/-- Updates `queue`, `total_ticks` and `wait_time` for all processes every time a tick
occurs. -/
def updatePstat (s : Kernel n) : Kernel n :=
  { s with
    proc := fun p =>
      let x := s.proc p
      if x.state = .RUNNABLE then
        let x := x.setQueue s.TOTAL x.priority
        let x := { x with totalTicks := x.totalTicks + 1 }
        if x.priority = 2 then { x with waitTime := x.waitTime + 1 } else x
      else x
    uses := s.uses ++
      ((List.finRange NPROC).filter fun p => (s.proc p).state = .RUNNABLE).map
        fun _ => .total s.TOTAL }

/-! ## What they leave alone

Queue management touches `Ticks`, `priority` and (in `boost`) a record of the process
it moves; never the life-cycle part of a process, nor anything outside the table and
the queues. -/

@[simp] theorem addQueue_toMachine (s : Kernel n) (k : Level) (p : Slot) :
    (s.addQueue k p).toMachine = s.toMachine := rfl
@[simp] theorem deleteQueue_toMachine (s : Kernel n) (k : Level) (p : Slot) :
    (s.deleteQueue k p).toMachine = s.toMachine := rfl
@[simp] theorem updatePstat_toMachine (s : Kernel n) :
    s.updatePstat.toMachine = s.toMachine := rfl
@[simp] theorem updatePstat_q (s : Kernel n) : s.updatePstat.q = s.q := rfl
@[simp] theorem boost_toMachine (s : Kernel n) (p : Slot) :
    (s.boost p).toMachine = s.toMachine := rfl

@[simp] theorem degrade_toMachine (s : Kernel n) (k : Level) (p : Slot) :
    (s.degrade k p).toMachine = s.toMachine := by
  simp only [degrade]
  split_ifs <;> rfl

@[simp] theorem returnProc_toMachine (s : Kernel n) : s.returnProc.2.toMachine = s.toMachine := by
  simp only [returnProc]
  split_ifs <;> rfl

@[simp] theorem returnProc_proc (s : Kernel n) : s.returnProc.2.proc = s.proc := by
  simp only [returnProc]
  split_ifs <;> rfl

@[simp] theorem deleteQueue_proc (s : Kernel n) (k : Level) (p : Slot) :
    (s.deleteQueue k p).proc = s.proc := rfl

@[simp] theorem deleteQueue_q_ne (s : Kernel n) {k j : Level} (p : Slot) (h : j ≠ k) :
    (s.deleteQueue k p).q j = s.q j := by
  simp [deleteQueue, h]

@[simp] theorem addQueue_q_ne (s : Kernel n) {k j : Level} (p : Slot) (h : j ≠ k) :
    (s.addQueue k p).q j = s.q j := by
  simp [addQueue, h]

theorem addQueue_proc (s : Kernel n) (k : Level) (p : Slot) :
    (s.addQueue k p).proc = Function.update s.proc p
      { s.proc p with Ticks := 0, priority := (s.q k).priority } := by
  simp [addQueue]

@[simp] theorem addQueue_life (s : Kernel n) (k : Level) (p r : Slot) :
    ((s.addQueue k p).proc r).toLife = (s.proc r).toLife := by
  rw [addQueue_proc]
  by_cases h : r = p
  · subst h; simp
  · simp [h]

@[simp] theorem degrade_life (s : Kernel n) (k : Level) (p r : Slot) :
    ((s.degrade k p).proc r).toLife = (s.proc r).toLife := by
  simp only [degrade]
  split_ifs <;> simp

@[simp] theorem boost_life (s : Kernel n) (p r : Slot) :
    ((s.boost p).proc r).toLife = (s.proc r).toLife := by
  simp only [boost, use_proc, modify_proc]
  by_cases h : r = p
  · subst h; simp
  · simp [h]

@[simp] theorem updatePstat_life (s : Kernel n) (r : Slot) :
    (s.updatePstat.proc r).toLife = (s.proc r).toLife := by
  simp only [updatePstat]
  split_ifs <;> simp

@[simp] theorem updatePstat_priority (s : Kernel n) (r : Slot) :
    (s.updatePstat.proc r).priority = (s.proc r).priority := by
  simp only [updatePstat, Proc.setQueue]
  split_ifs <;> rfl

@[simp] theorem addQueue_q_priority (s : Kernel n) (k j : Level) (p : Slot) :
    ((s.addQueue k p).q j).priority = (s.q j).priority := by
  by_cases h : j = k
  · subst h; simp [addQueue]
  · simp [h]

@[simp] theorem deleteQueue_q_priority (s : Kernel n) (k j : Level) (p : Slot) :
    ((s.deleteQueue k p).q j).priority = (s.q j).priority := by
  by_cases h : j = k
  · subst h; simp [deleteQueue]
  · simp [h]

@[simp] theorem addQueue_q_ticks (s : Kernel n) (k j : Level) (p : Slot) :
    ((s.addQueue k p).q j).ticks = (s.q j).ticks := by
  by_cases h : j = k
  · subst h; simp [addQueue]
  · simp [h]

@[simp] theorem deleteQueue_q_ticks (s : Kernel n) (k j : Level) (p : Slot) :
    ((s.deleteQueue k p).q j).ticks = (s.q j).ticks := by
  by_cases h : j = k
  · subst h; simp [deleteQueue]
  · simp [h]

/-! ## Entries -/

@[simp] theorem endIdx_addQueue (s : Kernel n) (k : Level) (p : Slot) :
    ((s.addQueue k p).q k).endIdx = (s.q k).endIdx + 1 := by
  simp [addQueue]

@[simp] theorem endIdx_deleteQueue (s : Kernel n) (k : Level) (p : Slot) :
    ((s.deleteQueue k p).q k).endIdx = (s.q k).endIdx - 1 := by
  simp [deleteQueue]

theorem entries_addQueue (s : Kernel n) (k : Level) (p : Slot) (h₀ : 0 ≤ (s.q k).endIdx)
    (h : (s.q k).endIdx < NPROC) :
    ((s.addQueue k p).q k).entries = (s.q k).entries ++ [some p] := by
  simp only [addQueue, use_q, modify_q, setQ_q, Function.update_self, PQueue.entries]
  exact CArray.window_push _ _ h₀ h

theorem deleteIndex_eq (s : Kernel n) (k : Level) (p : Slot) :
    s.deleteIndex k p = (s.q k).entries.idxOf (some p) :=
  CArray.search_eq_findIdx _ _ _

/-- The first occurrence is removed; without one the last entry goes. -/
theorem entries_deleteQueue (s : Kernel n) (k : Level) (p : Slot) :
    ((s.deleteQueue k p).q k).entries =
      if some p ∈ (s.q k).entries then (s.q k).entries.erase (some p)
      else (s.q k).entries.dropLast := by
  have hlen : ((s.q k).entries.length : ℕ) = (s.q k).endIdx.toNat := CArray.length_window _ _
  simp only [deleteQueue, use_q, setQ_q, Function.update_self]
  by_cases hp : some p ∈ (s.q k).entries
  · have hi : (s.deleteIndex k p : ℤ) < (s.q k).endIdx := by
      have := List.idxOf_lt_length_of_mem hp
      rw [← deleteIndex_eq, hlen] at this
      omega
    rw [if_pos hp, List.erase_eq_eraseIdx_of_idxOf (deleteIndex_eq s k p).symm]
    exact CArray.window_shiftFrom _ hi
  · have hi : (s.q k).endIdx.toNat - s.deleteIndex k p = 0 := by
      rw [deleteIndex_eq, List.idxOf_eq_length hp, hlen]
      omega
    rw [if_neg hp, hi]
    exact CArray.window_pred _ _

/-- The removal of a process from a queue: its first entry goes, and nothing happens when it has
none. -/
structure RemovesFirst (pq pq' : PQueue) (p : Slot) : Prop where
  entries : pq'.entries = pq.entries.erase (some p)
  absent : some p ∉ pq.entries → pq'.endIdx = pq.endIdx ∧ pq'.numOfProc = pq.numOfProc

/-- **`deleteQueue` is a removal exactly when it finds its process.**  The counters are decremented
in any case. -/
theorem deleteQueue_removes_iff (s : Kernel n) (k : Level) (p : Slot) :
    RemovesFirst (s.q k) ((s.deleteQueue k p).q k) p ↔ some p ∈ (s.q k).entries := by
  constructor
  · intro h
    by_contra hp
    have hend := (h.absent hp).1
    rw [endIdx_deleteQueue] at hend
    omega
  · intro hp
    refine ⟨?_, fun habsent => absurd hp habsent⟩
    rw [entries_deleteQueue, if_pos hp]

/-- Process 0 alone in `q0` goes when process 1 is to be removed. -/
theorem deleteQueue_absent_drops :
    let s : Kernel 1 := (default : Kernel 1).addQueue 0 0
    (s.q 0).entries = [some 0] ∧ ((s.deleteQueue 0 1).q 0).entries = [] ∧
      ¬ RemovesFirst (s.q 0) ((s.deleteQueue 0 1).q 0) 1 := by
  have hbefore : (((default : Kernel 1).addQueue 0 0).q 0).entries = [some 0] := by decide
  have hafter : ((((default : Kernel 1).addQueue 0 0).deleteQueue 0 1).q 0).entries = [] := by
    decide
  refine ⟨hbefore, hafter, ?_⟩
  intro h
  have hentries := h.entries
  rw [hbefore, hafter] at hentries
  revert hentries
  decide

/-! ## Selection -/

theorem hasRunnable_iff (s : Kernel n) (k : Level) (h : (s.q k).numOfProc = (s.q k).endIdx) :
    s.hasRunnable k = true ↔ ∃ e ∈ (s.q k).entries, s.isRunnable e = true := by
  rw [hasRunnable, Bool.and_eq_true, decide_eq_true_iff, decide_eq_true_iff, h]
  constructor
  · intro hr
    exact CArray.search_lt_iff.mp hr.2
  · intro he
    have hlt : (s.runnableIndex k : ℤ) < (s.q k).endIdx := CArray.search_lt_iff.mpr he
    exact ⟨by omega, hlt⟩

/-- What a call of `returnProc` can do: return null and change no queue, or return the
first `RUNNABLE` entry of the queue `returnQueue` names, moved to the front. -/
theorem returnProc_cases (s : Kernel n) :
    (s.hasRunnable s.returnQueue = false ∧ ∃ us, s.returnProc = (none, s.use us)) ∨
    ∃ us p l₁ l₂, s.returnProc =
        (some p, (s.setQ s.returnQueue { s.q s.returnQueue with
          queue := (s.q s.returnQueue).queue.swapFirst l₁.length }).use us) ∧
      (s.q s.returnQueue).entries = l₁ ++ some p :: l₂ ∧
      (s.proc p).state = .RUNNABLE ∧ ∀ e ∈ l₁, s.isRunnable e = false := by
  have huse : ∀ us, (s.use us).isRunnable = s.isRunnable := fun _ => rfl
  have hidx : ∀ us, (s.use us).runnableIndex = s.runnableIndex := fun _ => rfl
  simp only [returnProc, huse, hidx, use_use, use_setQ]
  by_cases hn : (s.q s.returnQueue).numOfProc = 0
  · rw [if_pos hn]
    exact .inl ⟨by simp [hasRunnable, hn], _, rfl⟩
  · rw [if_neg hn]
    by_cases hi : (s.runnableIndex s.returnQueue : ℤ) < (s.q s.returnQueue).endIdx
    · right
      rw [if_pos hi]
      obtain ⟨l₁, l₂, hw, hl, ht, hno⟩ := CArray.search_found hi
      change (s.q s.returnQueue).entries = l₁ ++ _ at hw
      change l₁.length = s.runnableIndex s.returnQueue at hl
      obtain ⟨p, hp⟩ : ∃ p, (s.q s.returnQueue).queue.get (s.runnableIndex s.returnQueue) =
          some p := by
        cases hg : (s.q s.returnQueue).queue.get (s.runnableIndex s.returnQueue) with
        | none => exact absurd (hg ▸ ht : s.isRunnable none = true) (by simp [isRunnable])
        | some p => exact ⟨p, rfl⟩
      have hrun : (s.proc p).state = .RUNNABLE := by
        have : s.isRunnable (some p) = true := hp ▸ ht
        simpa [isRunnable] using this
      have hw' : (s.q s.returnQueue).entries = l₁ ++ some p :: l₂ := by rw [hw]; exact hp ▸ rfl
      by_cases h0 : s.runnableIndex s.returnQueue ≠ 0
      · rw [if_pos h0, hp, ← hl]
        exact ⟨_, p, l₁, l₂, rfl, hw', hrun, hno⟩
      · -- the entry is already first, and the exchange changes nothing
        rw [if_neg h0, hp]
        have hlen : l₁.length = 0 := by omega
        have hsame : s.setQ s.returnQueue { s.q s.returnQueue with
            queue := (s.q s.returnQueue).queue.swapFirst l₁.length } = s := by
          rw [hlen, CArray.swapFirst_zero, setQ_self]
        exact ⟨_, p, l₁, l₂, congrArg (fun t : Kernel n => (some p, t.use _)) hsame.symm, hw',
          hrun, hno⟩
    · rw [if_neg hi]
      exact .inl ⟨by simp [hasRunnable, hi], _, rfl⟩

/-- `returnProc` exchanges entries of a queue and changes nothing else of it. -/
theorem returnProc_q (s : Kernel n) (k : Level) :
    ∃ a, s.returnProc.2.q k = { s.q k with queue := a } := by
  rcases s.returnProc_cases with ⟨-, us, he⟩ | ⟨us, p, l₁, l₂, he, -⟩
  · exact ⟨(s.q k).queue, by rw [he]; rfl⟩
  · by_cases hk : k = s.returnQueue
    · subst hk
      exact ⟨_, by rw [he]; simp; rfl⟩
    · exact ⟨(s.q k).queue, by rw [he]; simp [hk]⟩

@[simp] theorem returnProc_q_endIdx (s : Kernel n) (k : Level) :
    (s.returnProc.2.q k).endIdx = (s.q k).endIdx := by
  obtain ⟨a, he⟩ := s.returnProc_q k
  rw [he]

@[simp] theorem returnProc_q_ticks (s : Kernel n) (k : Level) :
    (s.returnProc.2.q k).ticks = (s.q k).ticks := by
  obtain ⟨a, he⟩ := s.returnProc_q k
  rw [he]

/-- `returnQueue` names a queue with a `RUNNABLE` entry if there is one. -/
theorem hasRunnable_returnQueue {s : Kernel n} {k : Level} (h : s.hasRunnable k = true) :
    s.hasRunnable s.returnQueue = true := by
  simp only [returnQueue]
  split_ifs with h₀ h₁ h₂
  · exact h₀
  · exact h₁
  · exact h₂
  · match k with
    | 0 => exact h
    | 1 => exact absurd h h₁
    | 2 => exact absurd h h₂

theorem returnProc_runnable {s : Kernel n} {p : Slot} (h : s.returnProc.1 = some p) :
    (s.proc p).state = .RUNNABLE := by
  rcases s.returnProc_cases with ⟨-, us, he⟩ | ⟨us, r, l₁, l₂, he, -, hr, -⟩
  · rw [he] at h
    cases h
  · rw [he] at h
    cases h
    exact hr

end Kernel
end Xv6Mlfq
