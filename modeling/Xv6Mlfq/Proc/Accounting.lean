import Xv6Mlfq.Proc.Effect

/-!
# What is counted where

The statistics of a process are written at four places: at a dispatch (the record of the
dispatch), on the return from it (the record, `Ticks`, and for every `RUNNABLE` process
`queue`, `total_ticks` and `wait_time`), at the end of a slice (`ticks`, `times`,
`num_stat_used`) and when the slot is handed out.  One lemma for each place and field.
-/

namespace Xv6Mlfq

variable {n : ℕ}

/-! ## One round of `updatePstat` -/

/-- What `updatePstat` does to one process. -/
def Proc.counted (x : Proc) (T : ℤ) : Proc :=
  if x.state = .RUNNABLE then
    let x := x.setQueue T x.priority
    let x := { x with totalTicks := x.totalTicks + 1 }
    if x.priority = 2 then { x with waitTime := x.waitTime + 1 } else x
  else x

theorem Kernel.updatePstat_proc (s : Kernel n) (r : Slot) :
    s.updatePstat.proc r = (s.proc r).counted s.TOTAL := rfl

namespace Proc

variable (x : Proc) (T : ℤ)

@[simp] theorem counted_ticks : (x.counted T).ticks = x.ticks := by
  simp only [counted, setQueue]
  split_ifs <;> rfl

@[simp] theorem counted_times : (x.counted T).times = x.times := by
  simp only [counted, setQueue]
  split_ifs <;> rfl

@[simp] theorem counted_stats : (x.counted T).stats = x.stats := by
  simp only [counted, setQueue]
  split_ifs <;> rfl

@[simp] theorem counted_numStatUsed : (x.counted T).numStatUsed = x.numStatUsed := by
  simp only [counted, setQueue]
  split_ifs <;> rfl

/-- `wait_time` counts the ticks `RUNNABLE` in the last queue. -/
theorem counted_waitTime : (x.counted T).waitTime =
    x.waitTime + if x.state = .RUNNABLE ∧ x.priority = 2 then 1 else 0 := by
  simp only [counted, setQueue]
  split_ifs <;> simp_all

/-- `total_ticks` counts the ticks in which the process is `RUNNABLE`, unless `TOTAL` has
passed the end of `queue`. -/
theorem counted_totalTicks (hT : T ≠ NTICKS) : (x.counted T).totalTicks =
    x.totalTicks + if x.state = .RUNNABLE then 1 else 0 := by
  simp only [counted, setQueue, if_neg hT]
  split_ifs <;> simp_all

end Proc

namespace Kernel

/-! ## A dispatch -/

/-- A dispatch fills in the start and the priority of the current record. -/
theorem dispatch_stats (s : Kernel n) (c : Fin n) (f : Frame) :
    ((s.dispatch c f).proc f.p).stats = (s.proc f.p).stats.set (s.proc f.p).numStatUsed
      { (s.proc f.p).stats.get (s.proc f.p).numStatUsed with
        startTick := s.ticks, priority := (s.proc f.p).priority } := by
  simp [dispatch]

/-- A dispatch changes no other statistics than the records. -/
theorem dispatch_pstat (s : Kernel n) (c : Fin n) (f : Frame) (r : Slot) :
    ∃ a, ((s.dispatch c f).proc r).toPstat = { (s.proc r).toPstat with stats := a } := by
  by_cases h : r = f.p
  · subst h
    exact ⟨_, by simp [dispatch]; rfl⟩
  · exact ⟨_, by rw [dispatch_proc_ne s c h]⟩

/-! ## The creation of a process -/

/-- A slot that is handed out keeps its statistics, except for the number of records. -/
theorem claimSlot_pstat (s : Kernel n) (np r : Slot) :
    ∃ k u T, ((s.claimSlot np).proc r).toPstat = { (s.proc r).toPstat with
      priority := k, numStatUsed := u, Ticks := T } := by
  by_cases h : r = np
  · subst h
    exact ⟨_, _, _, by rw [claimSlot_proc_self]⟩
  · exact ⟨_, _, _, by rw [claimSlot_proc_ne s h]⟩

/-! ## The return from a dispatch -/

theorem afterSwtch_proc_ne (s : Kernel n) (c : Fin n) {f : Frame} {r : Slot} (h : r ≠ f.p) :
    (s.afterSwtch c f).proc r = (s.proc r).counted s.TOTAL := by
  simp [afterSwtch, updatePstat_proc, h]

/-- The return adds the time since the start, and then counts the tick. -/
theorem afterSwtch_proc_self (s : Kernel n) (c : Fin n) (f : Frame) :
    (s.afterSwtch c f).proc f.p = ({ s.proc f.p with
      stats := (s.proc f.p).stats.set (s.proc f.p).numStatUsed
        { (s.proc f.p).stats.get (s.proc f.p).numStatUsed with
          duration := ((s.proc f.p).stats.get (s.proc f.p).numStatUsed).duration +
            (s.ticks - ((s.proc f.p).stats.get (s.proc f.p).numStatUsed).startTick) }
      Ticks := (s.proc f.p).Ticks + 1 } : Proc).counted s.TOTAL := by
  simp [afterSwtch, updatePstat_proc]

theorem afterSwtch_stats (s : Kernel n) (c : Fin n) (f : Frame) :
    ((s.afterSwtch c f).proc f.p).stats = (s.proc f.p).stats.set (s.proc f.p).numStatUsed
      { (s.proc f.p).stats.get (s.proc f.p).numStatUsed with
        duration := ((s.proc f.p).stats.get (s.proc f.p).numStatUsed).duration +
          (s.ticks - ((s.proc f.p).stats.get (s.proc f.p).numStatUsed).startTick) } := by
  rw [afterSwtch_proc_self, Proc.counted_stats]

theorem afterSwtch_waitTime (s : Kernel n) (c : Fin n) (f : Frame) (r : Slot) :
    ((s.afterSwtch c f).proc r).waitTime = (s.proc r).waitTime +
      if (s.proc r).state = .RUNNABLE ∧ (s.proc r).priority = 2 then 1 else 0 := by
  by_cases h : r = f.p
  · subst h
    rw [afterSwtch_proc_self, Proc.counted_waitTime]
  · rw [afterSwtch_proc_ne s c h, Proc.counted_waitTime]

/-- The ticks of a slice are charged at its end. -/
theorem afterSwtch_ticks (s : Kernel n) (c : Fin n) (f : Frame) (r : Slot) :
    ((s.afterSwtch c f).proc r).ticks = (s.proc r).ticks := by
  by_cases h : r = f.p
  · subst h
    rw [afterSwtch_proc_self, Proc.counted_ticks]
  · rw [afterSwtch_proc_ne s c h, Proc.counted_ticks]

theorem afterSwtch_totalTicks (s : Kernel n) (c : Fin n) (f : Frame) (r : Slot)
    (hT : s.TOTAL ≠ NTICKS) : ((s.afterSwtch c f).proc r).totalTicks =
      (s.proc r).totalTicks + if (s.proc r).state = .RUNNABLE then 1 else 0 := by
  by_cases h : r = f.p
  · subst h
    rw [afterSwtch_proc_self, Proc.counted_totalTicks _ _ hT]
  · rw [afterSwtch_proc_ne s c h, Proc.counted_totalTicks _ _ hT]

/-! ## The end of a slice -/

/-- The end of a slice is about its process only. -/
theorem sliceEnd_proc_ne (s : Kernel n) {f : Frame} {r : Slot} (h : r ≠ f.p) :
    (s.sliceEnd f).proc r = s.proc r := by
  simp only [sliceEnd, degrade, boost]
  split_ifs <;> simp [addQueue_proc, h]

/-- The end of the slice `f` applies `boost`. -/
def boosted (s : Kernel n) (f : Frame) : Bool :=
  (s.proc f.p).state = .RUNNABLE && (s.proc f.p).priority = 2 && 50 ≤ (s.proc f.p).Ticks

/-- The end of the slice `f` goes on to the next record. -/
def advances (s : Kernel n) (f : Frame) : Bool :=
  (s.proc f.p).state = .SLEEPING ||
    (s.proc f.p).state = .RUNNABLE && (s.proc f.p).priority ≠ 2 || s.boosted f

/-- What the end of a slice does to its process, apart from its place in the queues. -/
theorem sliceEnd_proc_self (s : Kernel n) (f : Frame) :
    ∃ (k : Level) (T : ℤ), (s.sliceEnd f).proc f.p = { s.proc f.p with
      ticks := Function.update (s.proc f.p).ticks f.queuepriority
        ((s.proc f.p).ticks f.queuepriority + f.count)
      times := Function.update (s.proc f.p).times (s.proc f.p).priority
        ((s.proc f.p).times (s.proc f.p).priority + 1)
      stats := if s.boosted f then (s.proc f.p).stats.set ((s.proc f.p).numStatUsed + 1)
          { (s.proc f.p).stats.get ((s.proc f.p).numStatUsed + 1) with priority := 0 }
        else (s.proc f.p).stats
      numStatUsed := (s.proc f.p).numStatUsed + if s.advances f then 1 else 0
      priority := k
      Ticks := T } := by
  have hlevel : ∀ k : Level, k = 1 ∨ k = 0 ↔ k ≠ 2 := by decide
  by_cases h₁ : (s.proc f.p).state = .RUNNABLE ∧ (s.proc f.p).priority ≠ 2
  · simp only [sliceEnd, degrade, advances, boosted, modify_proc, Function.update_self, hlevel,
      h₁.1, h₁.2]
    split_ifs <;> simp_all [addQueue_proc]
  · by_cases h₂ : (s.proc f.p).state = .RUNNABLE ∧ (s.proc f.p).priority = 2 ∧
      50 ≤ (s.proc f.p).Ticks
    · simp [sliceEnd, boost, advances, boosted, h₂, addQueue_proc]
    · by_cases h₃ : (s.proc f.p).state = .SLEEPING
      · simp [sliceEnd, advances, boosted, h₃, addQueue_proc]
      · have hb : s.boosted f = false := by simpa [boosted, and_assoc] using h₂
        have ha : s.advances f = false := by simp_all [advances]
        simp [sliceEnd, hlevel, h₁, h₂, h₃, ha, hb]

@[simp] theorem sliceEnd_waitTime (s : Kernel n) (f : Frame) (r : Slot) :
    ((s.sliceEnd f).proc r).waitTime = (s.proc r).waitTime := by
  by_cases h : r = f.p
  · subst h
    obtain ⟨k, T, he⟩ := s.sliceEnd_proc_self f
    rw [he]
  · rw [sliceEnd_proc_ne s h]

@[simp] theorem sliceEnd_totalTicks (s : Kernel n) (f : Frame) (r : Slot) :
    ((s.sliceEnd f).proc r).totalTicks = (s.proc r).totalTicks := by
  by_cases h : r = f.p
  · subst h
    obtain ⟨k, T, he⟩ := s.sliceEnd_proc_self f
    rw [he]
  · rw [sliceEnd_proc_ne s h]

/-- The slice is charged to the queue it was started from. -/
theorem sliceEnd_ticks (s : Kernel n) (f : Frame) : ((s.sliceEnd f).proc f.p).ticks =
    Function.update (s.proc f.p).ticks f.queuepriority
      ((s.proc f.p).ticks f.queuepriority + f.count) := by
  obtain ⟨k, T, he⟩ := s.sliceEnd_proc_self f
  rw [he]

theorem sliceEnd_stats (s : Kernel n) (f : Frame) : ((s.sliceEnd f).proc f.p).stats =
    if s.boosted f then (s.proc f.p).stats.set ((s.proc f.p).numStatUsed + 1)
        { (s.proc f.p).stats.get ((s.proc f.p).numStatUsed + 1) with priority := 0 }
      else (s.proc f.p).stats := by
  obtain ⟨k, T, he⟩ := s.sliceEnd_proc_self f
  rw [he]

end Kernel
end Xv6Mlfq
