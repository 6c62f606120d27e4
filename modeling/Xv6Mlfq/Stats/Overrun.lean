import Xv6Mlfq.Proc.Accounting
import Xv6Mlfq.Sched.Membership

/-!
# Indices into the per-tick arrays and the records

`TOTAL` saturates at `NTICKS`, one past the last index of the arrays it is used for, and
`num_stat_used` is not bounded at all.  Both are counters of events of the run: `TOTAL` of
the returns to `scheduler`, `num_stat_used` of the slices of a process that ended in a
demotion, a boost or a sleep.  So the indices are in range as long as these events are few
enough, and a process that sleeps again and again drives both out of range.

## Main definitions

* `Kernel.others`, `Kernel.indexed` — the indices used outside the run queues, and those that
  a step adds to them.
* `Label.isBack` — the return to `scheduler` that `TOTAL` counts.
* `statEnds` — the history variable that counts what `num_stat_used` counts.
* `Lone` — init is alone and ready to run; a `nap` leads from such a state to the next.
-/

namespace Xv6Mlfq

open Function (update_self)
open Transition (exec Along observed)

variable {n : ℕ}

/-! ## The indices that a step uses -/

/-- The index is one into a run queue. -/
def Use.isQueue : Use → Bool
  | .queue _ => true
  | _ => false

namespace Kernel

/-- The indices used so far, except those into the run queues. -/
def others (s : Kernel n) : List Use := s.uses.filter fun u => !u.isQueue

variable {s : Kernel n}

theorem total_mem_others {i : ℤ} : Use.total i ∈ s.others ↔ Use.total i ∈ s.uses := by
  simp [others, Use.isQueue]

theorem stats_mem_others {i : ℤ} : Use.stats i ∈ s.others ↔ Use.stats i ∈ s.uses := by
  simp [others, Use.isQueue]

/-- The indices that a step uses, except those into the run queues: those of a dispatch, of the
return from one, and of `boost`. -/
def indexed (s : Kernel n) : Label n → List Use
  | .loop c =>
    match (s.cpu c).ctl with
    | .slice f =>
      let i := (s.proc f.p).numStatUsed
      if s.sliceGoesOn f then [.total s.TOTAL, .total s.TOTAL, .stats i, .stats i]
      else if s.boosted f then [.stats (i + 1)] else []
    | _ => []
  | .back c =>
    match (s.cpu c).ctl with
    | .returned f =>
      let i := (s.proc f.p).numStatUsed
      [.stats i, .stats i, .total s.TOTAL] ++
        ((List.finRange NPROC).filter fun p => (s.proc p).state = .RUNNABLE).map
          fun _ => .total s.TOTAL
    | _ => []
  | _ => []

theorem total_mem_indexed {l : Label n} {i : ℤ} (h : Use.total i ∈ s.indexed l) : i = s.TOTAL := by
  cases l with
  | loop c =>
    simp only [indexed] at h
    split at h
    · split_ifs at h <;> simp_all
    · simp at h
  | back c =>
    simp only [indexed] at h
    split at h
    · simp only [List.mem_append, List.mem_cons, List.mem_map, reduceCtorEq, Use.total.injEq,
        List.not_mem_nil, or_false, false_or] at h
      rcases h with h | ⟨-, -, h⟩
      · exact h
      · exact h.symm
    · simp at h
  | _ => simp [indexed] at h

/-! The functions on the run queues use no other index. -/

theorem others_eq_of_uses {t : Kernel n} {us : List Use} (ht : t.uses = s.uses ++ us)
    (h : ∀ u ∈ us, u.isQueue = true) : t.others = s.others := by
  have hnone : us.filter (fun u => !u.isQueue) = [] :=
    List.filter_eq_nil_iff.mpr fun u hu => by simp [h u hu]
  rw [others, others, ht, List.filter_append, hnone, List.append_nil]

theorem isQueue_of_mem_map {is : List ℤ} : ∀ u ∈ is.map Use.queue, u.isQueue = true := by
  intro u hu
  obtain ⟨i, -, rfl⟩ := List.mem_map.mp hu
  rfl

@[simp] theorem others_modify (s : Kernel n) (p : Slot) (f : Proc → Proc) :
    (s.modify p f).others = s.others := rfl

@[simp] theorem others_setCtl (s : Kernel n) (c : Fin n) (x : Ctl) :
    (s.setCtl c x).others = s.others := rfl

@[simp] theorem others_use (s : Kernel n) (us : List Use) :
    (s.use us).others = s.others ++ us.filter fun u => !u.isQueue :=
  List.filter_append _ _

@[simp] theorem others_addQueue (s : Kernel n) (k : Level) (p : Slot) :
    (s.addQueue k p).others = s.others :=
  others_eq_of_uses rfl (by simp [Use.isQueue])

@[simp] theorem others_deleteQueue (s : Kernel n) (k : Level) (p : Slot) :
    (s.deleteQueue k p).others = s.others :=
  others_eq_of_uses rfl isQueue_of_mem_map

theorem isQueue_returnQueueUses (s : Kernel n) : ∀ u ∈ s.returnQueueUses, u.isQueue = true := by
  have hk : ∀ k, ∀ u ∈ s.hasRunnableUses k, u.isQueue = true := by
    intro k
    simp only [hasRunnableUses]
    split_ifs
    · exact isQueue_of_mem_map
    · simp
  intro u hu
  simp only [returnQueueUses] at hu
  split_ifs at hu <;> simp only [List.append_nil, List.mem_append] at hu
  · exact hk 0 u hu
  · exact hu.elim (hk 0 u) (hk 1 u)
  · exact hu.elim (hk 0 u) fun hu => hu.elim (hk 1 u) (hk 2 u)

@[simp] theorem others_startSlice (s : Kernel n) (c : Fin n) (p : Slot) :
    (s.startSlice c p).others = s.others :=
  others_eq_of_uses rfl s.isQueue_returnQueueUses

@[simp] theorem others_returnProc (s : Kernel n) : s.returnProc.2.others = s.others := by
  have hq : (s.use s.returnQueueUses).others = s.others :=
    others_eq_of_uses rfl s.isQueue_returnQueueUses
  have hsearch : ∀ (k : Level) (test : Option Slot → Bool) (e : ℤ),
      ((s.use s.returnQueueUses).use
        (((s.q k).queue.searchUses test e).map .queue)).others = s.others :=
    fun k test e => (others_eq_of_uses rfl isQueue_of_mem_map).trans hq
  simp only [returnProc]
  split_ifs
  · exact hq
  · exact (others_eq_of_uses rfl (by simp [Use.isQueue])).trans (hsearch _ _ _)
  · exact (others_eq_of_uses rfl (by simp [Use.isQueue])).trans (hsearch _ _ _)
  · exact hsearch _ _ _

@[simp] theorem others_claimSlot (s : Kernel n) (p : Slot) :
    (s.claimSlot p).others = s.others := by
  simp only [claimSlot, others_modify, others_addQueue]
  split_ifs
  · exact (others_deleteQueue _ 0 p).trans
      ((others_deleteQueue _ 0 p).trans (others_deleteQueue s 0 p))
  · rfl

theorem others_dispatch (s : Kernel n) (c : Fin n) (f : Frame) :
    (s.dispatch c f).others = s.others ++
      [.total s.TOTAL, .total s.TOTAL, .stats (s.proc f.p).numStatUsed,
        .stats (s.proc f.p).numStatUsed] :=
  List.filter_append _ _

theorem others_updatePstat (s : Kernel n) :
    s.updatePstat.others = s.others ++
      ((List.finRange NPROC).filter fun p => (s.proc p).state = .RUNNABLE).map
        fun _ => .total s.TOTAL := by
  simp only [others, updatePstat, List.filter_append]
  congr 1
  refine List.filter_eq_self.mpr fun u hu => ?_
  obtain ⟨p, -, rfl⟩ := List.mem_map.mp hu
  rfl

theorem others_afterSwtch (s : Kernel n) (c : Fin n) (f : Frame) :
    (s.afterSwtch c f).others = s.others ++
      ([.stats (s.proc f.p).numStatUsed, .stats (s.proc f.p).numStatUsed, .total s.TOTAL] ++
        ((List.finRange NPROC).filter fun p => (s.proc p).state = .RUNNABLE).map
          fun _ => .total s.TOTAL) := by
  have hrun : ∀ t : Kernel n, (∀ p, (t.proc p).state = (s.proc p).state) →
      ((List.finRange NPROC).filter fun p => (t.proc p).state = .RUNNABLE) =
        (List.finRange NPROC).filter fun p => (s.proc p).state = .RUNNABLE := by
    intro t ht
    simp only [ht]
  refine (others_updatePstat _).trans ?_
  rw [hrun _ fun p => by
    by_cases hp : p = f.p
    · subst hp; simp
    · simp [hp]]
  simp [others, Use.isQueue, List.filter_append]

theorem others_sliceEnd (s : Kernel n) (f : Frame) :
    (s.sliceEnd f).others = s.others ++
      if s.boosted f then [.stats ((s.proc f.p).numStatUsed + 1)] else [] := by
  have hiff : s.boosted f = true ↔ (s.proc f.p).state = .RUNNABLE ∧ (s.proc f.p).priority = 2 ∧
      50 ≤ (s.proc f.p).Ticks := by simp [boosted, and_assoc]
  by_cases hb : s.boosted f = true
  · rw [if_pos hb]
    simp [sliceEnd, boost, hiff.mp hb, addQueue_proc, Use.isQueue]
  · rw [if_neg hb, List.append_nil]
    rw [hiff] at hb
    simp only [sliceEnd, degrade, modify_proc, update_self, if_neg hb]
    split_ifs <;> simp

end Kernel

variable {s s' : Kernel n} {l : Label n}

/-- **The indices of a step.** -/
theorem step_others (h : step l s = some s') : s'.others = s.others ++ s.indexed l := by
  cases step_effect h with
  | quiet _ _ hq =>
    have hnil : s.indexed l = [] := by
      cases l with
      | loop c => exact absurd rfl (hq.label_ne h c).1
      | back c => exact absurd rfl (hq.label_ne h c).2
      | _ => rfl
    rw [hnil, List.append_nil, Kernel.others, Kernel.others, hq.uses]
  | start c p hc hp => simp [Kernel.indexed]
  | skip c i hc => simp [Kernel.indexed]
  | dispatch c f hc hg =>
    rw [Kernel.others_setCtl, Kernel.others_dispatch]
    simp [Kernel.indexed, hc, hg]
  | back c f hc =>
    rw [Kernel.others_setCtl, Kernel.others_afterSwtch]
    simp [Kernel.indexed, hc]
  | finish c f hc hg =>
    rw [Kernel.others_setCtl, Kernel.others_sliceEnd]
    simp [Kernel.indexed, hc, hg]
  | claim c f np hc hl hn => simp [Kernel.indexed, Kernel.setForking]

/-! ## `TOTAL` -/

/-- The step is a return to `scheduler`. -/
def Label.isBack : Label n → Bool
  | .back _ => true
  | _ => false

/-- `TOTAL` counts the returns to `scheduler` up to `NTICKS`. -/
theorem step_TOTAL (h : step l s = some s') (hT : s.TOTAL ≤ NTICKS) :
    s'.TOTAL = min (s.TOTAL + if l.isBack then 1 else 0) NTICKS := by
  cases step_effect h with
  | quiet _ _ hq =>
    have hl : l.isBack = false := by
      cases l with
      | back c => exact absurd rfl (hq.label_ne h c).2
      | _ => rfl
    rw [hq.TOTAL, hl]
    simpa using hT
  | start c p hc hp => simpa [Label.isBack, Kernel.startSlice] using hT
  | skip c i hc => simpa [Label.isBack] using hT
  | dispatch c f hc hg => simpa [Label.isBack, Kernel.dispatch] using hT
  | back c f hc =>
    have hafter : (s.afterSwtch c f).TOTAL =
        if s.TOTAL < NTICKS then s.TOTAL + 1 else s.TOTAL := rfl
    simp only [Label.isBack, Kernel.setCtl_TOTAL, hafter, if_true]
    split_ifs <;> omega
  | finish c f hc hg => simpa [Label.isBack] using hT
  | claim c f np hc hl hn => simpa [Label.isBack, Kernel.claimSlot_toMachine] using hT

/-- Along a run, every index used so far is at most `TOTAL`. -/
theorem run_TOTAL {ls : List (Label n)} : ∀ {s t : Kernel n}, exec step ls s = some t →
    0 ≤ s.TOTAL → s.TOTAL ≤ NTICKS → (∀ i, Use.total i ∈ s.uses → 0 ≤ i ∧ i ≤ s.TOTAL) →
    t.TOTAL = min (s.TOTAL + ls.countP Label.isBack) NTICKS ∧
      ∀ i, Use.total i ∈ t.uses → 0 ≤ i ∧ i ≤ t.TOTAL := by
  induction ls with
  | nil =>
    intro s t hx h₀ hT hu
    cases hx
    exact ⟨by simpa using hT, hu⟩
  | cons l ls ih =>
    intro s t hx h₀ hT hu
    obtain ⟨s', hs, hrun⟩ := Transition.exec_cons_some.mp hx
    have hT' := step_TOTAL hs hT
    have hle : s.TOTAL ≤ s'.TOTAL := by
      rw [hT']
      split_ifs <;> omega
    have hu' : ∀ i, Use.total i ∈ s'.uses → 0 ≤ i ∧ i ≤ s'.TOTAL := by
      intro i hi
      rw [← Kernel.total_mem_others, step_others hs, List.mem_append,
        Kernel.total_mem_others] at hi
      rcases hi with hi | hi
      · exact ⟨(hu i hi).1, (hu i hi).2.trans hle⟩
      · rw [Kernel.total_mem_indexed hi]
        exact ⟨h₀, hle⟩
    obtain ⟨ht, hut⟩ := ih hrun (h₀.trans hle) (by rw [hT']; omega) hu'
    refine ⟨?_, hut⟩
    rw [ht, hT', List.countP_cons]
    split_ifs <;> omega

theorem boot_uses : (boot n).uses = [.queue 0] := rfl

/-! ## `num_stat_used` -/

namespace Kernel

/-- The slot that a step hands out. -/
def claims (s : Kernel n) : Label n → Option Slot
  | .forkAlloc _ => s.findUnused
  | _ => none

/-- The process that a step takes to its next record. -/
def nextRecord (s : Kernel n) : Label n → Option Slot
  | .loop c =>
    match (s.cpu c).ctl with
    | .slice f => if ¬ s.sliceGoesOn f ∧ s.advances f then some f.p else none
    | _ => none
  | _ => none

/-- The records that `getpinfo` reads. -/
def getpinfoReads (s : Kernel n) (pid : ℤ) : List ℤ :=
  match (List.finRange NPROC).find? fun p => (s.proc p).pid = pid with
  | some p => (List.range (s.proc p).numStatUsed.toNat).map Int.ofNat
  | none => []

end Kernel

/-- How many slices of each process have ended in a demotion, a boost or a sleep since its slot
was handed out. -/
def statEnds (s : Kernel n) (l : Label n) (w : Slot → ℕ) (p : Slot) : ℕ :=
  if s.claims l = some p then 0 else w p + if s.nextRecord l = some p then 1 else 0

theorem step_numStatUsed (h : step l s = some s') (p : Slot) :
    (s'.proc p).numStatUsed = if s.claims l = some p then 0
      else (s.proc p).numStatUsed + if s.nextRecord l = some p then 1 else 0 := by
  cases step_effect h with
  | quiet _ _ hq =>
    rw [hq.pstat]
    cases l with
    | loop c => exact absurd rfl (hq.label_ne h c).1
    | forkAlloc c =>
      -- a `fork` that finds no slot
      have hnone : s.findUnused = none := by
        obtain ⟨f, -, -, -, ⟨hn, -⟩ | ⟨np, -, rfl⟩⟩ := step_forkAlloc h
        · exact hn
        · have hnext := hq.nextpid
          simp [Kernel.claimSlot_toMachine] at hnext
      simp [Kernel.claims, Kernel.nextRecord, hnone]
    | _ => simp [Kernel.claims, Kernel.nextRecord]
  | start c r hc hr => simp [Kernel.claims, Kernel.nextRecord, Kernel.startSlice]
  | skip c i hc => simp [Kernel.claims, Kernel.nextRecord]
  | dispatch c f hc hg =>
    obtain ⟨a, he⟩ := s.dispatch_pstat c f p
    simp [Kernel.claims, Kernel.nextRecord, hc, hg, he]
  | back c f hc =>
    by_cases hp : p = f.p
    · subst hp
      simp [Kernel.claims, Kernel.nextRecord, Kernel.afterSwtch_proc_self]
    · simp [Kernel.claims, Kernel.nextRecord, Kernel.afterSwtch_proc_ne s c hp]
  | finish c f hc hg =>
    by_cases hp : p = f.p
    · subst hp
      obtain ⟨k, T, he⟩ := s.sliceEnd_proc_self f
      simp [Kernel.claims, Kernel.nextRecord, hc, hg, he]
    · simp [Kernel.claims, Kernel.nextRecord, hc, hg, Kernel.sliceEnd_proc_ne s hp, Ne.symm hp]
  | claim c f np hc hl hn =>
    by_cases hp : p = np
    · subst hp
      simp [Kernel.claims, hn, Kernel.claimSlot_proc_self]
    · simp [Kernel.claims, Kernel.nextRecord, hn, Kernel.claimSlot_proc_ne s hp, Ne.symm hp]

/-- The index of a record is `num_stat_used` before or after the step. -/
theorem stats_mem_indexed {i : ℤ} (h : step l s = some s') (hi : Use.stats i ∈ s.indexed l) :
    ∃ p, i = (s.proc p).numStatUsed ∨ i = (s'.proc p).numStatUsed := by
  cases l with
  | loop c =>
    obtain ⟨f, hc, hs⟩ := step_loop h
    refine ⟨f.p, ?_⟩
    rcases hs with ⟨hg, rfl⟩ | ⟨hg, rfl⟩
    · simp only [Kernel.indexed, hc, hg, if_true, List.mem_cons, reduceCtorEq,
        Use.stats.injEq, List.not_mem_nil, or_false, or_self, false_or] at hi
      exact .inl hi
    · simp only [Kernel.indexed, hc, hg, if_false] at hi
      split_ifs at hi with hb
      · right
        obtain ⟨k, T, he⟩ := s.sliceEnd_proc_self f
        have ha : s.advances f = true := by simp [Kernel.advances, hb]
        simpa [he, ha] using hi
      · simp at hi
  | back c =>
    obtain ⟨f, hc, -⟩ := step_back h
    refine ⟨f.p, .inl ?_⟩
    simpa [Kernel.indexed, hc] using hi
  | _ => simp [Kernel.indexed] at hi

/-- What a run with few slices of each process keeps. -/
structure RecordsInRange (s : Kernel n) (w : Slot → ℕ) : Prop where
  used : ∀ p, (s.proc p).numStatUsed = w p
  below : ∀ p, w p < NSCHEDSTATS
  indices : ∀ i, Use.stats i ∈ s.uses → 0 ≤ i ∧ i < NSCHEDSTATS

theorem recordsInRange_boot : RecordsInRange (boot n) fun _ => 0 where
  used p := by
    by_cases hp : p = 0
    · subst hp
      rfl
    · rw [boot_proc_ne hp]
      rfl
  below _ := by decide
  indices i hi := by
    simp [boot_uses] at hi

theorem RecordsInRange.step {w : Slot → ℕ} (h : RecordsInRange s w) (hs : step l s = some s')
    (hC : ∀ p, statEnds s l w p < NSCHEDSTATS) : RecordsInRange s' (statEnds s l w) := by
  have hused : ∀ p, (s'.proc p).numStatUsed = statEnds s l w p := by
    intro p
    rw [step_numStatUsed hs p, h.used p, statEnds]
    split_ifs <;> simp
  refine ⟨hused, hC, fun i hi => ?_⟩
  rw [← Kernel.stats_mem_others, step_others hs, List.mem_append, Kernel.stats_mem_others] at hi
  rcases hi with hi | hi
  · exact h.indices i hi
  · obtain ⟨p, rfl | rfl⟩ := stats_mem_indexed hs hi
    · rw [h.used p]
      have := h.below p
      omega
    · rw [hused p]
      have := hC p
      omega

/-! ## A process that sleeps again and again -/

/-- Nobody but init exists, and what the only CPU and init are doing. -/
structure Lone (s : Kernel 1) (x : Ctl) (lock : Option (Fin 1)) (life : Life) (used : ℤ) : Prop
    extends Listed s where
  ctl : (s.cpu 0).ctl = x
  lock : s.lock = lock
  life : (s.proc 0).toLife = life
  used : (s.proc 0).numStatUsed = used
  others : ∀ p, p ≠ 0 → (s.proc p).state = .UNUSED

/-- Init has been set up, or has slept and was woken. -/
def Rested (s : Kernel 1) (used : ℤ) : Prop :=
  ∃ life : Life, Lone s .idle none life used ∧ life.state = .RUNNABLE ∧ life.forking = none ∧
    (life.context = .forkret ∨ life.context = .sleep)

/-- Init is dispatched, sleeps, `scheduler` comes to the end of the table, and init is woken. -/
def nap : List (Label 1) :=
  [.acquire 0, .scan 0, .loop 0] ++ ([.resume 0, .sleep 0 0, .back 0, .loop 0] ++
    (List.replicate (NPROC - 1) (.scan 0) ++ [.scan 0, .wakeup 0]))

namespace Lone

variable {s t : Kernel 1} {x y : Ctl} {a b : Option (Fin 1)} {life life' : Life} {u : ℤ}

theorem acquire (h : Lone s .idle none life u) :
    ∃ t, step (.acquire 0) s = some t ∧ Lone t (.scan 0) (some 0) life u := by
  have hs : step (.acquire 0) s = some ((s.setLock (some 0)).setCtl 0 (.scan 0)) := by
    simp [step, h.lock, h.ctl]
  exact ⟨_, hs, ⟨h.toListed.step hs rfl, by simp, rfl, h.life, h.used, h.others⟩⟩

/-- A scan finds init. -/
theorem scan_init (h : Lone s (.scan 0) (some 0) life u) (hr : life.state = .RUNNABLE) :
    ∃ t f, step (.scan 0) s = some t ∧ f.p = 0 ∧ f.count = 0 ∧
      Lone t (.slice f) (some 0) life u := by
  have hp : s.returnProc.1 = some 0 := by
    obtain ⟨r, he⟩ := h.toEnrolled.returnProc_isSome (p := 0) (by rw [h.life, hr])
    rw [he]
    congr 1
    by_contra hne
    exact absurd ((h.others r hne).symm.trans (Kernel.returnProc_runnable he)) (by decide)
  have hs : step (.scan 0) s = some (s.returnProc.2.startSlice 0 0) := by
    simp [step, h.ctl, hp]
  refine ⟨_, ⟨0, s.returnProc.2.returnQueue, (s.proc 0).priority, 0⟩, hs, rfl, rfl,
    ⟨h.toListed.step hs rfl, ?_, ?_, ?_, ?_, ?_⟩⟩
  · simp [Kernel.startSlice]
  · simpa [Kernel.startSlice] using h.lock
  · simpa [Kernel.startSlice] using h.life
  · simpa [Kernel.startSlice] using h.used
  · simpa [Kernel.startSlice] using h.others

variable {f : Frame}

/-- A dispatch records its two indices. -/
theorem dispatch (h : Lone s (.slice f) (some 0) life u) (hp : f.p = 0)
    (h₀ : f.count = 0) (hr : life.state = .RUNNABLE) :
    ∃ t, step (.loop 0) s = some t ∧
      Lone t (.running f) (some 0) { life with state := .RUNNING } u ∧
      Use.total s.TOTAL ∈ t.uses ∧ Use.stats u ∈ t.uses := by
  have hg : s.sliceGoesOn f := by
    refine ⟨by rw [hp, h.life, hr], ?_⟩
    rw [h₀, h.reached.quantum]
    exact Kernel.quantum_pos _
  have hs : step (.loop 0) s = some ((s.dispatch 0 f).setCtl 0 (.running f)) := by
    simp [step, h.ctl, hg]
  have hi : s.indexed (.loop 0) = [.total s.TOTAL, .total s.TOTAL, .stats u, .stats u] := by
    simp [Kernel.indexed, h.ctl, hg, hp, h.used]
  refine ⟨_, hs, ⟨h.toListed.step hs rfl, by simp, h.lock, ?_, ?_, ?_⟩, ?_, ?_⟩
  · rw [← h.life, ← hp]
    exact s.dispatch_life 0 f
  · rw [step_numStatUsed hs, h.used]
    simp [Kernel.claims, Kernel.nextRecord, h.ctl, hg]
  · intro p hp'
    rw [Kernel.setCtl_proc, Kernel.dispatch_proc_ne s 0 (hp ▸ hp')]
    exact h.others p hp'
  · rw [← Kernel.total_mem_others, step_others hs, hi]
    simp
  · rw [← Kernel.stats_mem_others, step_others hs, hi]
    simp

theorem resume (h : Lone s (.running f) (some 0) life u) (hp : f.p = 0)
    (hx : life.context = .forkret ∨ life.context = .sleep) :
    ∃ t life', step (.resume 0) s = some t ∧ Lone t (.running f) none life' u ∧
      life'.forking = life.forking := by
  have hctx : (s.proc f.p).context = life.context := by rw [hp, h.life]
  rcases hx with hx | hx
  · have hs : step (.resume 0) s = some (s.setLock none) := by
      simp [step, h.ctl, h.lock, hctx, hx]
    refine ⟨_, life, hs, ⟨h.toListed.step hs ?_, h.ctl, rfl, h.life, h.used, h.others⟩, rfl⟩
    simp [Kernel.discards, h.ctl, hctx, hx]
  · have hs : step (.resume 0) s = some ((s.awake f.p).setLock none) := by
      simp [step, h.ctl, h.lock, hctx, hx]
    refine ⟨_, { life with chan := none }, hs,
      ⟨h.toListed.step hs ?_, h.ctl, rfl, ?_, ?_, ?_⟩, rfl⟩
    · simp [Kernel.discards, h.ctl, hctx, hx]
    · rw [hp, ← h.life]
      simp [Kernel.awake]
    · rw [hp, ← h.used]
      simp [Kernel.awake]
    · intro p hp'
      simpa [hp, Kernel.awake, hp'] using h.others p hp'

theorem sleep (h : Lone s (.running f) none life u) (hp : f.p = 0) (hf : life.forking = none) :
    ∃ t, step (.sleep 0 0) s = some t ∧ Lone t (.returned f) (some 0)
      { life with chan := some (.addr 0), state := .SLEEPING, context := .sleep } u := by
  have hs : step (.sleep 0 0) s = some ((s.sleep f.p 0).sched 0 f) := by
    simp [step, syscall, Kernel.current, h.ctl, h.lock, hp, h.life, hf]
  refine ⟨_, hs, ⟨h.toListed.step hs rfl, by simp [Kernel.sched], rfl, ?_, ?_, ?_⟩⟩
  · rw [hp, ← h.life]
    simp [Kernel.sched, Kernel.sleep]
  · rw [hp, ← h.used]
    simp [Kernel.sched, Kernel.sleep]
  · intro p hp'
    simpa [hp, Kernel.sched, Kernel.sleep, hp'] using h.others p hp'

theorem back (h : Lone s (.returned f) (some 0) life u) : ∃ t, step (.back 0) s = some t ∧
      Lone t (.slice { f with count := f.count + 1 }) (some 0) life u := by
  have hs : step (.back 0) s =
      some ((s.afterSwtch 0 f).setCtl 0 (.slice { f with count := f.count + 1 })) := by
    simp [step, h.ctl]
  refine ⟨_, hs, ⟨h.toListed.step hs rfl, by simp, h.lock, ?_, ?_, ?_⟩⟩
  · rw [← h.life]
    exact s.afterSwtch_life 0 f 0
  · rw [step_numStatUsed hs, h.used]
    simp [Kernel.claims, Kernel.nextRecord]
  · intro p hp
    rw [Kernel.setCtl_proc, Kernel.afterSwtch_life]
    exact h.others p hp

/-- A sleep ends the slice and the record. -/
theorem finish (h : Lone s (.slice f) (some 0) life u) (hp : f.p = 0)
    (hz : life.state = .SLEEPING) :
    ∃ t, step (.loop 0) s = some t ∧ Lone t (.scan 1) (some 0) life (u + 1) := by
  have hst : (s.proc f.p).state = .SLEEPING := by rw [hp, h.life, hz]
  have hg : ¬ s.sliceGoesOn f := fun hg => absurd (hst.symm.trans hg.1) (by decide)
  have ha : s.advances f = true := by simp [Kernel.advances, hst]
  have hs : step (.loop 0) s = some ((s.sliceEnd f).setCtl 0 (.scan (f.p + 1))) := by
    simp [step, h.ctl, hg]
  refine ⟨_, hs, ⟨h.toListed.step hs rfl, by simp [hp], ?_, ?_, ?_, ?_⟩⟩
  · simpa using h.lock
  · rw [← h.life]
    exact s.sliceEnd_life f 0
  · rw [step_numStatUsed hs, h.used]
    simp [Kernel.claims, Kernel.nextRecord, h.ctl, hg, ha, hp]
  · intro p hp'
    rw [Kernel.setCtl_proc, Kernel.sliceEnd_life]
    exact h.others p hp'

/-- While nobody is `RUNNABLE`, the scan passes every slot. -/
theorem scan_all (hz : life.state = .SLEEPING) (k : ℕ) {i : ℕ} (hi : i + k ≤ NPROC)
    (h : Lone s (.scan i) (some 0) life u) :
    ∃ t, exec step (List.replicate k (.scan 0)) s = some t ∧
      Lone t (.scan (i + k)) (some 0) life u := by
  induction k generalizing i s with
  | zero => exact ⟨s, rfl, h⟩
  | succ k ih =>
    have hnone : ∀ p, s.returnProc.1 ≠ some p := by
      intro p he
      have hrun := Kernel.returnProc_runnable he
      by_cases hp : p = 0
      · rw [hp, h.life, hz] at hrun
        cases hrun
      · rw [h.others p hp] at hrun
        cases hrun
    have hs : step (.scan 0) s = some (s.returnProc.2.setCtl 0 (.scan (i + 1))) := by
      simp only [step, h.ctl]
      rw [dif_pos (by omega), if_neg (hnone _)]
    have ht : Lone (s.returnProc.2.setCtl 0 (.scan (i + 1))) (.scan (i + 1)) (some 0) life u :=
      ⟨h.toListed.step hs rfl, by simp, by simpa using h.lock, by simpa using h.life,
        by simpa using h.used, by simpa using h.others⟩
    obtain ⟨t, hx, ht⟩ := ih (by omega) ht
    exact ⟨t, Transition.exec_cons_some.mpr ⟨_, hs, hx⟩, by rwa [add_right_comm] at ht⟩

theorem release (h : Lone s (.scan NPROC) (some 0) life u) :
    ∃ t, step (.scan 0) s = some t ∧ Lone t .idle none life u := by
  have hs : step (.scan 0) s = some ((s.setLock none).setCtl 0 .idle) := by
    simp [step, h.ctl]
  exact ⟨_, hs, ⟨h.toListed.step hs rfl, by simp, rfl, h.life, h.used, h.others⟩⟩

theorem wakeup (h : Lone s .idle none life u) (hz : life.state = .SLEEPING)
    (hc : life.chan = some (.addr 0)) :
    ∃ t, step (.wakeup 0) s = some t ∧ Lone t .idle none { life with state := .RUNNABLE } u := by
  have hs : step (.wakeup 0) s = some (s.wakeup1 (some (.addr 0))) := by
    simp [step, h.lock]
  refine ⟨_, hs, ⟨h.toListed.step hs rfl, h.ctl, h.lock, ?_, ?_, ?_⟩⟩
  · simp [Kernel.wakeup1, h.life, hz, hc]
  · rw [(s.wakes_wakeup1 _).pstat, h.used]
  · intro p hp
    simp [Kernel.wakeup1, h.others p hp]

end Lone

/-- The indices used stay recorded. -/
theorem uses_of_run {ls : List (Label n)} {t : Kernel n} (hx : exec step ls s = some t)
    {u : Use} (hu : u ∈ s.others) : u ∈ t.others := by
  refine Transition.Reachable.invariant (I := fun s : Kernel n => u ∈ s.others) ⟨ls, hx⟩ hu ?_
  intro s l s' hi hs
  rw [step_others hs]
  exact List.mem_append_left _ hi

/-- **One nap** uses the indices `TOTAL` and `num_stat_used`, and advances the latter. -/
theorem Rested.nap {s : Kernel 1} {u : ℤ} (h : Rested s u) :
    ∃ t, exec step nap s = some t ∧ Rested t (u + 1) ∧
      Use.total s.TOTAL ∈ t.uses ∧ Use.stats u ∈ t.uses := by
  obtain ⟨life, h₀, hrun, hfork, hctx⟩ := h
  obtain ⟨s₁, hs₁, h₁⟩ := h₀.acquire
  obtain ⟨s₂, f, hs₂, hp, hcount, h₂⟩ := h₁.scan_init hrun
  obtain ⟨s₃, hs₃, h₃, htotal, hstats⟩ := h₂.dispatch hp hcount hrun
  obtain ⟨s₄, life', hs₄, h₄, hfork'⟩ := h₃.resume hp hctx
  obtain ⟨s₅, hs₅, h₅⟩ := h₄.sleep hp (hfork'.trans hfork)
  obtain ⟨s₆, hs₆, h₆⟩ := h₅.back
  obtain ⟨s₇, hs₇, h₇⟩ := h₆.finish hp rfl
  obtain ⟨s₈, hx₈, h₈⟩ := h₇.scan_all rfl (NPROC - 1) le_rfl
  obtain ⟨s₉, hs₉, h₉⟩ := h₈.release
  obtain ⟨t, hs, ht⟩ := h₉.wakeup rfl rfl
  have hT : s₂.TOTAL = s.TOTAL := by
    obtain ⟨-, -, rfl⟩ := step_acquire hs₁
    obtain ⟨i, -, ⟨p, -, -, rfl⟩ | ⟨-, rfl⟩ | ⟨-, rfl⟩⟩ := step_scan hs₂ <;>
      simp [Kernel.startSlice]
  have hrest : exec step ([.resume 0, .sleep 0 0, .back 0, .loop 0] ++
      (List.replicate (NPROC - 1) (.scan 0) ++ [.scan 0, .wakeup 0])) s₃ = some t := by
    refine Transition.exec_append_some.mpr ⟨s₇, ?_, Transition.exec_append_some.mpr ⟨s₈, hx₈, ?_⟩⟩
    · simp only [Transition.exec_cons, Transition.exec_nil, hs₄, hs₅, hs₆, hs₇, Option.bind_some]
    · simp only [Transition.exec_cons, Transition.exec_nil, hs₉, hs, Option.bind_some]
  refine ⟨t, ?_, ⟨_, ht, rfl, hfork'.trans hfork, .inr rfl⟩, ?_, ?_⟩
  · refine Transition.exec_append_some.mpr ⟨s₃, ?_, hrest⟩
    simp only [Transition.exec_cons, Transition.exec_nil, hs₁, hs₂, hs₃, Option.bind_some]
  · rw [← hT, ← Kernel.total_mem_others]
    exact uses_of_run hrest (Kernel.total_mem_others.mpr htotal)
  · rw [← Kernel.stats_mem_others]
    exact uses_of_run hrest (Kernel.stats_mem_others.mpr hstats)

theorem rested_boot : Rested (boot 1) 0 :=
  ⟨_, ⟨listed_boot, rfl, rfl, congrArg Proc.toLife boot_proc_zero, rfl,
    fun p hp => by rw [boot_state, if_neg hp]⟩, rfl, rfl, .inl rfl⟩

/-- Init takes `k` naps. -/
def naps (k : ℕ) : List (Label 1) := (List.replicate k nap).flatten

theorem naps_succ (k : ℕ) : naps (k + 1) = naps k ++ nap := by
  simp [naps, List.replicate_succ']

theorem countP_naps (k : ℕ) : (naps k).countP Label.isBack = k := by
  induction k with
  | zero => rfl
  | succ k ih =>
    have hnap : nap.countP Label.isBack = 1 := by decide
    rw [naps_succ, List.countP_append, ih, hnap]

theorem rested_naps (k : ℕ) : ∃ t, exec step (naps k) (boot 1) = some t ∧ Rested t k := by
  induction k with
  | zero => exact ⟨_, rfl, rested_boot⟩
  | succ k ih =>
    obtain ⟨s, hx, hs⟩ := ih
    obtain ⟨t, hnap, ht, -⟩ := hs.nap
    refine ⟨t, ?_, by simpa using ht⟩
    rw [naps_succ]
    exact Transition.exec_append_some.mpr ⟨s, hx, hnap⟩

/-- The last of `k + 1` naps uses the indices that `k` naps have led to. -/
theorem naps_uses (k : ℕ) : ∃ t, exec step (naps (k + 1)) (boot 1) = some t ∧
    Use.total (min k NTICKS) ∈ t.uses ∧ Use.stats k ∈ t.uses := by
  obtain ⟨s, hx, hs⟩ := rested_naps k
  obtain ⟨t, hnap, -, htotal, hstats⟩ := hs.nap
  have hboot : (boot 1).TOTAL = 0 := rfl
  have hT := (run_TOTAL hx hboot.ge (by rw [hboot]; decide) (by simp [boot_uses])).1
  rw [hboot, countP_naps, zero_add] at hT
  refine ⟨t, ?_, hT ▸ htotal, hstats⟩
  rw [naps_succ]
  exact Transition.exec_append_some.mpr ⟨s, hx, hnap⟩

/-! ## The two counters as indices -/

/-- **Every index that is `TOTAL` is in range** in a run with fewer than `NTICKS` returns to
`scheduler`. -/
theorem total_indices_in_bounds (ls : List (Label n)) (s : Kernel n)
    (hx : exec step ls (boot n) = some s) (hC : ls.countP Label.isBack < NTICKS) :
    ∀ i, Use.total i ∈ s.uses → 0 ≤ i ∧ i < NTICKS := by
  have hboot : (boot n).TOTAL = 0 := rfl
  obtain ⟨hT, hu⟩ := run_TOTAL hx hboot.ge (by rw [hboot]; decide) (by simp [boot_uses])
  intro i hi
  have := hu i hi
  rw [hT, hboot] at this
  omega

theorem total_indices_in_bounds_init : ∃ s : Kernel 1,
    exec step (switchToInit ++ usesSliceUp) (boot 1) = some s ∧ Use.total 0 ∈ s.uses ∧
      ∀ i, Use.total i ∈ s.uses → 0 ≤ i ∧ i < NTICKS := by
  obtain ⟨s, hx, hu⟩ := exists_run (switchToInit ++ usesSliceUp)
    (fun s => Use.total 0 ∈ s.uses) (by decide +kernel)
  exact ⟨s, hx, hu, total_indices_in_bounds _ s hx (by decide)⟩

/-- After 500 dispatches of init, the next one writes entry 500 of arrays of 500 entries. -/
theorem total_index_out_of_bounds : ∃ s : Kernel 1,
    exec step (naps (NTICKS + 1)) (boot 1) = some s ∧ Use.total NTICKS ∈ s.uses := by
  obtain ⟨s, hx, hu, -⟩ := naps_uses NTICKS
  exact ⟨s, hx, by simpa using hu⟩

/-- **Every index into the records is in range**, and `getpinfo` reads only records that
exist, in a run in which fewer than `NSCHEDSTATS` slices of each process end in a demotion, a
boost or a sleep. -/
theorem stats_indices_in_bounds (ls : List (Label n)) (s : Kernel n) (w : Slot → ℕ)
    (hx : exec (observed step statEnds) ls (boot n, fun _ => 0) = some (s, w))
    (hC : Along (observed step statEnds)
      (fun sw l => ∀ p, statEnds sw.1 l sw.2 p < NSCHEDSTATS) ls (boot n, fun _ => 0)) :
    (∀ i, Use.stats i ∈ s.uses → 0 ≤ i ∧ i < NSCHEDSTATS) ∧
      ∀ pid, ∀ i ∈ s.getpinfoReads pid, 0 ≤ i ∧ i < NSCHEDSTATS := by
  have h : RecordsInRange s w := by
    refine Transition.along_invariant (I := fun sw : Kernel n × (Slot → ℕ) =>
      RecordsInRange sw.1 sw.2) hx hC recordsInRange_boot ?_
    rintro ⟨s, w⟩ l ⟨s', w'⟩ hi hc hs
    obtain ⟨hstep, rfl⟩ := Transition.observed_some.mp hs
    exact hi.step hstep hc
  refine ⟨h.indices, fun pid i hi => ?_⟩
  simp only [Kernel.getpinfoReads] at hi
  split at hi
  case h_1 p _ =>
    obtain ⟨j, hj, rfl⟩ := List.mem_map.mp hi
    have := h.below p
    rw [List.mem_range, h.used p] at hj
    simp only [Int.ofNat_eq_natCast]
    omega
  case h_2 => simp at hi

theorem stats_indices_in_bounds_init : ∃ (s : Kernel 1) (w : Slot → ℕ),
    exec (observed step statEnds) (switchToInit ++ usesSliceUp) (boot 1, fun _ => 0) = some (s, w) ∧
      w 0 = 1 ∧ Use.stats 0 ∈ s.uses ∧ (∀ i, Use.stats i ∈ s.uses → 0 ≤ i ∧ i < NSCHEDSTATS) := by
  have hrun : ∃ sw : Kernel 1 × (Slot → ℕ),
      exec (observed step statEnds) (switchToInit ++ usesSliceUp) (boot 1, fun _ => 0) = some sw ∧
        sw.2 0 = 1 ∧ Use.stats 0 ∈ sw.1.uses :=
    Transition.exists_exec _ _ (by decide +kernel)
  obtain ⟨⟨s, w⟩, hx, hw, hu⟩ := hrun
  exact ⟨s, w, hx, hw, hu, (stats_indices_in_bounds _ s w hx (by decide +kernel)).1⟩

/-- After 1500 naps of init, the next slice writes record 1500 of 1500. -/
theorem stats_index_out_of_bounds : ∃ s : Kernel 1,
    exec step (naps (NSCHEDSTATS + 1)) (boot 1) = some s ∧ Use.stats NSCHEDSTATS ∈ s.uses := by
  obtain ⟨s, hx, -, hu⟩ := naps_uses NSCHEDSTATS
  exact ⟨s, hx, hu⟩

end Xv6Mlfq
