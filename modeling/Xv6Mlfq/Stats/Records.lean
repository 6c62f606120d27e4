import Xv6Mlfq.Lib.Timeline
import Xv6Mlfq.Proc.Accounting
import Xv6Mlfq.Sched.Membership

/-!
# Scheduling records

`stats[num_stat_used]` of a process describes its current stretch of work: `start_tick` is
written at each dispatch and `duration` grows on each return.  Several dispatches share a
record (two in a slice of `q1`, eight in one of `q2`, and a slice used up in `q2` does not even
go on to the next record), so that the start is the last of several and the duration the
sum of all.  On one CPU and as long as each dispatch finds a record without duration, the
kernel keeps a `Timeline`, whose intervals are disjoint.

## Main definitions

* `Kernel.timeline` — the records of all processes, and the one that is open.
* `Kernel.recordsOnce` — the step does not dispatch into a record that has a duration.
-/

namespace Xv6Mlfq

open Function (update update_self update_of_ne)
open Transition (exec Along)

/-- The time that a record claims. -/
def SchedStat.interval (x : SchedStat) : Set ℕ :=
  Set.Ico x.startTick.toNat (x.startTick.toNat + x.duration.toNat)

/-- The slice whose process has been dispatched and has not been accounted for. -/
def Ctl.dispatched : Ctl → Option Frame
  | .running f | .returned f => some f
  | _ => none

namespace Kernel

/-- The record that process `p` writes to. -/
def record {n : ℕ} (s : Kernel n) (p : Slot) : Option (Slot × ℤ) :=
  if 0 ≤ (s.proc p).numStatUsed ∧ (s.proc p).numStatUsed < NSCHEDSTATS then
    some (p, (s.proc p).numStatUsed)
  else none

/-- The records of all processes as a timeline of the one CPU. -/
def timeline (s : Kernel 1) : Timeline (Slot × ℤ) where
  now := s.ticks.toNat
  start r := ((s.proc r.1).stats.get r.2).startTick.toNat
  length r := ((s.proc r.1).stats.get r.2).duration.toNat
  current := (s.cpu 0).ctl.dispatched.bind fun f => s.record f.p

/-- A step that dispatches a process finds a record of it without duration, and a tick of
the clock does not leave the range of `int`. -/
def recordsOnce (s : Kernel 1) : Label 1 → Bool
  | .loop c =>
    match (s.cpu c).ctl with
    | .slice f =>
      !decide (s.sliceGoesOn f) ||
        (s.record f.p).any fun r => ((s.proc r.1).stats.get r.2).duration = 0
    | _ => true
  | .tick => s.ticks.toNat + 1 < 2 ^ 31
  | _ => true

variable {r : Slot × ℤ} {s s' : Kernel 1} {f : Frame}

theorem record_eq_some {n : ℕ} {s : Kernel n} {p : Slot}
    (h : s.record p = some r) : (0 ≤ (s.proc p).numStatUsed ∧
      (s.proc p).numStatUsed < NSCHEDSTATS) ∧ r = (p, (s.proc p).numStatUsed) := by
  simp only [record] at h
  split_ifs at h with hrange
  exact ⟨hrange, (Option.some.inj h).symm⟩

theorem record_congr {n m : ℕ} {s : Kernel n} {t : Kernel m} {p : Slot}
    (h : (t.proc p).numStatUsed = (s.proc p).numStatUsed) : t.record p = s.record p := by
  simp only [record, h]

/-- A step that changes no start and no duration and opens or closes no record. -/
theorem timeline_congr (hticks : s'.ticks = s.ticks)
    (hstat : ∀ p i, ((s'.proc p).stats.get i).startTick = ((s.proc p).stats.get i).startTick ∧
      ((s'.proc p).stats.get i).duration = ((s.proc p).stats.get i).duration)
    (hcurrent : s'.timeline.current = s.timeline.current) : s'.timeline = s.timeline := by
  apply Timeline.ext
  · simp [timeline, hticks]
  · funext r
    simp [timeline, hstat]
  · funext r
    simp [timeline, hstat]
  · exact hcurrent

/-- Ticks do not wrap. -/
theorem ticks_succ (h : s'.ticks = s.ticks + 1)
    (hlt : s.ticks.toNat + 1 < 2 ^ 31) : s'.timeline.now = s.timeline.now + 1 := by
  simp only [timeline, h]
  bv_omega

/-- A dispatch opens the record of its process. -/
theorem timeline_dispatch (hrec : s.record f.p = some r) :
    ((s.dispatch 0 f).setCtl 0 (.running f)).timeline = { s.timeline with
      start := update s.timeline.start r s.timeline.now, current := some r } := by
  obtain ⟨hrange, rfl⟩ := record_eq_some hrec
  apply Timeline.ext
  · rfl
  · funext ⟨p, i⟩
    by_cases hp : p = f.p
    · subst hp
      by_cases hi : i = (s.proc f.p).numStatUsed
      · subst hi
        simp only [timeline, setCtl_proc, update_self]
        rw [dispatch_stats, CArray.get_set_self _ _ hrange.1 hrange.2]
      · simp only [timeline, setCtl_proc]
        rw [dispatch_stats, CArray.get_set_ne _ _ hi, update_of_ne (by simpa using hi)]
    · simp [timeline, dispatch_proc_ne s 0 hp, hp]
  · funext ⟨p, i⟩
    by_cases hp : p = f.p
    · subst hp
      simp only [timeline, setCtl_proc, dispatch_stats]
      exact CArray.apply_get_set (fun x : SchedStat => x.duration.toNat) _ (by rfl) i
    · simp [timeline, dispatch_proc_ne s 0 hp]
  · have hsame : ((s.dispatch 0 f).setCtl 0 (.running f)).record f.p = s.record f.p :=
      record_congr (by simp [dispatch])
    simp [timeline, Ctl.dispatched, hsame, hrec]

/-- The return from a dispatch closes the record. -/
theorem timeline_back (hi : s.timeline.Inv)
    (hc : (s.cpu 0).ctl = .returned f) (hrec : s.record f.p = some r) :
    ((s.afterSwtch 0 f).setCtl 0 (.slice { f with count := f.count + 1 })).timeline =
      { s.timeline with
        length := update s.timeline.length r
          (s.timeline.length r + (s.timeline.now - s.timeline.start r)), current := none } := by
  have hcur : s.timeline.current = some r := by simp [timeline, hc, Ctl.dispatched, hrec]
  have hempty := hi.empty r hcur
  have hstarted := hi.started r hcur
  obtain ⟨hrange, rfl⟩ := record_eq_some hrec
  apply Timeline.ext
  · rfl
  · funext ⟨p, i⟩
    by_cases hp : p = f.p
    · subst hp
      simp only [timeline, setCtl_proc, afterSwtch_stats]
      exact CArray.apply_get_set (fun x : SchedStat => x.startTick.toNat) _ (by rfl) i
    · simp [timeline, afterSwtch_proc_ne s 0 hp]
  · funext ⟨p, i⟩
    by_cases hp : p = f.p
    · subst hp
      by_cases hi : i = (s.proc f.p).numStatUsed
      · subst hi
        simp only [timeline, setCtl_proc, update_self] at hempty hstarted ⊢
        rw [afterSwtch_stats, CArray.get_set_self _ _ hrange.1 hrange.2]
        -- the duration was zero, and the clock has not gone back
        bv_omega
      · simp only [timeline, setCtl_proc]
        rw [afterSwtch_stats, CArray.get_set_ne _ _ hi, update_of_ne (by simpa using hi)]
    · simp [timeline, afterSwtch_proc_ne s 0 hp, hp]
  · simp [timeline, Ctl.dispatched]

/-- A return that finds no record in range writes to none. -/
theorem timeline_back_of_none (hc : (s.cpu 0).ctl = .returned f) (hrec : s.record f.p = none) :
    ((s.afterSwtch 0 f).setCtl 0 (.slice { f with count := f.count + 1 })).timeline =
      s.timeline := by
  have hrange : ¬ (0 ≤ (s.proc f.p).numStatUsed ∧ (s.proc f.p).numStatUsed < NSCHEDSTATS) := by
    intro h
    rw [record, if_pos h] at hrec
    cases hrec
  refine timeline_congr rfl (fun p i => ?_) (by simp [timeline, hc, Ctl.dispatched, hrec])
  by_cases hp : p = f.p
  · subst hp
    rw [setCtl_proc, afterSwtch_stats, CArray.get_set_of_not _ _ _ hrange]
    exact ⟨rfl, rfl⟩
  · simp [afterSwtch_proc_ne s 0 hp]

theorem timeline_finish (hc : (s.cpu 0).ctl = .slice f) :
    ((s.sliceEnd f).setCtl 0 (.scan (f.p + 1))).timeline = s.timeline := by
  refine timeline_congr (by simp) (fun p i => ?_) (by simp [timeline, hc, Ctl.dispatched])
  by_cases hp : p = f.p
  · subst hp
    rw [setCtl_proc, sliceEnd_stats]
    split_ifs
    · exact ⟨CArray.apply_get_set SchedStat.startTick _ (by rfl) i,
        CArray.apply_get_set SchedStat.duration _ (by rfl) i⟩
    · exact ⟨rfl, rfl⟩
  · rw [setCtl_proc, sliceEnd_proc_ne s hp]
    exact ⟨rfl, rfl⟩

/-- **The kernel keeps a timeline.** -/
theorem timeline_step {l : Label 1} (hr : Reached s)
    (hi : s.timeline.Inv) (h : step l s = some s') (hC : s.recordsOnce l = true) :
    s'.timeline = s.timeline ∨ Timeline.Step s.timeline s'.timeline := by
  cases step_effect h with
  | quiet _ _ hq =>
    have hcurrent : s'.timeline.current = s.timeline.current := by
      have hctl : (s'.cpu 0).ctl.dispatched = (s.cpu 0).ctl.dispatched := by
        have hcalm := hq.ctl 0
        generalize (s.cpu 0).ctl = x, (s'.cpu 0).ctl = y at hcalm ⊢
        cases hcalm <;> rfl
      have hrec : ∀ p, s'.record p = s.record p := fun p => record_congr (by rw [hq.pstat])
      simp only [timeline, hctl, hrec]
    rcases hq.ticks with ht | ⟨rfl, ht⟩
    · exact .inl (timeline_congr ht (by simp [hq.pstat]) hcurrent)
    · right
      have hnow := ticks_succ ht (by simpa [recordsOnce] using hC)
      have he : s'.timeline = { s.timeline with now := s.timeline.now + 1 } := by
        apply Timeline.ext
        · exact hnow
        · funext r
          simp [timeline, hq.pstat]
        · funext r
          simp [timeline, hq.pstat]
        · exact hcurrent
      rw [he]
      exact .tick _
  | start c p hc hp =>
    left
    obtain rfl : c = 0 := Subsingleton.elim c 0
    exact timeline_congr (by simp [startSlice]) (by simp [startSlice])
      (by simp [timeline, startSlice, hc, Ctl.dispatched])
  | skip c i hc =>
    left
    obtain rfl : c = 0 := Subsingleton.elim c 0
    exact timeline_congr (by simp) (by simp) (by simp [timeline, hc, Ctl.dispatched])
  | dispatch c f hc hg =>
    right
    obtain rfl : c = 0 := Subsingleton.elim c 0
    have hany : (s.record f.p).any
        (fun r => ((s.proc r.1).stats.get r.2).duration = 0) = true := by
      simpa [recordsOnce, hc, hg] using hC
    cases hrec : s.record f.p with
    | none => simp [hrec] at hany
    | some r =>
      rw [timeline_dispatch hrec]
      have hzero : ((s.proc r.1).stats.get r.2).duration = 0 := by simpa [hrec] using hany
      exact .opens r (by simp [timeline, hzero])
  | back c f hc =>
    obtain rfl : c = 0 := Subsingleton.elim c 0
    cases hrec : s.record f.p with
    | none => exact .inl (timeline_back_of_none hc hrec)
    | some r =>
      right
      rw [timeline_back hi hc hrec]
      exact .closes r (by simp [timeline, hc, Ctl.dispatched, hrec])
  | finish c f hc hg =>
    obtain rfl : c = 0 := Subsingleton.elim c 0
    exact .inl (timeline_finish hc)
  | claim c f np hc hl hn =>
    left
    obtain rfl : c = 0 := Subsingleton.elim c 0
    have hne : f.p ≠ np := by
      rintro rfl
      exact hr.frame_used (by rw [hc]; rfl) (findUnused_some hn)
    refine timeline_congr (by simp [claimSlot_toMachine]) (fun p i => ?_) ?_
    · obtain ⟨k, u, T, he⟩ := s.claimSlot_pstat np p
      rw [setForking_pstat, he]
      exact ⟨rfl, rfl⟩
    · have hsame : ((s.claimSlot np).setForking f.p (some (.alloced, np))).record f.p =
          s.record f.p := record_congr (by simp [claimSlot_proc_ne s hne])
      simp [timeline, claimSlot_toMachine, hc, Ctl.dispatched, hsame]

theorem timeline_boot : (boot 1).timeline.Inv := by
  have hlength : ∀ r, (boot 1).timeline.length r = 0 := by
    intro r
    have hstats : ((boot 1).proc r.1).stats = default := by
      by_cases hp : r.1 = 0
      · rw [hp]; rfl
      · rw [boot_proc_ne hp]; rfl
    simp only [timeline, hstats, CArray.get]
    split_ifs <;> rfl
  have hint : ∀ r, (boot 1).timeline.interval r = ∅ :=
    fun r => Timeline.interval_of_length_zero (hlength r)
  have hcurrent : (boot 1).timeline.current = none := rfl
  constructor
  · intro r x hx
    rw [hint] at hx
    exact absurd hx (Set.notMem_empty x)
  · intro r r' _
    rw [hint]
    exact Set.empty_disjoint _
  all_goals
    intro r hr
    rw [hcurrent] at hr
    cases hr

end Kernel

/-- The invariant of a run that records once. -/
structure Recorded (s : Kernel 1) : Prop where
  reached : Reached s
  timeline : s.timeline.Inv

theorem Recorded.step {s s' : Kernel 1} {l : Label 1} (h : Recorded s) (hs : step l s = some s')
    (hC : s.recordsOnce l = true) : Recorded s' := by
  refine ⟨h.reached.next hs, ?_⟩
  rcases Kernel.timeline_step h.reached h.timeline hs hC with he | hstep
  · rw [he]
    exact h.timeline
  · exact h.timeline.step hstep

/-- **The records describe what ran when**, on one CPU and in a run in which each dispatch
finds a record without duration and the clock stays in the range of `int`: the intervals of
any two completed records are disjoint, and none extends beyond `ticks`. -/
theorem records_disjoint (ls : List (Label 1)) (s : Kernel 1)
    (hx : exec step ls (boot 1) = some s)
    (hC : Along step (fun s l => s.recordsOnce l = true) ls (boot 1)) :
    (∀ (p p' : Slot) (i i' : ℤ), 0 ≤ i → i < (s.proc p).numStatUsed → 0 ≤ i' →
      i' < (s.proc p').numStatUsed → (p, i) ≠ (p', i') →
      Disjoint ((s.proc p).stats.get i).interval ((s.proc p').stats.get i').interval) ∧
    ∀ (p : Slot) (i : ℤ), 0 ≤ i → i < (s.proc p).numStatUsed →
      ∀ x ∈ ((s.proc p).stats.get i).interval, x < s.ticks.toNat := by
  have h : Recorded s := Transition.along_invariant hx hC ⟨.refl _, Kernel.timeline_boot⟩
    fun s l s' hi hc hs => hi.step hs hc
  constructor
  · intro p p' i i' _ _ _ _ hne
    exact h.timeline.apart (p, i) (p', i') hne
  · intro p i _ _
    exact h.timeline.past (p, i)

/-- Init runs through its slice in `q0` while the clock ticks once. -/
def tickInQ0 : List (Label 1) := switchToInit ++ [.tick] ++ usesSliceUp

theorem records_disjoint_init : ∃ s : Kernel 1, exec step tickInQ0 (boot 1) = some s ∧
    0 ∈ ((s.proc 0).stats.get 0).interval ∧ 0 < s.ticks.toNat := by
  obtain ⟨s, hx, hused, hstart, hdur⟩ := exists_run tickInQ0
    (fun s => (s.proc 0).numStatUsed = 1 ∧ ((s.proc 0).stats.get 0).startTick = 0 ∧
      ((s.proc 0).stats.get 0).duration = 1) (by decide +kernel)
  have hmem : 0 ∈ ((s.proc 0).stats.get 0).interval := by
    simp [SchedStat.interval, hstart, hdur]
  refine ⟨s, hx, hmem, ?_⟩
  exact (records_disjoint tickInQ0 s hx (by decide +kernel)).2 0 0 le_rfl (by omega) 0 hmem

/-- Init goes on to `q1`, where its slice has two dispatches, with a tick in each. -/
def ticksInQ1 : List (Label 1) :=
  tickInQ0 ++ List.replicate 64 (.scan 0) ++ [.acquire 0, .scan 0] ++
    [.loop 0, .resume 0, .tick, .yield 0, .back 0] ++
    [.loop 0, .resume 0, .tick, .yield 0, .back 0, .loop 0]

set_option maxRecDepth 100000 in
/-- The record of the slice in `q1` starts at the second dispatch and lasts as long as both:
it claims a tick that has not come yet.  The run creates no process. -/
theorem record_beyond_ticks : ∃ s : Kernel 1, exec step ticksInQ1 (boot 1) = some s ∧
    (∀ l ∈ ticksInQ1, l ≠ .forkAlloc 0) ∧ 1 < (s.proc 0).numStatUsed ∧
    3 ∈ ((s.proc 0).stats.get 1).interval ∧ s.ticks.toNat = 3 := by
  obtain ⟨s, hx, hused, hstart, hdur, hticks⟩ := exists_run ticksInQ1
    (fun s => 1 < (s.proc 0).numStatUsed ∧ ((s.proc 0).stats.get 1).startTick = 2 ∧
      ((s.proc 0).stats.get 1).duration = 2 ∧ s.ticks = 3) (by decide +kernel)
  refine ⟨s, hx, by decide +kernel, hused, ?_, by simp [hticks]⟩
  simp [SchedStat.interval, hstart, hdur]

end Xv6Mlfq
