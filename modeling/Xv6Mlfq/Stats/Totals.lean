import Xv6Mlfq.Proc.Accounting
import Xv6Mlfq.Sched.Membership

/-!
# `total_ticks` and `ticks`

`pstat.h` says that `total_ticks` equals the sum of the three values in `ticks`.  The two
are kept by different code: `updatePstat` adds one to `total_ticks` of *every* `RUNNABLE`
process on each return to `scheduler`, while the end of a slice adds the number of its
dispatches to `ticks` of the process that ran.  The law holds of a run in which the two
agree on each return: the process that comes back is `RUNNABLE` and the only one.

## Main definitions

* `Kernel.countsRunnerOnly` — on a return, `updatePstat` counts the process that ran.
* `Balanced` — the law, with the count of an open slice on the other side.
-/

namespace Xv6Mlfq

variable {n : ℕ}

/-- `ticks[0] + ticks[1] + ticks[2]`. -/
def Proc.ticksSum (x : Proc) : ℤ := x.ticks 0 + x.ticks 1 + x.ticks 2

/-- A step that is a return to `scheduler` finds `TOTAL` below `NTICKS` and the process that
ran `RUNNABLE`, and no other process. -/
def Kernel.countsRunnerOnly (s : Kernel n) : Label n → Bool
  | .back c =>
    match (s.cpu c).ctl with
    | .returned f =>
      s.TOTAL < NTICKS && decide (∀ r, (s.proc r).state = .RUNNABLE ↔ r = f.p)
    | _ => true
  | _ => true

/-- No CPU is in a slice of `p`. -/
def Kernel.betweenSlices (s : Kernel n) (p : Slot) : Prop :=
  ∀ c f, (s.cpu c).ctl.frame = some f → f.p ≠ p

/-- `total_ticks` counts what `ticks` has and the dispatches of an open slice. -/
structure Balanced (s : Kernel n) : Prop where
  reached : Reached s
  inside : ∀ c f, (s.cpu c).ctl.frame = some f →
    (s.proc f.p).totalTicks = (s.proc f.p).ticksSum + f.count
  between : ∀ p, s.betweenSlices p → (s.proc p).totalTicks = (s.proc p).ticksSum

theorem balanced_boot : Balanced (boot n) where
  reached := .refl _
  inside c f h := nomatch h
  between p _ := by
    by_cases hp : p = 0
    · subst hp; rfl
    · rw [boot_proc_ne hp]; rfl

theorem Proc.ticksSum_update (t : Level → ℤ) (k : Level) (d : ℤ) :
    Function.update t k (t k + d) 0 + Function.update t k (t k + d) 1 +
      Function.update t k (t k + d) 2 = t 0 + t 1 + t 2 + d := by
  match k with
  | 0 => simp; ring
  | 1 => simp; ring
  | 2 => simp; ring

variable {s : Kernel n} {c : Fin n}

/-- The counters of all processes and the slices are as before. -/
theorem Balanced.of_eq {s' : Kernel n} (h : Balanced s) (hr : Reached s')
    (hframe : ∀ c, (s'.cpu c).ctl.frame = (s.cpu c).ctl.frame)
    (htotal : ∀ p, (s'.proc p).totalTicks = (s.proc p).totalTicks)
    (hticks : ∀ p, (s'.proc p).ticks = (s.proc p).ticks) : Balanced s' where
  reached := hr
  inside c f hf := by
    rw [htotal, Proc.ticksSum, hticks]
    exact h.inside c f (by rwa [← hframe])
  between p hp := by
    rw [htotal, Proc.ticksSum, hticks]
    exact h.between p fun c f hf => hp c f (by rwa [hframe])

theorem Balanced.start (h : Balanced s) {p : Slot}
    (hc : (s.cpu c).ctl = .scan p) (hr : Reached (s.returnProc.2.startSlice c p)) :
    Balanced (s.returnProc.2.startSlice c p) := by
  have hnew : ((s.returnProc.2.startSlice c p).cpu c).ctl.frame =
      some ⟨p, s.returnProc.2.returnQueue, (s.proc p).priority, 0⟩ := by
    simp [Kernel.startSlice, Ctl.frame]
  have hold : ∀ {d}, d ≠ c →
      ((s.returnProc.2.startSlice c p).cpu d).ctl.frame = (s.cpu d).ctl.frame := by
    intro d hd
    simp [Kernel.startSlice, hd]
  have hfree : s.betweenSlices p := by
    intro d f hf hp
    have hd : d ≠ c := by
      rintro rfl
      simp [hc, Ctl.frame] at hf
    exact hd (hr.frame_apart ((hold hd).trans hf) hnew hp)
  refine ⟨hr, fun d f hf => ?_, fun r hbetween => ?_⟩
  · by_cases hd : d = c
    · subst hd
      obtain rfl := Option.some.inj (hnew.symm.trans hf)
      simpa [Kernel.startSlice] using h.between p hfree
    · simpa [Kernel.startSlice] using h.inside d f ((hold hd).symm.trans hf)
  · have hold' : s.betweenSlices r := by
      intro d f hf
      have hd : d ≠ c := by
        rintro rfl
        simp [hc, Ctl.frame] at hf
      exact hbetween d f ((hold hd).trans hf)
    simpa [Kernel.startSlice] using h.between r hold'

theorem Balanced.back (h : Balanced s) {f : Frame}
    (hc : (s.cpu c).ctl = .returned f) (hT : s.TOTAL < NTICKS)
    (hrun : ∀ r, (s.proc r).state = .RUNNABLE ↔ r = f.p)
    (hr : Reached ((s.afterSwtch c f).setCtl c (.slice { f with count := f.count + 1 }))) :
    Balanced ((s.afterSwtch c f).setCtl c (.slice { f with count := f.count + 1 })) := by
  have hctl : ∀ d, ((s.afterSwtch c f).cpu d).ctl = (s.cpu d).ctl := fun d => s.ctl_setCur c d _
  have hframe : (s.cpu c).ctl.frame = some f := by rw [hc]; rfl
  have htotal := fun r => s.afterSwtch_totalTicks c f r (by omega)
  have hticks := s.afterSwtch_ticks c f
  refine ⟨hr, fun d g hg => ?_, fun r hbetween => ?_⟩
  · by_cases hd : d = c
    · subst hd
      obtain rfl : { f with count := f.count + 1 } = g := by simpa [Ctl.frame] using hg
      have hin := h.inside d f hframe
      simp only [Kernel.setCtl_proc, Proc.ticksSum, htotal, hticks, hrun] at hin ⊢
      simp only [if_true]
      omega
    · have hg' : (s.cpu d).ctl.frame = some g := by simpa [hd, hctl] using hg
      have hne : g.p ≠ f.p := fun hp => hd (h.reached.frame_apart hg' hframe hp)
      have hin := h.inside d g hg'
      simp only [Kernel.setCtl_proc, Proc.ticksSum, htotal, hticks, hrun, if_neg hne] at hin ⊢
      omega
  · have hne : r ≠ f.p := by
      rintro rfl
      exact hbetween c { f with count := f.count + 1 } (by simp [Ctl.frame]) rfl
    have hout := h.between r fun d g hg hp => by
      by_cases hd : d = c
      · subst hd
        obtain rfl := Option.some.inj (hframe.symm.trans hg)
        exact hne hp.symm
      · exact hbetween d g (by simpa [hd, hctl] using hg) hp
    simp only [Kernel.setCtl_proc, Proc.ticksSum, htotal, hticks, hrun, if_neg hne] at hout ⊢
    omega

theorem Balanced.finish (h : Balanced s) {f : Frame} (hc : (s.cpu c).ctl = .slice f)
    (hr : Reached ((s.sliceEnd f).setCtl c (.scan (f.p + 1)))) :
    Balanced ((s.sliceEnd f).setCtl c (.scan (f.p + 1))) := by
  have hframe : (s.cpu c).ctl.frame = some f := by rw [hc]; rfl
  refine ⟨hr, fun d g hg => ?_, fun r hbetween => ?_⟩
  · have hd : d ≠ c := by
      rintro rfl
      simp [Ctl.frame] at hg
    have hg' : (s.cpu d).ctl.frame = some g := by simpa [hd] using hg
    have hne : g.p ≠ f.p := fun hp => hd (h.reached.frame_apart hg' hframe hp)
    rw [Kernel.setCtl_proc, Kernel.sliceEnd_proc_ne s hne]
    exact h.inside d g hg'
  · by_cases hrf : r = f.p
    · subst hrf
      rw [Kernel.setCtl_proc, Kernel.sliceEnd_totalTicks, h.inside c f hframe, Proc.ticksSum,
        Proc.ticksSum, Kernel.sliceEnd_ticks, Proc.ticksSum_update]
    · rw [Kernel.setCtl_proc, Kernel.sliceEnd_proc_ne s hrf]
      refine h.between r fun d g hg hp => ?_
      by_cases hd : d = c
      · subst hd
        obtain rfl := Option.some.inj (hframe.symm.trans hg)
        exact hrf hp.symm
      · exact hbetween d g (by simpa [hd] using hg) hp

theorem Balanced.step {s' : Kernel n} {l : Label n} (h : Balanced s) (hs : step l s = some s')
    (hC : s.countsRunnerOnly l = true) : Balanced s' := by
  have hr : Reached s' := h.reached.next hs
  cases step_effect hs with
  | quiet _ _ hq =>
    exact h.of_eq hr hq.frame (fun p => by rw [hq.pstat]) fun p => by rw [hq.pstat]
  | start c p hc hp => exact h.start hc hr
  | skip c i hc =>
    refine h.of_eq hr (fun d => ?_) (by simp) (by simp)
    by_cases hd : d = c
    · subst hd; simp [hc, Ctl.frame]
    · simp [hd]
  | dispatch c f hc hg =>
    have hproc : ∀ p, ((s.dispatch c f).proc p).totalTicks = (s.proc p).totalTicks ∧
        ((s.dispatch c f).proc p).ticks = (s.proc p).ticks := by
      intro p
      obtain ⟨a, he⟩ := s.dispatch_pstat c f p
      rw [he]
      exact ⟨rfl, rfl⟩
    refine h.of_eq hr (fun d => ?_) (fun p => (hproc p).1) fun p => (hproc p).2
    by_cases hd : d = c
    · subst hd; simp [hc, Ctl.frame]
    · simp [hd, Kernel.dispatch]
  | back c f hc =>
    have hCf : s.TOTAL < NTICKS ∧ ∀ r, (s.proc r).state = .RUNNABLE ↔ r = f.p := by
      simpa [Kernel.countsRunnerOnly, hc] using hC
    exact h.back hc hCf.1 hCf.2 hr
  | finish c f hc hg => exact h.finish hc hr
  | claim c f np hc hl hn =>
    have hproc : ∀ p, ((s.claimSlot np).proc p).totalTicks = (s.proc p).totalTicks ∧
        ((s.claimSlot np).proc p).ticks = (s.proc p).ticks := by
      intro p
      obtain ⟨k, u, T, he⟩ := s.claimSlot_pstat np p
      rw [he]
      exact ⟨rfl, rfl⟩
    exact h.of_eq hr (by simp [Kernel.claimSlot_toMachine]) (by simp [hproc]) (by simp [hproc])

/-- **The law of `pstat.h`** holds between slices in a run in which, whenever `scheduler`
gets a CPU back, `TOTAL` is below `NTICKS` and the process that ran is the only `RUNNABLE`
one. -/
theorem total_ticks_eq_sum (ls : List (Label n)) (s : Kernel n)
    (hx : Transition.exec step ls (boot n) = some s)
    (hC : Transition.Along step (fun s l => s.countsRunnerOnly l = true) ls (boot n)) :
    ∀ p, s.betweenSlices p →
      (s.proc p).totalTicks = (s.proc p).ticks 0 + (s.proc p).ticks 1 + (s.proc p).ticks 2 := by
  have h : Balanced s := Transition.along_invariant hx hC balanced_boot
    fun s l s' hi hc hs => hi.step hs hc
  intro p hp
  exact h.between p hp

theorem betweenSlices_of_scan {s : Kernel 1} {i : ℕ} (h : (s.cpu 0).ctl = .scan i) (p : Slot) :
    s.betweenSlices p := by
  intro c f hf
  rw [Subsingleton.elim c 0, h] at hf
  cases hf

theorem total_ticks_eq_sum_init : ∃ s : Kernel 1,
    Transition.exec step (switchToInit ++ usesSliceUp) (boot 1) = some s ∧
    (s.proc 0).ticks 0 = 1 ∧
    (s.proc 0).totalTicks = (s.proc 0).ticks 0 + (s.proc 0).ticks 1 + (s.proc 0).ticks 2 := by
  obtain ⟨s, hx, hctl, hticks⟩ := exists_run (switchToInit ++ usesSliceUp)
    (fun s => (s.cpu 0).ctl = .scan 1 ∧ (s.proc 0).ticks 0 = 1) (by decide +kernel)
  exact ⟨s, hx, hticks, total_ticks_eq_sum _ s hx (by decide +kernel) 0
    (betweenSlices_of_scan hctl 0)⟩

/-- A child that is `RUNNABLE` while its parent comes back is counted in `total_ticks`
without having run. -/
theorem total_ticks_counts_waiting : ∃ (s : Kernel 1) (p : Slot), Reached s ∧
    s.betweenSlices p ∧ (s.proc p).state = .RUNNABLE ∧
    (s.proc p).totalTicks ≠ (s.proc p).ticks 0 + (s.proc p).ticks 1 + (s.proc p).ticks 2 := by
  obtain ⟨s, hx, hctl, hrun, hne⟩ := exists_run (switchToInit ++ forkSucceeds ++ usesSliceUp)
    (fun s => (s.cpu 0).ctl = .scan 1 ∧ (s.proc 1).state = .RUNNABLE ∧
      (s.proc 1).totalTicks ≠ (s.proc 1).ticks 0 + (s.proc 1).ticks 1 + (s.proc 1).ticks 2)
    (by decide +kernel)
  exact ⟨s, 1, ⟨_, hx⟩, betweenSlices_of_scan hctl 1, hrun, hne⟩

end Xv6Mlfq
