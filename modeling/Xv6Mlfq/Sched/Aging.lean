import Xv6Mlfq.Proc.Accounting
import Xv6Mlfq.Sched.Membership

/-!
# Aging

The design promises that a process which has waited at the lowest level for 50 ticks is
boosted to `q0`.  The code counts something else: `Ticks` of the process that has just
*run*.  To state the promise, the system is given a history variable `waited`, the number
of consecutive ticks (calls of `updatePstat`) in which a process was `RUNNABLE` at
priority 2 and some other process had the CPU.

## Main definitions

* `waited` — the history variable.
* `boosts` — the process to which a step applies `boost`.
* `Aged` — the promise, about one step.
-/

namespace Xv6Mlfq

open Transition (exec observed)

variable {n : ℕ}

/-- The process to which a step applies `boost`. -/
def Kernel.boosts (s : Kernel n) : Label n → Option Slot
  | .loop c =>
    match (s.cpu c).ctl with
    | .slice f =>
      if ¬ s.sliceGoesOn f ∧ (s.proc f.p).state = .RUNNABLE ∧ (s.proc f.p).priority = 2 ∧
        50 ≤ (s.proc f.p).Ticks then some f.p else none
    | _ => none
  | _ => none

/-- For how many ticks in a row each process has been waiting at priority 2, after a step.
Being dispatched ends the wait, and so does a tick in which the process is not
`RUNNABLE` at priority 2. -/
def waited (s : Kernel n) (l : Label n) (w : Slot → ℕ) (r : Slot) : ℕ :=
  match l with
  | .loop c =>
    match (s.cpu c).ctl with
    | .slice f => if r = f.p then 0 else w r
    | _ => w r
  | .back c =>
    match (s.cpu c).ctl with
    | .returned f =>
      if r ≠ f.p ∧ (s.proc r).state = .RUNNABLE ∧ (s.proc r).priority = 2 then w r + 1
      else 0
    | _ => w r
  | _ => w r

/-- What aging promises of the step `l`: when a slice starts, a process that has waited for
50 ticks is back at priority 0, and a process is only boosted if it has waited so long. -/
structure Aged (s : Kernel n) (w : Slot → ℕ) (l : Label n) : Prop where
  inTime : s.startsSlice l ≠ none → ∀ r, 50 ≤ w r → (s.proc r).priority = 0
  onlyThen : ∀ p, s.boosts l = some p → 50 ≤ w p

/-! ## `wait_time` bounds the wait -/

/-- `wait_time` never decreases. -/
theorem step_waitTime_le {s s' : Kernel n} {l : Label n} (h : step l s = some s') (r : Slot) :
    (s.proc r).waitTime ≤ (s'.proc r).waitTime := by
  cases step_effect h with
  | quiet _ _ hq => rw [hq.pstat]
  | start c p hc hp => simp [Kernel.startSlice]
  | skip c i hc => simp
  | dispatch c f hc hg =>
    obtain ⟨a, he⟩ := s.dispatch_pstat c f r
    rw [Kernel.setCtl_proc, he]
  | back c f hc =>
    rw [Kernel.setCtl_proc, Kernel.afterSwtch_waitTime]
    split_ifs <;> omega
  | finish c f hc hg => simp
  | claim c f np hc hl hn =>
    obtain ⟨k, u, T, he⟩ := s.claimSlot_pstat np r
    rw [Kernel.setForking_pstat, he]

/-- The step does not end a slice by `boost`, and it is not the return from a process
while some other process has been counted 49 times as waiting at priority 2. -/
def Kernel.agingSpared (s : Kernel n) : Label n → Bool
  | .loop c => (s.boosts (.loop c)).isNone
  | .back c =>
    match (s.cpu c).ctl with
    | .returned f => decide (∀ r, r ≠ f.p → (s.proc r).state = .RUNNABLE →
        (s.proc r).priority = 2 → (s.proc r).waitTime < 49)
    | _ => true
  | _ => true

theorem boosts_of_agingSpared {s : Kernel n} {l : Label n} (h : s.agingSpared l = true) :
    s.boosts l = none := by
  cases l with
  | loop c => exact Option.isNone_iff_eq_none.mp h
  | _ => rfl

/-- The wait of a process is at most what the code has counted for it, and short. -/
structure WaitsShort (s : Kernel n) (w : Slot → ℕ) : Prop where
  counted : ∀ r, (w r : ℤ) ≤ (s.proc r).waitTime
  short : ∀ r, w r < 50

theorem waitsShort_boot : WaitsShort (boot n) fun _ => 0 where
  counted r := by
    by_cases hr : r = 0
    · subst hr; rfl
    · rw [boot_proc_ne hr]; rfl
  short _ := by omega

/-- A wait that a step continues was below the limit before. -/
theorem waited_cases (s : Kernel n) (l : Label n) (w : Slot → ℕ) (r : Slot) :
    waited s l w r = w r ∨ waited s l w r = 0 ∨
    ∃ c f, l = .back c ∧ (s.cpu c).ctl = .returned f ∧ r ≠ f.p ∧
      (s.proc r).state = .RUNNABLE ∧ (s.proc r).priority = 2 ∧ waited s l w r = w r + 1 := by
  cases l with
  | loop c =>
    simp only [waited]
    split
    · split_ifs
      · exact .inr (.inl rfl)
      · exact .inl rfl
    · exact .inl rfl
  | back c =>
    simp only [waited]
    split
    case h_1 f hc =>
      split_ifs with h
      · exact .inr (.inr ⟨c, f, rfl, hc, h.1, h.2.1, h.2.2, rfl⟩)
      · exact .inr (.inl rfl)
    case h_2 => exact .inl rfl
  | _ => exact .inl rfl

theorem WaitsShort.step {s s' : Kernel n} {l : Label n} {w : Slot → ℕ} (h : WaitsShort s w)
    (hs : step l s = some s') (hC : s.agingSpared l = true) : WaitsShort s' (waited s l w) := by
  constructor
  · intro r
    have hr := h.counted r
    have hr' := step_waitTime_le hs r
    rcases waited_cases s l w r with he | he | ⟨c, f, rfl, hc, hne, hst, hpr, he⟩
    · rw [he]
      omega
    · rw [he]
      omega
    · obtain ⟨g, -, rfl⟩ := step_back hs
      rw [he, Kernel.setCtl_proc, Kernel.afterSwtch_waitTime, if_pos ⟨hst, hpr⟩]
      omega
  · intro r
    have hr := h.counted r
    rcases waited_cases s l w r with he | he | ⟨c, f, rfl, hc, hne, hst, hpr, he⟩
    · rw [he]
      exact h.short r
    · rw [he]
      omega
    · have hall : ∀ r, r ≠ f.p → (s.proc r).state = .RUNNABLE → (s.proc r).priority = 2 →
          (s.proc r).waitTime < 49 := by simpa [Kernel.agingSpared, hc] using hC
      have hlt := hall r hne hst hpr
      rw [he]
      omega

/-- **Aging keeps its promise** in a run in which nobody is boosted and, whenever the
scheduler gets a CPU back, every other process that is `RUNNABLE` at priority 2 has a
`wait_time` below 49. -/
theorem aging_kept (ls : List (Label n))
    (hC : Transition.Along step (fun s l => s.agingSpared l = true) ls (boot n)) :
    Transition.Along (observed step waited) (fun sw l => Aged sw.1 sw.2 l) ls
      (boot n, fun _ => 0) := by
  refine Transition.along_of_invariant (I := fun sw => WaitsShort sw.1 sw.2)
    (Transition.along_observed waited (fun _ => 0) hC) waitsShort_boot ?_ ?_
  · intro sw l sw' hi hc hs
    obtain ⟨hs, hw⟩ := Transition.observed_some.mp hs
    rw [hw]
    exact hi.step hs hc
  · intro sw l hi hc
    refine ⟨fun _ r hr => absurd hr (not_le.mpr (hi.short r)), fun p hp => ?_⟩
    rw [boosts_of_agingSpared hc] at hp
    cases hp

/-! A run of one CPU with init alone, which never sleeps. -/

/-- `scheduler` starts a slice on init and dispatches it `k` times. -/
def initSlice (k : ℕ) : List (Label 1) :=
  [.acquire 0, .scan 0] ++ dispatches k

/-- The slice ends and the loop over the table goes on to its end. -/
def sliceOver : List (Label 1) := .loop 0 :: List.replicate 64 (.scan 0)

theorem aging_kept_first_slice :
    Transition.Along (observed step waited) (fun sw l => Aged sw.1 sw.2 l)
      (initSlice 1 ++ sliceOver ++ initSlice 2) (boot 1, fun _ => 0) :=
  aging_kept _ (by decide +kernel)

/-- One slice at priority 0, one at priority 1 and seven at priority 2. -/
def nineSlices : List (Label 1) :=
  initSlice 1 ++ sliceOver ++ (initSlice 2 ++ sliceOver) ++
    (List.replicate 6 (initSlice 8 ++ sliceOver)).flatten ++ initSlice 8

set_option maxRecDepth 1000000 in
/-- Init is boosted after its seventh slice at priority 2, without ever having waited. -/
theorem boosted_without_waiting : ∃ (s : Kernel 1) (w : Slot → ℕ),
    exec (observed step waited) nineSlices (boot 1, fun _ => 0) = some (s, w) ∧
      ¬ Aged s w (.loop 0) := by
  have hrun : (exec (observed step waited) nineSlices (boot 1, fun _ => 0)).any
      (fun sw => decide (sw.1.boosts (.loop 0) = some 0 ∧ sw.2 0 < 50)) = true := by
    decide +kernel
  obtain ⟨⟨s, w⟩, hx, hb, hw⟩ := Transition.exists_exec nineSlices _ hrun
  have hlt : w 0 < 50 := hw
  exact ⟨s, w, hx, fun h => absurd (h.onlyThen 0 hb) (by omega)⟩

end Xv6Mlfq
