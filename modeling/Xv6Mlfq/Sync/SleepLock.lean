import Xv6Mlfq.Sched.Membership
import Xv6Mlfq.Sync.Sleep

/-!
# Sleep-locks

A sleep-lock is a word `locked` under a spinlock, and `acquiresleep` and `releasesleep` are the
two loops of `Sleep` for the condition `!locked`.  Here they run in the kernel, for any number of
processes.  `holds p` records that `p` has set `locked` in `acquiresleep` and has not cleared it
in `releasesleep`; only a process that holds the lock calls `releasesleep`, which is what
`holdingsleep` is for.

## Main results

* `sleeplock_refines` — the code uses the condition as a lock, in the sense of `Monitor.Use`.
* `no_lost_wakeup` — nobody sleeps while the condition holds, and a sleep-lock has one holder.
-/

namespace Xv6Mlfq

open Function (update)
open Kernel Sync

variable {n : ℕ}

/-- `struct sleeplock`, without its spinlock and its name. -/
@[ext] structure SleepLock where
  locked : Bool
  pid : ℤ
  deriving DecidableEq, Repr

def initsleeplock : SleepLock := ⟨false, 0⟩

/-- What the loop of `acquiresleep` waits for. -/
def SleepLock.free (x : SleepLock) : Bool := !x.locked

/-- The system, and who holds the lock. -/
abbrev SleepSys (n : ℕ) := Sync n Slot SleepLock × (Slot → Bool)

/-- What the code of `acquiresleep` and `releasesleep` writes, and who calls the latter. -/
def sleeplockCode (s : SleepSys n) : SyncLabel n Slot SleepLock → Bool
  | .work c d =>
    (s.1.kernel.current c).any fun f =>
      !s.2 f.p && d = { locked := true, pid := (s.1.kernel.proc f.p).pid }
  | .leave c => (s.1.kernel.current c).any fun f => s.2 f.p
  | .wakerAcquire p => s.2 p
  | .wakerSet _ d => d = { locked := false, pid := 0 }
  | _ => true

def holdsAfter (s : SleepSys n) : SyncLabel n Slot SleepLock → Slot → Bool
  | .work c _ =>
    match s.1.kernel.current c with
    | some f => update s.2 f.p true
    | none => s.2
  | .wakerSet p _ => update s.2 p false
  | _ => s.2

/-- One move, for the sleep-lock at the address `chan`. -/
def sleeplockStep (chan : ℕ) (l : SyncLabel n Slot SleepLock) (s : SleepSys n) :
    Option (SleepSys n) :=
  if sleeplockCode s l then
    (syncStep chan SleepLock.free l s.1).map fun t => (t, holdsAfter s l)
  else none

def sleeplockBoot (n : ℕ) : SleepSys n := (syncBoot n Slot initsleeplock, fun _ => false)

theorem sleeplockStep_eq_some {chan : ℕ} {l : SyncLabel n Slot SleepLock} {s s' : SleepSys n}
    (h : sleeplockStep chan l s = some s') :
    sleeplockCode s l = true ∧ syncStep chan SleepLock.free l s.1 = some s'.1 ∧
      s'.2 = holdsAfter s l := by
  simp only [sleeplockStep] at h
  split_ifs at h with hc
  obtain ⟨t, ht, rfl⟩ := Option.map_eq_some_iff.mp h
  exact ⟨hc, ht, rfl⟩

/-! ## The code uses the condition as a lock -/

/-- **Every move is a use of the lock.** -/
theorem sleeplock_refines {chan : ℕ} {l : SyncLabel n Slot SleepLock} {s s' : SleepSys n}
    (hI : Sync.Inv chan s.1) (h : sleeplockStep chan l s = some s') :
    Monitor.Use SleepLock.free s.1.monitor s.2 s'.1.monitor s'.2 := by
  obtain ⟨s, holds⟩ := s
  obtain ⟨s', holds'⟩ := s'
  obtain ⟨hc, hs, rfl⟩ := sleeplockStep_eq_some h
  have hstep := sync_refines hI hs
  -- the wakers that a step moves on do not hold the lock yet afterwards
  have other : ∀ {p q : Slot} {x : Monitor.Signal}, x ≠ .locked →
      update s.waker p x q = .locked → s.waker q = .locked := by
    intro p q x hx hq
    rw [Function.update_apply] at hq
    split_ifs at hq
    · exact absurd hq hx
    · exact hq
  cases l with
  | work c d =>
    obtain ⟨f, hf, hx, rfl⟩ := step_work hs
    simp only [sleeplockCode, hf, Option.any_some, Bool.and_eq_true, Bool.not_eq_true',
      decide_eq_true_eq] at hc
    obtain ⟨hfree, rfl⟩ := hc
    simp only [holdsAfter, hf]
    exact .take f.p _ (phase_eq hx) hfree rfl
  | wakerAcquire p =>
    obtain ⟨hl, hw, rfl⟩ := step_wakerAcquire hs
    exact .begin p hw hl hc
  | wakerSet p d =>
    obtain ⟨hw, hd, rfl⟩ := step_wakerSet hs
    exact .clear p d hw hd
  | kernel l =>
    obtain ⟨-, k, -, rfl⟩ := step_kernel hs
    exact .keep _ hstep rfl fun _ hw => hw
  | enter c =>
    obtain ⟨f, -, -, -, rfl⟩ := step_enter hs
    exact .keep _ hstep rfl fun _ hw => hw
  | test c =>
    obtain ⟨f, -, rfl⟩ := step_test hs
    exact .keep _ hstep rfl fun _ hw => hw
  | lockTable c =>
    obtain ⟨f, -, -, -, rfl⟩ := step_lockTable hs
    exact .keep _ hstep rfl fun _ hw => hw
  | dropLk c =>
    obtain ⟨f, -, -, -, rfl⟩ := step_dropLk hs
    exact .keep _ hstep rfl fun _ hw => hw
  | setChan c =>
    obtain ⟨f, -, -, -, rfl⟩ := step_setChan hs
    exact .keep _ hstep rfl fun _ hw => hw
  | doze c =>
    obtain ⟨f, -, -, -, rfl⟩ := step_doze hs
    exact .keep _ hstep rfl fun _ hw => hw
  | relock c =>
    obtain ⟨f, -, -, rfl⟩ := step_relock hs
    exact .keep _ hstep rfl fun _ hw => hw
  | leave c =>
    obtain ⟨f, -, rfl⟩ := step_leave hs
    exact .keep _ hstep rfl fun _ hw => hw
  | wakerWakeup p =>
    obtain ⟨-, k, -, rfl⟩ := step_wakerWakeup hs
    exact .keep _ hstep rfl fun q hw => other (x := .done) nofun hw
  | wakerRelease p =>
    obtain ⟨-, rfl⟩ := step_wakerRelease hs
    exact .keep _ hstep rfl fun q hw => other (x := .idle) nofun hw

theorem sleeplock_invariant {chan : ℕ} {s : SleepSys n}
    (h : Transition.Reachable (sleeplockStep chan) (sleeplockBoot n) s) :
    Sync.Inv chan s.1 ∧ Monitor.Inv SleepLock.free s.1.monitor ∧
      Monitor.Exclusive SleepLock.free s.1.monitor s.2 := by
  refine h.invariant (I := fun s : SleepSys n => Sync.Inv chan s.1 ∧
    Monitor.Inv SleepLock.free s.1.monitor ∧ Monitor.Exclusive SleepLock.free s.1.monitor s.2)
    ⟨inv_boot chan _, monitor_inv_boot _ _, ?_⟩ ?_
  · exact ⟨fun _ _ => rfl, nofun, nofun, nofun⟩
  · rintro s l s' ⟨hI, hM, hE⟩ hs
    have huse := sleeplock_refines hI hs
    exact ⟨hI.step (sleeplockStep_eq_some hs).2.1, hM.step huse.step, hE.step hM huse⟩

/-- No wakeup is lost: for every channel and lock and any sleepers and wakers, when the condition
holds and no waker is between making it hold and the end of its `wakeup`, no sleeper is still
`SLEEPING` on the channel.  A sleep-lock has at most one holder, and nobody is asleep in
`acquiresleep` while the lock is free and no `releasesleep` is about to wake. -/
theorem no_lost_wakeup :
    (∀ (n : ℕ) (ω δ : Type) [DecidableEq ω] (chan : ℕ) (cond : δ → Bool) (d : δ)
      (s : Sync n ω δ), Transition.Reachable (syncStep chan cond) (syncBoot n ω d) s →
      cond s.data = true → (∀ w, s.waker w ≠ .set) → ∀ p, s.place p ≠ .out →
      ¬ ((s.kernel.proc p).state = .SLEEPING ∧
        (s.kernel.proc p).chan = some (.addr chan))) ∧
    (∀ (n chan : ℕ) (s : SleepSys n),
      Transition.Reachable (sleeplockStep chan) (sleeplockBoot n) s →
      (∀ p q, s.2 p = true → s.2 q = true → p = q) ∧
      (s.1.data.locked = false → (∀ w, s.1.waker w ≠ .set) →
        ∀ p, s.1.place p ≠ .out → (s.1.kernel.proc p).state ≠ .SLEEPING)) := by
  constructor
  · intro n ω δ _ chan cond d s h hc hw p hp hs
    obtain ⟨hI, hM⟩ := inv_of_reachable h
    exact not_sleeping hI hM hc hw hp hs.1
  · intro n chan s h
    obtain ⟨hI, hM, hE⟩ := sleeplock_invariant h
    refine ⟨hE.one, fun hfree hw p hp => ?_⟩
    exact not_sleeping hI hM (by simp [SleepLock.free, hfree]) hw hp

/-- Init sleeps and the scheduler finds nobody to run. -/
def initSleeps : List (SyncLabel 1 Unit Bool) :=
  switchToInit.map .kernel ++
    [.enter 0, .test 0, .lockTable 0, .dropLk 0, .setChan 0, .doze 0, .kernel (.back 0),
      .kernel (.loop 0)] ++ List.replicate 64 (.kernel (.scan 0))

/-- Init sleeps, a waker wakes it, and it is awake with the condition true; and init holds a
sleep-lock, alone. -/
theorem no_lost_wakeup_init :
    (∃ s : Sync 1 Unit Bool, s.data = true ∧ s.waker () = .done ∧ s.place 0 = .sched ∧
      ¬ ((s.kernel.proc 0).state = .SLEEPING ∧ (s.kernel.proc 0).chan = some (.addr 7))) ∧
    ∃ s : SleepSys 1, s.2 0 = true ∧ ∀ q, s.2 q = true → 0 = q := by
  constructor
  · have hrun : ∃ s : Sync 1 Unit Bool,
        Transition.exec (syncStep 7 id)
          (initSleeps ++ [.wakerAcquire (), .wakerSet () true, .wakerWakeup ()])
          (syncBoot 1 Unit false) = some s ∧
        (s.data = true ∧ s.waker () = .done ∧ s.place 0 = .sched) :=
      Transition.exists_exec _ _ (by decide +kernel)
    obtain ⟨s, hx, hd, hw, hp⟩ := hrun
    refine ⟨s, hd, hw, hp, ?_⟩
    exact no_lost_wakeup.1 1 Unit Bool 7 id false s ⟨_, hx⟩ hd (fun w => by simp [hw]) 0
      (by simp [hp])
  · have hrun : ∃ s : SleepSys 1,
        Transition.exec (sleeplockStep 7)
          (switchToInit.map .kernel ++ [.enter 0, .test 0, .work 0 ⟨true, 1⟩, .leave 0])
          (sleeplockBoot 1) = some s ∧ s.2 0 = true :=
      Transition.exists_exec _ _ (by decide +kernel)
    obtain ⟨s, hx, hh⟩ := hrun
    exact ⟨s, hh, fun q hq => (no_lost_wakeup.2 1 7 s ⟨_, hx⟩).1 0 q hh hq⟩

end Xv6Mlfq
