import Xv6Mlfq.Sched.Handoff

/-!
# One pass over the process table

`scheduler` takes `ptable.lock` and walks the table slot by slot.  At every slot it asks
`returnProc` for the process to run, which brings that process to the front of its queue,
and starts a slice only if the answer is the process of this very slot.  It then asks
`returnQueue` once more for the queue whose quantum the slice gets.

The walk meets its target because the target stands still: while a CPU scans it holds the
lock, nobody else touches a queue or makes a process `RUNNABLE`, and the exchange made by
`returnProc` puts the process it returned where the next call finds it first.  So the
process chosen at slot 0 is chosen at every slot up to its own.

## Main definitions

* `Kernel.Chosen s k p` — `p` is the first `RUNNABLE` entry of the lowest-numbered queue
  that has one, and `k` is that queue.
* `Kernel.Scanning c i s` — CPU `c` holds the lock and is at slot `i` of its pass.
* `pass_work_conserving` — what a pass starts slices on, and when it starts none.
-/

namespace Xv6Mlfq

open Transition

variable {n : ℕ}

namespace Kernel

/-! ## The process to run -/

/-- The first `RUNNABLE` entry of a queue. -/
def firstRunnable (s : Kernel n) (k : Level) : Option (Option Slot) :=
  (s.q k).entries.find? s.isRunnable

/-- `p` is the first `RUNNABLE` entry of queue `k`, and the queues before `k` have none. -/
structure Chosen (s : Kernel n) (k : Level) (p : Slot) : Prop where
  above : ∀ j < k, s.firstRunnable j = none
  first : s.firstRunnable k = some (some p)

/-- Every queue counts its processes right. -/
def Counted (s : Kernel n) : Prop := ∀ k, (s.q k).numOfProc = (s.q k).endIdx

variable {s s' : Kernel n} {k : Level} {p : Slot} {l : Label n} {c : Fin n} {i : ℕ}

theorem firstRunnable_congr {t : Kernel n} (hq : t.q = s.q)
    (hr : ∀ p, (t.proc p).state = .RUNNABLE ↔ (s.proc p).state = .RUNNABLE) (k : Level) :
    t.firstRunnable k = s.firstRunnable k := by
  have htest : t.isRunnable = s.isRunnable := by
    funext e
    cases e with
    | none => rfl
    | some p => simp only [isRunnable, hr p]
  rw [firstRunnable, firstRunnable, hq, htest]

theorem Counted.hasRunnable_eq (hs : s.Counted) (k : Level) :
    s.hasRunnable k = (s.firstRunnable k).isSome := by
  rw [Bool.eq_iff_iff, s.hasRunnable_iff k (hs k), firstRunnable, List.find?_isSome]

/-- `returnQueue` names the lowest-numbered queue with a `RUNNABLE` entry. -/
theorem returnQueue_eq (habove : ∀ j < k, s.hasRunnable j = false)
    (hk : s.hasRunnable k = true) : s.returnQueue = k := by
  match k with
  | 0 => rw [returnQueue, if_pos hk]
  | 1 =>
    have h₀ := habove 0 (by decide)
    rw [returnQueue, h₀, if_neg Bool.false_ne_true, if_pos hk]
  | 2 =>
    have h₀ := habove 0 (by decide)
    have h₁ := habove 1 (by decide)
    rw [returnQueue, h₀, h₁, if_neg Bool.false_ne_true, if_neg Bool.false_ne_true, if_pos hk]

theorem Chosen.returnQueue (h : s.Chosen k p) (hs : s.Counted) : s.returnQueue = k := by
  apply returnQueue_eq
  · intro j hj
    rw [hs.hasRunnable_eq, h.above j hj]
    rfl
  · rw [hs.hasRunnable_eq, h.first]
    rfl

/-- What `returnProc` returns is the first `RUNNABLE` entry of the queue it looks in. -/
theorem firstRunnable_of_returnProc (h : s.returnProc.1 = some p) :
    s.firstRunnable s.returnQueue = some (some p) := by
  rcases s.returnProc_cases with ⟨-, us, he⟩ | ⟨us, r, l₁, l₂, he, hent, hr, hno⟩
  · rw [he] at h
    cases h
  · rw [he] at h
    cases h
    rw [firstRunnable, List.find?_eq_some_iff_append]
    refine ⟨by simp [isRunnable, hr], l₁, l₂, hent, ?_⟩
    intro e he
    simp [hno e he]

theorem Chosen.returnProc (h : s.Chosen k p) (hs : s.Counted) : s.returnProc.1 = some p := by
  have hq := h.returnQueue hs
  have hhas : s.hasRunnable s.returnQueue = true := by
    rw [hs.hasRunnable_eq, hq, h.first]
    rfl
  rcases s.returnProc_cases with ⟨hno, -⟩ | ⟨us, r, l₁, l₂, he, -⟩
  · rw [hhas] at hno
    cases hno
  · have hr : s.returnProc.1 = some r := by rw [he]
    have hfirst := firstRunnable_of_returnProc hr
    rw [hq, h.first] at hfirst
    rw [hr, Option.some.inj hfirst]

theorem hasRunnable_of_lt_returnQueue {j : Level} (h : j < s.returnQueue) :
    s.hasRunnable j = false := by
  by_contra hj
  rw [Bool.not_eq_false] at hj
  have hle : ¬ j < s.returnQueue := by
    simp only [Kernel.returnQueue]
    have hlevel : ∀ k : Level, k = 0 ∨ k = 1 ∨ k = 2 := by decide
    rcases hlevel j with rfl | rfl | rfl
    · simp [hj]
    · split_ifs <;> decide
    · split_ifs <;> decide
  exact hle h

/-- Only the chosen process is returned. -/
theorem chosen_of_returnProc (hs : s.Counted)
    (h : s.returnProc.1 = some p) : s.Chosen s.returnQueue p := by
  refine ⟨?_, firstRunnable_of_returnProc h⟩
  intro j hj
  have hno := hasRunnable_of_lt_returnQueue hj
  rwa [hs.hasRunnable_eq, Option.isSome_eq_false_iff, Option.isNone_iff_eq_none] at hno

/-- Nothing is returned when nothing is `RUNNABLE`. -/
theorem returnProc_of_none (h : ∀ k, s.firstRunnable k = none) : s.returnProc.1 = none := by
  cases hr : s.returnProc.1 with
  | none => rfl
  | some p =>
    have hfirst := firstRunnable_of_returnProc hr
    rw [h] at hfirst
    cases hfirst

theorem returnProc_q_of_none (h : s.returnProc.1 = none) : s.returnProc.2.q = s.q := by
  rcases s.returnProc_cases with ⟨-, us, he⟩ | ⟨us, r, l₁, l₂, he, -⟩
  · rw [he]
    rfl
  · rw [he] at h
    cases h

/-- The exchange leaves the choice as it is. -/
theorem Chosen.after_returnProc (h : s.Chosen k p)
    (hs : s.Counted) : s.returnProc.2.Chosen k p := by
  have hq := h.returnQueue hs
  have hp := h.returnProc hs
  rcases s.returnProc_cases with ⟨-, us, he⟩ | ⟨us, r, l₁, l₂, he, hent, hr, hno⟩
  · rw [he] at hp
    cases hp
  · rw [he] at hp
    cases hp
    rw [hq] at he hent
    rw [he]
    constructor
    · intro j hj
      have hj' : j ≠ k := Fin.ne_of_lt hj
      have hsame : (s.setQ k { s.q k with
          queue := (s.q k).queue.swapFirst l₁.length }).q j = s.q j := by simp [hj']
      rw [← h.above j hj]
      exact congrArg (fun pq : PQueue => pq.entries.find? s.isRunnable) hsame
    · -- the process is at index 0 now, and the search starts there
      have hend : (l₁.length : ℤ) < (s.q k).endIdx := by
        have hlen := congrArg List.length hent
        rw [PQueue.entries, CArray.length_window, List.length_append, List.length_cons] at hlen
        omega
      have hget : (s.q k).queue.get l₁.length = some p := by
        have hat := CArray.getElem?_window (s.q k).queue (s.q k).endIdx l₁.length
        rw [if_pos hend, ← PQueue.entries, hent] at hat
        simpa using hat.symm
      have hhead : ((s.q k).queue.swapFirst l₁.length).get 0 = some p := by
        rw [CArray.swapFirst, CArray.get_set_self _ _ le_rfl (by decide), hget]
      have hat := CArray.getElem?_window ((s.q k).queue.swapFirst l₁.length) (s.q k).endIdx 0
      rw [Nat.cast_zero, if_pos (by omega), hhead] at hat
      obtain ⟨m, hm⟩ : ∃ m, ((s.q k).queue.swapFirst l₁.length).window (s.q k).endIdx =
          some p :: m := by
        rw [← List.head?_eq_getElem?] at hat
        exact List.head?_eq_some_iff.mp hat
      simp [firstRunnable, PQueue.entries, hm, isRunnable, hr]

/-! ## The counts of the queues -/

theorem Counted.of_q {t : Kernel n} (h : s.Counted) (hq : t.q = s.q) : t.Counted := by
  intro k
  rw [hq]
  exact h k

theorem Counted.addQueue (h : s.Counted) (k : Level) (p : Slot) : (s.addQueue k p).Counted := by
  intro j
  by_cases hj : j = k
  · subst hj
    simp [Kernel.addQueue, h j]
  · rw [addQueue_q_ne _ _ hj]
    exact h j

theorem Counted.deleteQueue (h : s.Counted) (k : Level) (p : Slot) :
    (s.deleteQueue k p).Counted := by
  intro j
  by_cases hj : j = k
  · subst hj
    simp [Kernel.deleteQueue, h j]
  · rw [deleteQueue_q_ne _ _ hj]
    exact h j

theorem Counted.returnProc (h : s.Counted) : s.returnProc.2.Counted := by
  intro k
  obtain ⟨a, he⟩ := s.returnProc_q k
  rw [he]
  exact h k

theorem Counted.modify (h : s.Counted) (p : Slot) (g : Proc → Proc) : (s.modify p g).Counted := h

theorem Counted.degrade (h : s.Counted) (k : Level) (p : Slot) : (s.degrade k p).Counted := by
  simp only [Kernel.degrade]
  split_ifs
  · exact (h.deleteQueue 0 p).addQueue 1 p
  · exact (h.deleteQueue 1 p).addQueue 2 p
  · exact h

theorem Counted.boost (h : s.Counted) (p : Slot) : (s.boost p).Counted :=
  ((h.deleteQueue 2 p).addQueue 0 p).of_q rfl

theorem Counted.sliceEnd (h : s.Counted) (f : Frame) : (s.sliceEnd f).Counted := by
  simp only [Kernel.sliceEnd]
  split_ifs
  · exact ((h.modify _ _).modify _ _).degrade _ _
  · exact ((h.modify _ _).modify _ _).boost _
  · exact (((h.modify _ _).modify _ _).deleteQueue _ _).addQueue _ _
  · exact h.modify _ _

theorem Counted.claimSlot (h : s.Counted) (p : Slot) : (s.claimSlot p).Counted := by
  simp only [Kernel.claimSlot]
  split_ifs
  · have hd := ((h.deleteQueue 0 p).deleteQueue 0 p).deleteQueue 0 p
    exact (hd.addQueue 0 p).of_q rfl
  · exact (h.addQueue 0 p).of_q rfl

/-- Every step keeps the counts right, even one that writes past the end of a queue. -/
theorem Counted.step (h : s.Counted) (hs : step l s = some s') : s'.Counted := by
  cases step_effect hs with
  | quiet _ _ hq => exact h.of_q hq.q
  | start c p hc hp => exact h.returnProc
  | skip c i hc => exact h.returnProc
  | dispatch c f hc hg => exact h.of_q (dispatch_q s c f)
  | back c f hc => exact h.of_q (afterSwtch_q s c f)
  | finish c f hc hg => exact h.sliceEnd f
  | claim c f np hc hl hn => exact h.claimSlot np

/-! ## The scan -/

/-- CPU `c` holds `ptable.lock` and is at slot `i` of its pass; the other CPUs are not
between `acquire` and `release`, and the slot one of them fills in a `fork` is not
`RUNNABLE` yet.  With one CPU the last condition says nothing. -/
structure Scanning (c : Fin n) (i : ℕ) (s : Kernel n) : Prop where
  lock : s.lock = some c
  ctl : (s.cpu c).ctl = .scan i
  others : ∀ d, d ≠ c → (s.cpu d).ctl = .idle ∨ ∃ f, (s.cpu d).ctl = .running f ∧
    ∀ a np, (s.proc f.p).forking = some (a, np) → (s.proc np).state ≠ .RUNNABLE

/-- Nothing a scan depends on changes. -/
structure Still (s t : Kernel n) : Prop where
  q : t.q = s.q
  runnable : ∀ p, (t.proc p).state = .RUNNABLE ↔ (s.proc p).state = .RUNNABLE

/-- A slot that is not `RUNNABLE` changes, and a `fork` moves on. -/
theorem still_modify {np : Slot} {g : Proc → Proc}
    (hnp : (s.proc np).state ≠ .RUNNABLE) (hg : (g (s.proc np)).state ≠ .RUNNABLE) (r : Slot)
    (x : Option (ForkStage × Slot)) : Still s ((s.modify np g).setForking r x) := by
  refine ⟨rfl, ?_⟩
  intro p
  by_cases hp : p = np
  · subst hp
    simp [hnp, hg]
  · simp [hp]

/-- A `fork` on another CPU goes on while CPU `c` scans. -/
theorem Scanning.fork {d : Fin n} (h : s.Scanning c i) {f : Frame}
    {a : ForkStage} {np : Slot} (hd : (s.cpu d).ctl = .running f) (hdc : d ≠ c)
    (hf : (s.proc f.p).forking = some (a, np)) {g : Proc → Proc}
    (hg : (g (s.proc np)).state = .UNUSED ∨ (g (s.proc np)).state = (s.proc np).state)
    (hgf : (g (s.proc np)).forking = (s.proc np).forking)
    {x : Option (ForkStage × Slot)} (hx : ∀ a' np', x = some (a', np') → np' = np) :
    ((s.modify np g).setForking f.p x).Scanning c i ∧
      Still s ((s.modify np g).setForking f.p x) := by
  have hnp : (s.proc np).state ≠ .RUNNABLE := by
    rcases h.others d hdc with hidle | ⟨f', hd', hno⟩
    · rw [hd] at hidle
      cases hidle
    · rw [hd] at hd'
      cases hd'
      exact hno a np hf
  have hnp' : (g (s.proc np)).state ≠ .RUNNABLE := by
    rcases hg with hg | hg
    · rw [hg]
      decide
    · rw [hg]
      exact hnp
  have hstill := still_modify hnp hnp' f.p x
  refine ⟨⟨h.lock, h.ctl, ?_⟩, hstill⟩
  intro e he
  rcases h.others e he with hidle | ⟨f', he', hno⟩
  · exact .inl hidle
  · refine .inr ⟨f', he', ?_⟩
    intro b nq hb
    rw [Ne, hstill.runnable]
    by_cases hp : f'.p = f.p
    · have hx' : x = some (b, nq) := by simpa [setForking, hp] using hb
      rw [hx b nq hx']
      exact hnp
    · have hb' : (s.proc f'.p).forking = some (b, nq) := by
        by_cases hnq : f'.p = np
        · rw [hnq] at hb hp ⊢
          simpa [setForking, hp, hgf] using hb
        · simpa [setForking, hp, hnq] using hb
      exact hno b nq hb'

/-- A CPU is where it scans, outside the loop, or running a process. -/
theorem Scanning.ctl_cases (h : s.Scanning c i) (d : Fin n) :
    d = c ∧ (s.cpu d).ctl = .scan i ∨ d ≠ c ∧ (s.cpu d).ctl = .idle ∨
      d ≠ c ∧ ∃ f, (s.cpu d).ctl = .running f := by
  by_cases hd : d = c
  · subst hd
    exact .inl ⟨rfl, h.ctl⟩
  · rcases h.others d hd with hidle | ⟨f, hf, -⟩
    · exact .inr (.inl ⟨hd, hidle⟩)
    · exact .inr (.inr ⟨hd, f, hf⟩)

/-- While CPU `c` scans, the other CPUs leave the queues and the `RUNNABLE` processes
alone. -/
theorem Scanning.other (h : s.Scanning c i) (hs : step l s = some s') (hl : l ≠ .scan c) :
    s'.Scanning c i ∧ Still s s' := by
  have hlock : s.lock ≠ none := by
    rw [h.lock]
    exact Option.some_ne_none c
  cases l with
  | acquire d => exact absurd (step_acquire hs).1 hlock
  | scan d =>
    obtain ⟨j, hd, -⟩ := step_scan hs
    rcases h.ctl_cases d with ⟨rfl, -⟩ | ⟨-, hc⟩ | ⟨-, f, hc⟩
    · exact absurd rfl hl
    · simp [hd] at hc
    · simp [hd] at hc
  | loop d =>
    obtain ⟨g, hd, -⟩ := step_loop hs
    rcases h.ctl_cases d with ⟨-, hc⟩ | ⟨-, hc⟩ | ⟨-, f, hc⟩ <;> simp [hd] at hc
  | resume d =>
    obtain ⟨g, hd, hl', -⟩ := step_resume hs
    obtain rfl : c = d := Option.some.inj (h.lock.symm.trans hl')
    simp [h.ctl] at hd
  | back d =>
    obtain ⟨g, hd, -⟩ := step_back hs
    rcases h.ctl_cases d with ⟨-, hc⟩ | ⟨-, hc⟩ | ⟨-, f, hc⟩ <;> simp [hd] at hc
  | yield d =>
    obtain ⟨f, -, hfree, -⟩ := step_yield hs
    exact absurd hfree hlock
  | sleep d chan =>
    obtain ⟨f, -, hfree, -⟩ := step_sleep hs
    exact absurd hfree hlock
  | exit d =>
    obtain ⟨f, -, hfree, -⟩ := step_exit hs
    exact absurd hfree hlock
  | wait d =>
    obtain ⟨f, -, hfree, -⟩ := step_wait hs
    exact absurd hfree hlock
  | kill d pid =>
    obtain ⟨f, -, hfree, -⟩ := step_kill hs
    exact absurd hfree hlock
  | fault d =>
    obtain ⟨f, -, -, rfl⟩ := step_fault hs
    refine ⟨⟨h.lock, h.ctl, ?_⟩, rfl, ?_⟩
    · simp only [fault_life]
      exact h.others
    · simp only [fault_life, implies_true]
  | forkAlloc d =>
    obtain ⟨f, -, hfree, -⟩ := step_forkAlloc hs
    exact absurd hfree hlock
  | forkStack d kalloc =>
    obtain ⟨f, np, hd, hdl, hf, rfl⟩ := step_forkStack hs
    have hdc : d ≠ c := fun he => hdl (he ▸ h.lock)
    cases kalloc with
    | true =>
      rw [giveStack_true]
      apply h.fork hd hdc hf (.inr rfl) rfl
      intro a' np' hx
      cases hx
      rfl
    | false =>
      rw [giveStack_false]
      apply h.fork hd hdc hf (.inl rfl) rfl
      intro a' np' hx
      cases hx
  | forkCopy d setupkvm pages =>
    obtain ⟨f, np, hd, hdl, hf, rfl⟩ := step_forkCopy hs
    have hdc : d ≠ c := fun he => hdl (he ▸ h.lock)
    split_ifs
    · rw [copyProc]
      apply h.fork hd hdc hf (.inr rfl) rfl
      intro a' np' hx
      cases hx
      rfl
    · rw [setState]
      apply h.fork hd hdc hf (.inl rfl) rfl
      intro a' np' hx
      cases hx
  | forkRun d =>
    obtain ⟨f, np, -, hfree, -⟩ := step_forkRun hs
    exact absurd hfree hlock
  | wakeup chan => exact absurd (step_wakeup hs).1 hlock
  | tick =>
    obtain ⟨-, rfl⟩ := step_tick hs
    exact ⟨⟨h.lock, h.ctl, h.others⟩, ⟨rfl, fun _ => Iff.rfl⟩⟩

/-- The next slot. -/
theorem Scanning.skip (h : s.Scanning c i) :
    (s.returnProc.2.setCtl c (.scan (i + 1))).Scanning c (i + 1) := by
  refine ⟨by simpa using h.lock, by simp, ?_⟩
  intro d hd
  simpa [hd] using h.others d hd

theorem startsSlice_scan (hc : (s.cpu c).ctl = .scan i)
    (hp : s.returnProc.1 = some p) (hpi : p.val = i) :
    s.startsSlice (.scan c) = some p := by
  simp [startsSlice, hc, hp, hpi]

/-- One slot of the pass, on the way to the chosen process. -/
theorem Scanning.toward (h : s.Scanning c i) (hs : s.Counted) (hp : s.Chosen k p) (hi : i ≤ p)
    (hstep : step (.scan c) s = some s') (hno : s.startsSlice (.scan c) = none) :
    s'.Scanning c (i + 1) ∧ s'.Chosen k p ∧ i + 1 ≤ p := by
  have hret := hp.returnProc hs
  have hne : p.val ≠ i := by
    intro he
    rw [startsSlice_scan h.ctl hret he] at hno
    cases hno
  obtain ⟨j, hj, hcase⟩ := step_scan hstep
  obtain rfl : i = j := by simpa [h.ctl] using hj
  rcases hcase with ⟨r, hri, hr, -⟩ | ⟨-, rfl⟩ | ⟨hend, -⟩
  · rw [hret] at hr
    cases hr
    exact absurd hri hne
  · exact ⟨h.skip, ⟨(hp.after_returnProc hs).above, (hp.after_returnProc hs).first⟩, by omega⟩
  · have hlt := p.isLt
    omega

/-- One slot of a pass that finds nothing to run. -/
theorem Scanning.pastEmpty (h : s.Scanning c i)
    (hnone : ∀ k, s.firstRunnable k = none) (hstep : step (.scan c) s = some s') :
    (s'.cpu c).ctl = .idle ∨
      s'.Scanning c (i + 1) ∧ ∀ k, s'.firstRunnable k = none := by
  have hret := returnProc_of_none hnone
  obtain ⟨j, hj, hcase⟩ := step_scan hstep
  obtain rfl : i = j := by simpa [h.ctl] using hj
  rcases hcase with ⟨r, -, hr, -⟩ | ⟨-, rfl⟩ | ⟨-, rfl⟩
  · rw [hret] at hr
    cases hr
  · refine .inr ⟨h.skip, ?_⟩
    intro k
    rw [← hnone k]
    exact firstRunnable_congr (returnProc_q_of_none hret) (by simp) k
  · exact .inl (by simp)

/-! ## The pass -/

/-- The process on which CPU `c` starts a slice. -/
def startsSliceOn (c : Fin n) (s : Kernel n) (l : Label n) : Option Slot :=
  if l = .scan c then s.startsSlice l else none

theorem startsSliceOn_eq_some (h : startsSliceOn c s l = some p) :
    l = .scan c ∧ (s.cpu c).ctl = .scan p ∧ s.returnProc.1 = some p := by
  rw [startsSliceOn] at h
  split_ifs at h with hl
  subst hl
  simp only [startsSlice] at h
  split at h
  case h_1 i hc =>
    obtain ⟨hp, hi⟩ := Option.filter_eq_some_iff.mp h
    refine ⟨rfl, ?_, hp⟩
    rw [hc, of_decide_eq_true hi]
  case h_2 => cases h

/-- The queue that the slice takes its quantum from is the one the process was found in. -/
theorem chosen_of_startsSliceOn (hs : s.Counted)
    (h : startsSliceOn c s l = some p) (hstep : step l s = some s') :
    s.Chosen s.returnQueue p ∧
      (s'.cpu c).ctl = .slice ⟨p, s.returnQueue, (s.proc p).priority, 0⟩ := by
  obtain ⟨rfl, hc, hp⟩ := startsSliceOn_eq_some h
  have hch := chosen_of_returnProc hs hp
  refine ⟨hch, ?_⟩
  have hq := (hch.after_returnProc hs).returnQueue hs.returnProc
  have hgo : s' = s.returnProc.2.startSlice c p := by
    simpa [step, hc, hp] using hstep.symm
  rw [hgo, startSlice, hq]
  simp

theorem exists_chosen (hs : s.Counted)
    (h : (s.firstRunnable k).isSome = true) : ∃ j p, s.Chosen j p := by
  rw [← hs.hasRunnable_eq] at h
  rcases s.returnProc_cases with ⟨hno, -⟩ | ⟨us, p, l₁, l₂, he, -⟩
  · rw [hasRunnable_returnQueue h] at hno
    cases hno
  · exact ⟨_, p, chosen_of_returnProc hs (by rw [he])⟩

end Kernel

open Kernel

variable {s : Kernel n} {c : Fin n}

/-- In a state the kernel can reach, a CPU that scans does so alone. -/
theorem Reached.scanning (h : Reached s) {i : ℕ}
    (hc : (s.cpu c).ctl = .scan i) : s.Scanning c i := by
  have hi := h.handoff
  have hlock : s.lock = some c := by
    apply hi.held c
    rw [Handoff.view_phase hc]
    trivial
  have alone : ∀ d, d ≠ c → ¬ ((Handoff.view s).phase d).inScheduler := by
    intro d hd hin
    exact hd (Option.some.inj ((hi.held d hin).symm.trans hlock))
  refine ⟨hlock, hc, ?_⟩
  intro d hd
  have hout := alone d hd
  cases hx : (s.cpu d).ctl with
  | idle => exact .inl rfl
  | scan j =>
    rw [Handoff.view_phase hx] at hout
    exact absurd trivial hout
  | slice f =>
    rw [Handoff.view_phase hx] at hout
    exact absurd trivial hout
  | returned f =>
    rw [Handoff.view_phase hx] at hout
    exact absurd trivial hout
  | running f =>
    refine .inr ⟨f, rfl, ?_⟩
    intro a np hf
    have hst : (s.proc np).state = .EMBRYO := hi.embryo f.p np (by simp [Handoff.view, hf])
    rw [hst]
    decide

/-- The slices that CPU `c` starts in a run. -/
def slicesOf (c : Fin n) (ls : List (Label n)) (s : Kernel n) : List Slot :=
  trace step (startsSliceOn c) ls s

theorem slicesOf_cons {l : Label n} {s' : Kernel n} (h : step l s = some s') (ls : List (Label n)) :
    slicesOf c (l :: ls) s = (startsSliceOn c s l).toList ++ slicesOf c ls s' :=
  trace_cons h ls

/-- Until its first slice a pass is on the way to the process that was chosen when it
began, and is not over. -/
theorem not_idle_of_slicesOf_nil {ls : List (Label n)} {t : Kernel n} {i : ℕ}
    {k : Level} {p : Slot} (hcount : s.Counted) (hscan : s.Scanning c i) (hp : s.Chosen k p)
    (hi : i ≤ p) (hx : exec step ls s = some t) (hno : slicesOf c ls s = []) :
    (t.cpu c).ctl ≠ .idle := by
  induction ls generalizing s i with
  | nil =>
    cases hx
    rw [hscan.ctl]
    exact Ctl.noConfusion
  | cons l ls ih =>
    obtain ⟨s', hl, hls⟩ := exec_cons_some.mp hx
    rw [slicesOf_cons hl, List.append_eq_nil_iff, Option.toList_eq_nil_iff] at hno
    by_cases hlc : l = .scan c
    · have hno' : s.startsSlice (.scan c) = none := by
        simpa [startsSliceOn, hlc] using hno.1
      subst hlc
      obtain ⟨hscan', hp', hi'⟩ := hscan.toward hcount hp hi hl hno'
      exact ih (hcount.step hl) hscan' hp' hi' hls hno.2
    · obtain ⟨hscan', hstill⟩ := hscan.other hl hlc
      have hsame := firstRunnable_congr hstill.q hstill.runnable
      have hp' : s'.Chosen k p :=
        ⟨fun j hj => (hsame j).trans (hp.above j hj), (hsame k).trans hp.first⟩
      exact ih (hcount.step hl) hscan' hp' hi hls hno.2

/-- A pass that begins with no `RUNNABLE` process in a queue starts no slice. -/
theorem slicesOf_nil_of_none {ls : List (Label n)} {t : Kernel n} {i : ℕ}
    (hscan : s.Scanning c i) (hnone : ∀ k, s.firstRunnable k = none)
    (hx : exec step ls s = some t)
    (hpass : Along step (fun u _ => (u.cpu c).ctl ≠ .idle) ls s) : slicesOf c ls s = [] := by
  induction ls generalizing s i with
  | nil => rfl
  | cons l ls ih =>
    obtain ⟨s', hl, hls⟩ := exec_cons_some.mp hx
    have hfirst : startsSliceOn c s l = none := by
      cases hst : startsSliceOn c s l with
      | none => rfl
      | some p =>
        have hret := (startsSliceOn_eq_some hst).2.2
        rw [returnProc_of_none hnone] at hret
        cases hret
    rw [slicesOf_cons hl, hfirst, Option.toList_none, List.nil_append]
    by_cases hlc : l = .scan c
    · subst hlc
      rcases hscan.pastEmpty hnone hl with hidle | ⟨hscan', hnone'⟩
      · -- the pass is over, and so is the run
        cases ls with
        | nil => rfl
        | cons l' ls => exact absurd hidle (hpass.2 s' hl).1
      · exact ih hscan' hnone' hls (hpass.2 s' hl)
    · obtain ⟨hscan', hstill⟩ := hscan.other hl hlc
      have hsame := firstRunnable_congr hstill.q hstill.runnable
      exact ih hscan' (fun k => (hsame k).trans (hnone k)) hls (hpass.2 s' hl)

/-- **Selection and work conservation.**  In a pass of CPU `c` over the table, from the
first slot on, every slice is started on the first `RUNNABLE` entry of the lowest-numbered
queue that has one at that moment, and its loop is bounded by the quantum of that queue.
No slice is started if no process in a queue was `RUNNABLE` when the pass began, and a pass
that is over has started one if some process was. -/
theorem pass_work_conserving (c : Fin n) (ls : List (Label n)) (s t : Kernel n)
    (hcount : s.Counted) (hscan : s.Scanning c 0) (hx : exec step ls s = some t)
    (hpass : Along step (fun u _ => (u.cpu c).ctl ≠ .idle) ls s) :
    Along step (fun u l => ∀ p, startsSliceOn c u l = some p → ∃ k, u.Chosen k p ∧
      ∀ u', step l u = some u' →
        (u'.cpu c).ctl = .slice ⟨p, k, (u.proc p).priority, 0⟩) ls s ∧
    (slicesOf c ls s ≠ [] → ∃ k, ∃ e ∈ (s.q k).entries, s.isRunnable e = true) ∧
    ((t.cpu c).ctl = .idle → (∃ k, ∃ e ∈ (s.q k).entries, s.isRunnable e = true) →
      slicesOf c ls s ≠ []) := by
  refine ⟨?_, ?_, ?_⟩
  · apply along_of_invariant (I := Counted) hpass hcount
    · intro u l u' hu _ hstep
      exact hu.step hstep
    · intro u l hu _ p hp
      have hch := chosen_of_returnProc hu (startsSliceOn_eq_some hp).2.2
      refine ⟨_, hch, ?_⟩
      intro u' hstep
      exact (chosen_of_startsSliceOn hu hp hstep).2
  · intro hsome
    by_contra hnone
    apply hsome
    apply slicesOf_nil_of_none hscan _ hx hpass
    intro k
    rw [firstRunnable, List.find?_eq_none]
    intro e he hrun
    exact hnone ⟨k, e, he, hrun⟩
  · rintro hidle ⟨k, e, he, hrun⟩ hno
    have hsome : (s.firstRunnable k).isSome = true := by
      rw [firstRunnable, List.find?_isSome]
      exact ⟨e, he, hrun⟩
    obtain ⟨j, p, hp⟩ := exists_chosen hcount hsome
    exact not_idle_of_slicesOf_nil hcount hscan hp (Nat.zero_le _) hx hno hidle

/-- CPU 1 runs init for the quantum of `q0` and walks through the rest of the table. -/
def firstPass : List (Label 2) :=
  [.scan 1, .loop 1, .resume 1, .yield 1, .back 1, .loop 1] ++ List.replicate 64 (.scan 1)

set_option maxRecDepth 100000 in
theorem pass_work_conserving_init : ∃ s t : Kernel 2,
    exec step [.acquire 1] (boot 2) = some s ∧ exec step firstPass s = some t ∧
    (t.cpu 1).ctl = .idle ∧ slicesOf 1 firstPass s ≠ [] := by
  obtain ⟨s, hs, hc, hq, hrun⟩ := exists_run [.acquire 1] (fun s : Kernel 2 =>
    (s.cpu 1).ctl = .scan 0 ∧ (∀ k, (s.q k).numOfProc = (s.q k).endIdx) ∧
    (∃ e ∈ (s.q 0).entries, s.isRunnable e = true) ∧
    Along step (fun u _ => (u.cpu 1).ctl ≠ .idle) firstPass s ∧
    (exec step firstPass s).any (fun t => decide ((t.cpu 1).ctl = .idle)) = true)
    (by decide +kernel)
  obtain ⟨hrunnable, hpass, hend⟩ := hrun
  obtain ⟨t, ht, hidle⟩ := exists_exec firstPass _ hend
  have hscan := Reached.scanning ⟨_, hs⟩ hc
  refine ⟨s, t, hs, ht, hidle, ?_⟩
  exact (pass_work_conserving 1 firstPass s t hq hscan ht hpass).2.2 hidle ⟨0, hrunnable⟩

end Xv6Mlfq
