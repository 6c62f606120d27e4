import Xv6Mlfq.Life.Kill

/-!
# `exit` and `wait`

What holds of parents and children under every interleaving of `fork`, `exit`, `wait` and
`kill`.  Every result is read off the invariants of `Family`: the family is closed, no two slots
have the same pid, and a parent is the process that called `fork` or init.

## Main definitions

* `Kernel.waits` — the round of `wait` that a step makes, and how it ends.
* `forkers` — the history variable that remembers who called `fork`.

## Main results

* `wait_reaps_own_children` — parents live, an exited process is returned once, to its parent,
  and `wait` gives up only without children or when killed.
* `no_sleep_on_zombie` — no process sleeps in `wait` while a child of it is a zombie.
-/

namespace Xv6Mlfq

open Function (update)
open Kernel
open Transition (exec observed trace)

variable {n : ℕ}

/-- The process that makes a round of `wait`, and what the round ends with. -/
def Kernel.waits (s : Kernel n) : Label n → Option (Slot × WaitResult)
  | .wait c => (s.current c).map fun f => (f.p, (s.wait f.p).1)
  | .resume c =>
    match (s.cpu c).ctl with
    | .running f =>
      if (s.proc f.p).context = .wait then some (f.p, ((s.awake f.p).wait f.p).1) else none
    | _ => none
  | _ => none

/-- The pid that `wait` returns. -/
def Kernel.returned (s : Kernel n) (l : Label n) : Option ℤ :=
  match s.waits l with
  | some (_, .reaped pid) => some pid
  | _ => none

/-- The pid of the process that called the `fork` in which a pid was handed out. -/
def forkers (s : Kernel n) (l : Label n) (w : ℤ → ℤ) : ℤ → ℤ :=
  match l with
  | .forkAlloc c =>
    match s.current c, s.findUnused with
    | some f, some _ => update w s.nextpid (s.proc f.p).pid
    | _, _ => w
  | _ => w

/-! ## Rounds of `wait` -/

theorem Kernel.wait_awake (s : Kernel n) (p q : Slot) :
    ((s.awake p).wait q).1 = (s.wait q).1 := by
  have h : ∀ r, ((s.awake p).proc r).parent = (s.proc r).parent ∧
      ((s.awake p).proc r).killed = (s.proc r).killed ∧
      ((s.awake p).proc r).pid = (s.proc r).pid := by
    intro r
    by_cases hr : r = p
    · subst hr; simp [awake]
    · simp [awake, hr]
  simp only [Kernel.wait, zombieChild_awake, h]
  cases s.zombieChild q with
  | some z => rfl
  | none =>
    split_ifs <;> rfl

variable {s : Kernel n} {q : Slot}

/-- A round of `wait` ends as `wait` does in the present state, and its move is `waitAct`. -/
theorem Kernel.waits_eq_some {l : Label n} {r : WaitResult}
    (h : s.waits l = some (q, r)) : r = (s.wait q).1 ∧ s.act l = s.waitAct q := by
  cases l with
  | wait c =>
    simp only [waits, Option.map_eq_some_iff, Prod.mk.injEq] at h
    obtain ⟨f, hf, rfl, rfl⟩ := h
    exact ⟨rfl, by simp [act, hf]⟩
  | resume c =>
    simp only [waits] at h
    split at h
    case h_1 f hf =>
      split_ifs at h with hx
      cases h
      exact ⟨s.wait_awake f.p f.p, by simp [act, hf, hx]⟩
    case h_2 => cases h
  | _ => cases h

theorem Kernel.wait_reaped {pid : ℤ} (h : .reaped pid = (s.wait q).1) :
    ∃ z, (s.proc z).parent = some q ∧ (s.proc z).state = .ZOMBIE ∧ (s.proc z).pid = pid ∧
      s.waitAct q = .reap q z := by
  simp only [Kernel.wait, waitAct] at h ⊢
  cases hz : s.zombieChild q with
  | some z =>
    have hzombie := zombieChild_some hz
    simp only [hz, WaitResult.reaped.injEq] at h
    exact ⟨z, hzombie.1, hzombie.2, h.symm, rfl⟩
  | none =>
    simp only [hz] at h
    split_ifs at h

theorem Kernel.wait_fails (h : .fails = (s.wait q).1) :
    (∀ p, (s.proc p).parent ≠ some q) ∨ (s.proc q).killed = true := by
  simp only [Kernel.wait] at h
  cases hz : s.zombieChild q with
  | some z => simp [hz] at h
  | none =>
    simp only [hz] at h
    split_ifs at h with hk
    exact hk

/-! ## Each pid is returned once -/

/-- A step that returns a pid takes it out of the table. -/
theorem returned_step {s' : Kernel n} {l : Label n} {pid : ℤ} (hr : Reached s)
    (h : step l s = some s') (hret : s.returned l = some pid) :
    (∃ p, (s.proc p).pid = pid) ∧ 0 < pid ∧ pid < s'.nextpid ∧ ∀ p, (s'.proc p).pid ≠ pid := by
  obtain ⟨hC, hN⟩ := hr.kin
  simp only [Kernel.returned] at hret
  split at hret
  case h_1 q pid' hw =>
    cases hret
    obtain ⟨he, hact⟩ := waits_eq_some hw
    obtain ⟨z, -, hz, hpid, hwait⟩ := wait_reaped he
    have hpos : 0 < (s.proc z).pid := hr.pid_pos z (by rw [hz]; decide)
    have hstep := step_refines_family hr h
    rw [hact, hwait] at hstep
    refine ⟨⟨z, hpid⟩, hpid ▸ hpos, ?_, fun p hp => ?_⟩
    · rw [← hpid]
      exact (hr.pid_lt.2 z).trans_le (step_nextpid_le h)
    · rcases Family.pid_step hstep p with heq | ⟨q', ha, hzero⟩ | ⟨q', ha, -⟩
      · -- another slot has another pid
        have hpz : p = z := (hN.pid_inj z p hpos (hpid.trans (hp.symm.trans heq))).symm
        subst hpz
        have hgone : (s'.proc p).pid = 0 := Family.pid_of_reap hstep
        omega
      · have hgone : (s'.proc p).pid = 0 := hzero
        omega
      · cases ha
  case h_2 => cases hret

/-- The pids that a run returns are distinct, and each was in the table or is new. -/
theorem trace_returned {ls : List (Label n)} : ∀ {s t : Kernel n}, Reached s →
    exec step ls s = some t → (trace step Kernel.returned ls s).Nodup ∧
      ∀ pid ∈ trace step Kernel.returned ls s,
        0 < pid ∧ ((∃ p, (s.proc p).pid = pid) ∨ s.nextpid ≤ pid) := by
  induction ls with
  | nil =>
    intro s t hr hx
    exact ⟨List.nodup_nil, fun pid h => nomatch h⟩
  | cons l ls ih =>
    intro s t hr hx
    obtain ⟨s', hs, hrun⟩ := Transition.exec_cons_some.mp hx
    obtain ⟨hnodup, hmem⟩ := ih (hr.next hs) hrun
    -- what the rest of the run returns was in the table before the step, or is new
    have hrest : ∀ pid ∈ trace step Kernel.returned ls s',
        0 < pid ∧ ((∃ p, (s.proc p).pid = pid) ∨ s.nextpid ≤ pid) := by
      intro pid hpid
      obtain ⟨hpos, hin⟩ := hmem pid hpid
      refine ⟨hpos, ?_⟩
      rcases hin with ⟨p, hp⟩ | hnew
      · rcases step_pid hs p with he | ⟨-, -, he⟩ | ⟨-, -, he, -⟩
        · exact .inl ⟨p, he ▸ hp⟩
        · omega
        · exact .inr (by omega)
      · exact .inr ((step_nextpid_le hs).trans hnew)
    rw [Transition.trace_cons hs]
    cases hret : s.returned l with
    | none => exact ⟨hnodup, hrest⟩
    | some pid =>
      obtain ⟨hbefore, hpos, hlt, hgone⟩ := returned_step hr hs hret
      have hnot : pid ∉ trace step Kernel.returned ls s' := by
        intro hin
        rcases (hmem pid hin).2 with ⟨p, hp⟩ | hnew
        · exact hgone p hp
        · omega
      refine ⟨List.nodup_cons.mpr ⟨hnot, hnodup⟩, fun pid' hpid' => ?_⟩
      rcases List.mem_cons.mp hpid' with rfl | hpid'
      · exact ⟨hpos, .inl hbefore⟩
      · exact hrest pid' hpid'

/-! ## Parents -/

theorem forkers_eq (l : Label n) (w : ℤ → ℤ) :
    forkers s l w = Family.makers s.table (s.act l) w := by
  have hof := s.act_of l
  cases l with
  | forkAlloc c =>
    simp only [forkers, act]
    cases s.current c with
    | none => rfl
    | some f => cases s.findUnused <;> rfl
  | _ =>
    generalize s.act _ = a at hof ⊢
    cases hof <;> rfl

theorem descended_boot (w : ℤ → ℤ) : (boot n).table.Descended w where
  parent p q h := by simp [table_boot_parent] at h
  making q b p h := by simp [table_boot_making] at h

theorem descended_of_run {ls : List (Label n)} {w w₀ : ℤ → ℤ}
    (hx : exec (observed step forkers) ls (boot n, w₀) = some (s, w)) :
    Reached s ∧ s.table.Descended w := by
  have hreach : Transition.Reachable (observed step forkers) (boot n, w₀) (s, w) := ⟨ls, hx⟩
  refine hreach.invariant
    (I := fun sw : Kernel n × (ℤ → ℤ) => Reached sw.1 ∧ sw.1.table.Descended sw.2)
    ⟨.refl _, descended_boot w₀⟩ ?_
  rintro ⟨s, w⟩ l ⟨s', w'⟩ ⟨hr, hd⟩ hs
  obtain ⟨hstep, rfl⟩ := Transition.observed_some.mp hs
  refine ⟨hr.next hstep, ?_⟩
  rw [forkers_eq]
  exact Family.descended_step hr.kin.1 hr.kin.2 hd (step_refines_family hr hstep)

/-! ## Main results -/

/-- **Parents and children.**  In every state of every run a process other than init has a
parent that has not exited; the pids that `wait` has returned are distinct; `wait` returns the
pid of a zombie only to its parent, which is init or the process that forked it; and `wait`
fails only for a process that has no children or has been killed. -/
theorem wait_reaps_own_children (ls : List (Label n)) (s : Kernel n) (w : ℤ → ℤ)
    (hx : exec (observed step forkers) ls (boot n, fun _ => 0) = some (s, w)) :
    (∀ p, s.initproc ≠ some p →
      ((s.proc p).state = .SLEEPING ∨ (s.proc p).state = .RUNNABLE ∨
        (s.proc p).state = .RUNNING ∨ (s.proc p).state = .ZOMBIE) →
      ∃ q, (s.proc p).parent = some q ∧ ((s.proc q).state = .SLEEPING ∨
        (s.proc q).state = .RUNNABLE ∨ (s.proc q).state = .RUNNING)) ∧
    (trace step Kernel.returned ls (boot n)).Nodup ∧
    (∀ l q pid, s.waits l = some (q, .reaped pid) →
      ∃ p, (s.proc p).state = .ZOMBIE ∧ (s.proc p).pid = pid ∧ (s.proc p).parent = some q ∧
        (s.initproc = some q ∨ w pid = (s.proc q).pid)) ∧
    ∀ l q, s.waits l = some (q, .fails) →
      (∀ p, (s.proc p).parent ≠ some q) ∨ (s.proc q).killed = true := by
  obtain ⟨hr, hd⟩ := descended_of_run hx
  obtain ⟨hC, -⟩ := hr.kin
  have hroot : s.table.root = 0 := by simp [table, hr.initproc]
  refine ⟨fun p hp hst => ?_, ?_, fun l q pid hw => ?_, fun l q hw => ?_⟩
  · have halive : s.table.alive p ∨ s.table.status p = .dead := by
      rcases hst with h | h | h | h
      · exact .inl (Life.status_alive.mpr (.inl h))
      · exact .inl (Life.status_alive.mpr (.inr (.inl h)))
      · exact .inl (Life.status_alive.mpr (.inr (.inr h)))
      · exact .inr (Life.status_eq_dead.mpr h)
    have hne : p ≠ s.table.root := by
      rintro rfl
      exact hp (hroot ▸ hr.initproc)
    obtain ⟨q, hq⟩ := Option.ne_none_iff_exists'.mp (hC.has_parent p hne halive)
    exact ⟨q, hq, Life.status_alive.mp (hC.parent_alive p q hq)⟩
  · exact (trace_returned (.refl _) (Transition.exec_of_observed hx)).1
  · obtain ⟨he, -⟩ := waits_eq_some hw
    obtain ⟨z, hpar, hz, hpid, -⟩ := wait_reaped he
    refine ⟨z, hz, hpid, hpar, ?_⟩
    rcases hd.parent z q hpar with hq | hq
    · exact .inl (by rw [hq, hroot]; exact hr.initproc)
    · exact .inr (hpid ▸ hq)
  · exact wait_fails (waits_eq_some hw).1

/-- Init, on CPU 0, has two children; the first one runs on CPU 1 and exits, then the second one
runs there. -/
def firstChildExits : List (Label 2) :=
  let fork : List (Label 2) :=
    [.forkAlloc 0, .forkStack 0 true, .forkCopy 0 true [true], .forkRun 0]
  [.acquire 0, .scan 0, .loop 0, .resume 0] ++ fork ++ fork ++
    [.acquire 1, .scan 1, .scan 1, .loop 1, .resume 1, .exit 1, .back 1, .loop 1, .scan 1, .loop 1,
      .resume 1]

theorem wait_reaps_own_children_first : ∃ (s : Kernel 2) (w : ℤ → ℤ),
    exec (observed step forkers) firstChildExits (boot 2, fun _ => 0) = some (s, w) ∧
      s.lock = none ∧ s.waits (.wait 0) = some (0, .reaped 2) ∧
      ∃ p, (s.proc p).state = .ZOMBIE ∧ (s.proc p).pid = 2 ∧ (s.proc p).parent = some 0 ∧
        (s.initproc = some 0 ∨ w 2 = (s.proc 0).pid) := by
  have hrun : ∃ sw : Kernel 2 × (ℤ → ℤ),
      exec (observed step forkers) firstChildExits (boot 2, fun _ => 0) = some sw ∧
        sw.1.lock = none ∧ sw.1.waits (.wait 0) = some (0, .reaped 2) :=
    Transition.exists_exec _ _ (by decide +kernel)
  obtain ⟨⟨s, w⟩, hx, hl, hw⟩ := hrun
  exact ⟨s, w, hx, hl, hw, (wait_reaps_own_children _ s w hx).2.2.1 _ 0 2 hw⟩

/-- **No wakeup is lost between `exit` and `wait`.**  A process that sleeps in `wait` has no
zombie child, whether it forked the child or got it by an `exit`. -/
theorem no_sleep_on_zombie (s : Kernel n) (h : Reached s) (p : Slot)
    (hp : (s.proc p).state = .SLEEPING ∧ (s.proc p).chan = some (.proc p)) :
    ∀ r, (s.proc r).parent = some p → (s.proc r).state ≠ .ZOMBIE := by
  intro r hr hz
  exact h.kin.1.served r p (Life.status_eq_waiting.mpr hp) hr (Life.status_eq_dead.mpr hz)

theorem no_sleep_on_zombie_init : ∃ s : Kernel 1, Reached s ∧
    ((s.proc 0).state = .SLEEPING ∧ (s.proc 0).chan = some (.proc 0)) ∧
    (s.proc 1).parent = some 0 ∧ (s.proc 1).state ≠ .ZOMBIE := by
  obtain ⟨s, hx, hsleep, hpar⟩ := exists_run (switchToInit ++ forkSucceeds ++ [.wait 0])
    (fun s => ((s.proc 0).state = .SLEEPING ∧ (s.proc 0).chan = some (.proc 0)) ∧
      (s.proc 1).parent = some 0) (by decide +kernel)
  exact ⟨s, ⟨_, hx⟩, hsleep, hpar, no_sleep_on_zombie s ⟨_, hx⟩ 0 hsleep 1 hpar⟩

end Xv6Mlfq
