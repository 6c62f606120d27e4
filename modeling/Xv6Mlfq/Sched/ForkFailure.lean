import Xv6Mlfq.Sched.Membership

/-!
# A `fork` that fails

`fork` returns -1 when there is no slot, when `kalloc` has no page for the kernel stack,
and when `copyuvm` runs out of memory.  In the first case nothing has happened.  In the
other two `allocproc` has already given the slot a pid and an entry in `q0`, and the code
that undoes the allocation only resets the state of the slot.

The system model runs a `fork` in pieces, because other processors may get in between;
`exec_fork` shows that the pieces in a row are the function `fork`.

## Main results

* `fork_failure_untouched_iff` — a failed `fork` leaves everything as it was exactly when
  there was no slot.
-/

namespace Xv6Mlfq

open Kernel

variable {n : ℕ}

/-! ## The pieces of a `fork` -/

/-- The steps of a `fork` on CPU `c` that nothing interrupts. -/
def forkLabels (s : Kernel n) (c : Fin n) (kalloc setupkvm : Bool) (pages : List Bool) :
    List (Label n) :=
  if s.findUnused = none then [.forkAlloc c]
  else if kalloc = false then [.forkAlloc c, .forkStack c kalloc]
  else if copyuvm setupkvm pages = false then
    [.forkAlloc c, .forkStack c kalloc, .forkCopy c setupkvm pages]
  else [.forkAlloc c, .forkStack c kalloc, .forkCopy c setupkvm pages, .forkRun c]

/-- Updates of different entries commute. -/
theorem modify_comm (s : Kernel n) {p r : Slot} (h : p ≠ r) (f g : Proc → Proc) :
    (s.modify p f).modify r g = (s.modify r g).modify p f := by
  simp [Kernel.modify, h, h.symm, Function.update_comm h]

theorem setForking_setForking (s : Kernel n) (p : Slot) (x y : Option (ForkStage × Slot)) :
    (s.setForking p x).setForking p y = s.setForking p y := by
  simp [setForking, Kernel.modify]

theorem setForking_of_eq {s : Kernel n} {p : Slot} {x : Option (ForkStage × Slot)}
    (h : (s.proc p).forking = x) : s.setForking p x = s := by
  subst h
  simp [setForking, Kernel.modify]

theorem copyProc_setForking (s : Kernel n) {p np : Slot} (h : p ≠ np)
    (x : Option (ForkStage × Slot)) :
    (s.setForking p x).copyProc p np = (s.copyProc p np).setForking p x := by
  simp [setForking, copyProc, Kernel.modify, h, h.symm, Function.update_comm h]

/-- A process in the middle of a `fork` takes its next piece. -/
theorem forkStep_setForking {t : Kernel n} {c : Fin n} {f : Frame} (hc : t.current c = some f)
    (a : ForkStage) (np : Slot) (go : Slot → Slot → Kernel n) :
    forkStep (t.setForking f.p (some (a, np))) c a go = some (go f.p np) := by
  have hcur : (t.setForking f.p (some (a, np))).current c = some f := hc
  have hf : ((t.setForking f.p (some (a, np))).proc f.p).forking = some (a, np) := by
    simp [setForking]
  simp [forkStep, hcur, hf]

section Pieces

variable {t : Kernel n} {c : Fin n} {f : Frame} {np : Slot}

theorem step_forkStack_setForking (hc : t.current c = some f) (hne : f.p ≠ np) (kalloc : Bool) :
    step (.forkStack c kalloc) (t.setForking f.p (some (.alloced, np))) =
      some ((t.giveStack np kalloc).setForking f.p
        (if kalloc then some (.stacked, np) else none)) := by
  have hgive : (t.setForking f.p (some (.alloced, np))).giveStack np kalloc =
      (t.giveStack np kalloc).setForking f.p (some (.alloced, np)) := by
    cases kalloc with
    | true =>
      rw [giveStack_true, giveStack_true]
      exact modify_comm t hne _ _
    | false =>
      rw [giveStack_false, giveStack_false]
      exact modify_comm t hne _ _
  simp only [step]
  rw [forkStep_setForking hc, hgive, setForking_setForking]

theorem step_forkCopy_setForking (hc : t.current c = some f) (hne : f.p ≠ np) (setupkvm : Bool)
    (pages : List Bool) :
    step (.forkCopy c setupkvm pages) (t.setForking f.p (some (.stacked, np))) =
      some (if copyuvm setupkvm pages then
          (t.copyProc f.p np).setForking f.p (some (.copied, np))
        else (t.setState np .UNUSED).setForking f.p none) := by
  have hset : (t.setForking f.p (some (.stacked, np))).setState np .UNUSED =
      (t.setState np .UNUSED).setForking f.p (some (.stacked, np)) := modify_comm t hne _ _
  simp only [step]
  rw [forkStep_setForking hc, copyProc_setForking t hne, hset, setForking_setForking,
    setForking_setForking]

theorem step_forkRun_setForking (hc : t.current c = some f) (hl : t.lock = none)
    (hne : f.p ≠ np) :
    step (.forkRun c) (t.setForking f.p (some (.copied, np))) =
      some ((t.setState np .RUNNABLE).setForking f.p none) := by
  have hset : (t.setForking f.p (some (.copied, np))).setState np .RUNNABLE =
      (t.setState np .RUNNABLE).setForking f.p (some (.copied, np)) := modify_comm t hne _ _
  simp only [step, setForking_toMachine, hl, if_true]
  rw [forkStep_setForking hc, hset, setForking_setForking]

end Pieces

/-- **A `fork` that nothing interrupts** is the function `fork`. -/
theorem exec_fork {s : Kernel n} {c : Fin n} {f : Frame} (hc : (s.cpu c).ctl = .running f)
    (hl : s.lock = none) (hf : (s.proc f.p).forking = none) (hp : (s.proc f.p).state ≠ .UNUSED)
    (kalloc setupkvm : Bool) (pages : List Bool) :
    Transition.exec step (forkLabels s c kalloc setupkvm pages) s =
      some (s.fork f.p kalloc setupkvm pages).2 := by
  have hcur : s.current c = some f := by simp [current, hc, hl]
  cases hn : s.findUnused with
  | none =>
    have hstep : step (.forkAlloc c) s = some s := by
      simp [step, syscall, hcur, hl, hf, hn]
    simp [forkLabels, hn, fork, allocproc, Transition.exec_cons, hstep]
  | some np =>
    have hne : f.p ≠ np := by
      rintro rfl
      exact hp (findUnused_some hn)
    have halloc : step (.forkAlloc c) s =
        some ((s.claimSlot np).setForking f.p (some (.alloced, np))) := by
      simp [step, syscall, hcur, hl, hf, hn]
    have hcur₁ : (s.claimSlot np).current c = some f := by
      simp [current, claimSlot_toMachine, hc, hl]
    have hf₁ : ((s.claimSlot np).proc f.p).forking = none := by
      rw [claimSlot_proc_ne s hne, hf]
    cases kalloc with
    | false =>
      have hdone : ((s.claimSlot np).setState np .UNUSED).setForking f.p none =
          (s.claimSlot np).setState np .UNUSED :=
        setForking_of_eq (by simpa [setState, hne] using hf₁)
      simp [forkLabels, hn, fork, allocproc, Transition.exec_cons, halloc,
        step_forkStack_setForking hcur₁ hne, hdone]
    | true =>
      set t := (s.claimSlot np).giveStack np true with ht
      have hcur₂ : t.current c = some f := hcur₁
      have hf₂ : (t.proc f.p).forking = none := by
        rw [ht, giveStack_true]
        simpa [hne] using hf₁
      have hl₂ : t.lock = none := by
        rw [ht, giveStack_true]
        simp [claimSlot_toMachine, hl]
      cases hcopy : copyuvm setupkvm pages with
      | false =>
        have hdone : (t.setState np .UNUSED).setForking f.p none =
            t.setState np .UNUSED := setForking_of_eq (by simpa [setState, hne] using hf₂)
        simp [forkLabels, hn, fork, allocproc, Transition.exec_cons, halloc, hcopy,
          step_forkStack_setForking hcur₁ hne, step_forkCopy_setForking hcur₂ hne, ← ht,
          hdone]
      | true =>
        have hdone : ((t.copyProc f.p np).setState np .RUNNABLE).setForking f.p none =
            (t.copyProc f.p np).setState np .RUNNABLE :=
          setForking_of_eq (by simpa [setState, copyProc, hne] using hf₂)
        have hrun := step_forkRun_setForking (t := t.copyProc f.p np) hcur₂ hl₂ hne
        simp [forkLabels, hn, fork, allocproc, Transition.exec_cons, halloc, hcopy,
          step_forkStack_setForking hcur₁ hne, step_forkCopy_setForking hcur₂ hne, ← ht,
          hrun, hdone]

/-! ## What a failure leaves -/

/-- The queues, and the fields that `allocproc`, `fork`, `kill` and `scheduler` decide by,
are the same in `s'` as in `s`. -/
structure Untouched (s s' : Kernel n) : Prop where
  entries : ∀ k, (s'.q k).entries = (s.q k).entries
  endIdx : ∀ k, (s'.q k).endIdx = (s.q k).endIdx
  numOfProc : ∀ k, (s'.q k).numOfProc = (s.q k).numOfProc
  state : ∀ p, (s'.proc p).state = (s.proc p).state
  pid : ∀ p, (s'.proc p).pid = (s.proc p).pid
  parent : ∀ p, (s'.proc p).parent = (s.proc p).parent
  killed : ∀ p, (s'.proc p).killed = (s.proc p).killed
  ofile : ∀ p, (s'.proc p).ofile = (s.proc p).ofile
  cwd : ∀ p, (s'.proc p).cwd = (s.proc p).cwd

theorem Untouched.refl (s : Kernel n) : Untouched s s where
  entries _ := rfl
  endIdx _ := rfl
  numOfProc _ := rfl
  state _ := rfl
  pid _ := rfl
  parent _ := rfl
  killed _ := rfl
  ofile _ := rfl
  cwd _ := rfl

theorem fork_of_no_slot {s : Kernel n} (h : s.findUnused = none) (p : Slot)
    (kalloc setupkvm : Bool) (pages : List Bool) : s.fork p kalloc setupkvm pages = (-1, s) := by
  simp [fork, allocproc, h]

/-- Once there is a slot it gets the next pid, whatever happens later. -/
theorem fork_pid_of_slot {s : Kernel n} {np : Slot} (h : s.findUnused = some np) (p : Slot)
    (kalloc setupkvm : Bool) (pages : List Bool) :
    ((s.fork p kalloc setupkvm pages).2.proc np).pid = s.nextpid := by
  cases kalloc with
  | false => simp [fork, allocproc, h, setState, claimSlot_proc_self]
  | true =>
    simp only [fork, allocproc, h, giveStack_true, if_true]
    split_ifs <;> simp [setState, copyProc, claimSlot_proc_self]

/-- **A failed `fork` leaves no trace exactly when it found no slot.** -/
theorem fork_failure_untouched_iff (s : Kernel n) (hs : Reached s) (p : Slot)
    (kalloc setupkvm : Bool) (pages : List Bool) :
    (s.fork p kalloc setupkvm pages).1 = -1 →
      (Untouched s (s.fork p kalloc setupkvm pages).2 ↔ s.findUnused = none) := by
  intro _
  constructor
  · intro hu
    by_contra hslot
    obtain ⟨np, hnp⟩ := Option.ne_none_iff_exists'.mp hslot
    have hpid := hu.pid np
    rw [fork_pid_of_slot hnp] at hpid
    exact absurd hpid (hs.pid_lt.2 np).ne'
  · intro hnone
    rw [fork_of_no_slot hnone]
    exact Untouched.refl s

set_option maxRecDepth 100000 in
/-- With a full table a `fork` fails and leaves no trace. -/
theorem fork_failure_untouched_full : ∃ s : Kernel 1, Reached s ∧
    (s.fork 0 true true []).1 = -1 ∧ Untouched s (s.fork 0 true true []).2 := by
  obtain ⟨s, hx, hnone⟩ := exists_run
    (switchToInit ++ (List.replicate 63 forkSucceeds).flatten)
    (fun s => s.findUnused = none) (by decide +kernel)
  have hfail : (s.fork 0 true true []).1 = -1 := by rw [fork_of_no_slot hnone]
  exact ⟨s, ⟨_, hx⟩, hfail, (fork_failure_untouched_iff s ⟨_, hx⟩ 0 true true [] hfail).mpr hnone⟩

/-- Without a page for the kernel stack, `q0` is longer afterwards. -/
theorem fork_failure_grows_q0 : ∃ s : Kernel 1, Reached s ∧
    (s.fork 0 false true []).1 = -1 ∧
    ((s.fork 0 false true []).2.q 0).endIdx ≠ (s.q 0).endIdx := by
  obtain ⟨s, hx, hfail, hend⟩ := exists_run switchToInit
    (fun s => (s.fork 0 false true []).1 = -1 ∧
      ((s.fork 0 false true []).2.q 0).endIdx ≠ (s.q 0).endIdx) (by decide +kernel)
  exact ⟨s, ⟨_, hx⟩, hfail, hend⟩

end Xv6Mlfq
