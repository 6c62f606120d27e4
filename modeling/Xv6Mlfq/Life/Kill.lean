import Xv6Mlfq.Life.Families
import Xv6Mlfq.Sched.Membership

/-!
# Whom `kill` reaches

`kill` looks for a pid and does not look at the state of the slot that has it.  A slot that is
not in use has the pid 0 — and after a `fork` that failed, a positive one — so `kill` can set
`killed` there, and `allocproc` does not clear it: the next process of the slot is killed
before it has done anything.

## Main results

* `kill_reaches_live` — a run without `kill(0)` and without a `fork` that fails after it took a
  slot kills nobody but processes that exist.
-/

namespace Xv6Mlfq

open Family (Act)
open Kernel
open Transition (exec)

variable {n : ℕ}

/-- The step calls `kill` with the pid 0, or is a `fork` that gives its slot up. -/
def Label.soilsSlot : Label n → Bool
  | .kill _ pid => pid = 0
  | .forkStack _ kalloc => !kalloc
  | .forkCopy _ setupkvm pages => !copyuvm setupkvm pages
  | _ => false

/-- Which moves a label can make. -/
inductive ActOf (s : Kernel n) : Label n → Act Slot → Prop
  | rest (l : Label n) : ActOf s l .rest
  | wait (l : Label n) (q : Slot) : ActOf s l (.wait q)
  | reap (l : Label n) (q p : Slot) : ActOf s l (.reap q p)
  | exit (c : Fin n) (q : Slot) : ActOf s (.exit c) (.exit q)
  | mark (c : Fin n) (p : Slot) : ActOf s (.kill c (s.proc p).pid) (.mark p)
  | fault (c : Fin n) (f : Frame) (h : s.current c = some f) : ActOf s (.fault c) (.mark f.p)
  | claim (c : Fin n) (q p : Slot) : ActOf s (.forkAlloc c) (.claim q p)
  | adopt (l : Label n) (q p : Slot) : ActOf s l (.adopt q p)
  | bear (c : Fin n) (q p : Slot) : ActOf s (.forkRun c) (.bear q p)
  | fail (l : Label n) (q p : Slot) (h : l.soilsSlot = true) : ActOf s l (.fail q p)

theorem Kernel.waitAct_of (s : Kernel n) (l : Label n) (q : Slot) : ActOf s l (s.waitAct q) := by
  simp only [waitAct]
  split
  · exact .reap l _ _
  · split_ifs
    · exact .rest l
    · exact .wait l q

variable {s : Kernel n} {l : Label n} {p : Slot}

/-- A step of a `fork` that has taken a slot rests, or makes its own move. -/
theorem Kernel.forkAct_of (c : Fin n) {a : Slot → Slot → Act Slot}
    (ha : ∀ q p, ActOf s l (a q p)) : ActOf s l (s.forkAct c a) := by
  simp only [forkAct]
  split
  · split
    · exact ha _ _
    · exact .rest l
  · exact .rest l

theorem Kernel.act_of (s : Kernel n) (l : Label n) : ActOf s l (s.act l) := by
  cases l with
  | kill c pid =>
    simp only [act]
    split
    case h_1 p hp =>
      have hpid : (s.proc p).pid = pid := by simpa using List.find?_some hp
      exact hpid ▸ .mark c p
    case h_2 => exact .rest _
  | fault c =>
    simp only [act]
    split
    · exact .fault c _ ‹_›
    · exact .rest _
  | exit c =>
    simp only [act]
    split
    · exact .exit c _
    · exact .rest _
  | wait c =>
    simp only [act]
    split
    · exact waitAct_of s _ _
    · exact .rest _
  | resume c =>
    simp only [act]
    split
    · split_ifs
      · exact waitAct_of s _ _
      · exact .rest _
    · exact .rest _
  | forkAlloc c =>
    simp only [act]
    split
    · exact .claim c _ _
    · exact .rest _
  | forkStack c kalloc =>
    simp only [act]
    split_ifs with hk
    · exact .rest _
    · exact forkAct_of c fun q p => .fail _ q p (by simp [Label.soilsSlot, hk])
  | forkCopy c setupkvm pages =>
    simp only [act]
    split_ifs with hcopy
    · exact forkAct_of c fun q p => .adopt _ q p
    · exact forkAct_of c fun q p => .fail _ q p (by simp [Label.soilsSlot, hcopy])
  | forkRun c => exact forkAct_of c fun q p => .bear c q p
  | _ => exact .rest _

/-- The steps that mark a process are `kill` with its pid, and its own faults. -/
theorem Kernel.act_eq_mark (hr : Reached s)
    (h : s.act l = .mark p) : ∃ c, l = .kill c (s.proc p).pid ∨
      l = .fault c ∧ (s.cpu c).proc = some p ∧ (s.proc p).state = .RUNNING := by
  have hof := s.act_of l
  rw [h] at hof
  cases hof with
  | mark c => exact ⟨c, .inl rfl⟩
  | fault c f hf =>
    have hphase := Handoff.view_phase (current_eq_some hf).1
    have hcur := hr.handoff.cur_eq c
    rw [hphase] at hcur
    exact ⟨c, .inr ⟨rfl, hcur, hr.handoff.running c f.p hphase⟩⟩

/-- A step that gives up the slot of a `fork` is one that fails. -/
theorem Kernel.act_eq_fail {q : Slot} (h : s.act l = .fail q p) : l.soilsSlot = true := by
  have hof := s.act_of l
  rw [h] at hof
  cases hof with
  | fail _ _ _ hl => exact hl

theorem boot_killed (p : Slot) : ((boot n).proc p).killed = false := by
  by_cases hp : p = 0
  · subst hp
    rfl
  · exact congrArg (fun x : Proc => x.killed) (boot_proc_ne hp)

theorem clean_boot : (boot n).table.Clean where
  pid p hp := by
    rw [table_boot_status] at hp
    split_ifs at hp with h
    rw [table_boot_pid, if_neg h]
  marked p _ := boot_killed p

/-- Slots that are not in use stay clean. -/
theorem clean_of_run {ls : List (Label n)} (hx : exec step ls (boot n) = some s)
    (hC : ∀ l ∈ ls, l.soilsSlot = false) : Reached s ∧ s.table.Clean := by
  refine Transition.along_invariant (I := fun s : Kernel n => Reached s ∧ s.table.Clean) hx
    (Transition.along_of_forall _ hC) ⟨.refl _, clean_boot⟩ ?_
  rintro s l s' ⟨hr, hclean⟩ hl hs
  refine ⟨hr.next hs, Family.clean_step hclean (step_refines_family hr hs) ?_ ?_⟩
  · intro q p ha
    rw [act_eq_fail ha] at hl
    cases hl
  · intro p ha hpid
    obtain ⟨c, rfl | ⟨-, -, hrun⟩⟩ := act_eq_mark hr ha
    · simp only [Label.soilsSlot, decide_eq_false_iff_not] at hl
      exact hl hpid
    · have hpos := hr.pid_pos p (by rw [hrun]; decide)
      exact hpos.ne' hpid

/-- What sets `killed` in a clean table: a call of `kill` with the pid of the slot, or a fault. -/
theorem killed_step {s' : Kernel n} (hr : Reached s)
    (hclean : s.table.Clean) (h : step l s = some s') (hk : (s'.proc p).killed = true)
    (hbefore : ¬ ((s.proc p).killed = true ∧ (s.proc p).pid = (s'.proc p).pid)) :
    (s.proc p).pid = (s'.proc p).pid ∧ ∃ c, l = .kill c (s.proc p).pid ∨
      l = .fault c ∧ (s.cpu c).proc = some p ∧ (s.proc p).state = .RUNNING := by
  have hstep := step_refines_family hr h
  have hmark : s.table.marked p = true ∨ s.act l = .mark p := Family.marked_step hstep hk
  rcases Family.pid_step hstep p with hpid | ⟨q, ha, -⟩ | ⟨q, ha, hfree, -⟩
  · have hpid' : (s.proc p).pid = (s'.proc p).pid := hpid.symm
    have hact := hmark.resolve_left fun hm => hbefore ⟨hm, hpid'⟩
    exact ⟨hpid', act_eq_mark hr hact⟩
  · -- `wait` clears the mark of the slot
    rw [ha] at hstep
    have hclear : s'.table.marked p = false := Family.marked_of_reap hstep
    exact absurd (hclear.symm.trans hk) (by decide)
  · -- `allocproc` found the slot unmarked
    rcases hmark with hm | hm
    · exact absurd ((hclean.marked p hfree).symm.trans hm) (by decide)
    · rw [ha] at hm
      cases hm

/-- **`kill` reaches only processes that exist** in a run in which it is not called with the pid
0 and no `fork` fails in `kalloc` or `copyuvm`: it returns 0 for a pid other than 0 only if a
slot in use has it, a slot that is not in use has `killed` clear, and a process with `killed`
set was named by a call of `kill` after its pid had been handed out, or has made a fault itself. -/
theorem kill_reaches_live (ls : List (Label n)) (s : Kernel n)
    (hx : exec step ls (boot n) = some s) (hC : ∀ l ∈ ls, l.soilsSlot = false) :
    (∀ pid, pid ≠ 0 → (s.kill pid).1 = 0 →
      ∃ p, (s.proc p).state ≠ .UNUSED ∧ (s.proc p).pid = pid) ∧
    (∀ p, (s.proc p).state = .UNUSED → (s.proc p).killed = false) ∧
    ∀ p, (s.proc p).killed = true → ∃ ls₁ l ls₂ r,
      ls = ls₁ ++ l :: ls₂ ∧ exec step ls₁ (boot n) = some r ∧
        (r.proc p).pid = (s.proc p).pid ∧ (r.proc p).state ≠ .UNUSED ∧
        ∃ c, l = .kill c (s.proc p).pid ∨ l = .fault c ∧ (r.cpu c).proc = some p := by
  obtain ⟨hr, hclean⟩ := clean_of_run hx hC
  refine ⟨fun pid hpid hk => ?_, fun p hp => hclean.marked p (Life.status_eq_free.mpr hp),
    fun p hk => ?_⟩
  · simp only [Kernel.kill] at hk
    split at hk
    case h_1 => simp at hk
    case h_2 p hp =>
      have he : (s.proc p).pid = pid := by simpa using List.find?_some hp
      refine ⟨p, fun hst => hpid ?_, he⟩
      rw [← he]
      exact hclean.pid p (Life.status_eq_free.mpr hst)
  · have hboot : ¬ (((boot n).proc p).killed = true ∧ ((boot n).proc p).pid = (s.proc p).pid) := by
      rintro ⟨hk, -⟩
      rw [boot_killed] at hk
      cases hk
    obtain ⟨ls₁, l, ls₂, r, r', rfl, hr₁, hs, hn, hk', hpid'⟩ :=
      Transition.exists_change (P := fun t : Kernel n =>
        (t.proc p).killed = true ∧ (t.proc p).pid = (s.proc p).pid) hx hboot ⟨hk, rfl⟩
    obtain ⟨hr, hclean⟩ := clean_of_run hr₁ fun l hl => hC l (List.mem_append_left _ hl)
    obtain ⟨hpid, c, hl⟩ := killed_step hr hclean hs hk' fun h => hn ⟨h.1, h.2.trans hpid'⟩
    refine ⟨ls₁, l, ls₂, r, rfl, hr₁, hpid.trans hpid', ?_⟩
    rcases hl with rfl | ⟨rfl, hcur, hrun⟩
    · refine ⟨fun hst => ?_, c, .inl (by rw [hpid, hpid'])⟩
      have hzero := hC (.kill c (r.proc p).pid) (by simp)
      simp only [Label.soilsSlot, decide_eq_false_iff_not] at hzero
      exact hzero (hclean.pid p (Life.status_eq_free.mpr hst))
    · exact ⟨by rw [hrun]; decide, c, .inr ⟨rfl, hcur⟩⟩

/-- Init kills its child. -/
theorem kill_reaches_live_child : ∃ s : Kernel 1,
    exec step (switchToInit ++ forkSucceeds ++ [.kill 0 2]) (boot 1) = some s ∧
      (s.proc 1).killed = true ∧ ∃ ls₁ l ls₂ r,
        switchToInit ++ forkSucceeds ++ [.kill 0 2] = ls₁ ++ l :: ls₂ ∧
          exec step ls₁ (boot 1) = some r ∧ (r.proc 1).pid = (s.proc 1).pid ∧
          (r.proc 1).state ≠ .UNUSED ∧
          ∃ c, l = .kill c (s.proc 1).pid ∨ l = .fault c ∧ (r.cpu c).proc = some 1 := by
  obtain ⟨s, hx, hk⟩ := exists_run (switchToInit ++ forkSucceeds ++ [.kill 0 2])
    (fun s => (s.proc 1).killed = true) (by decide +kernel)
  exact ⟨s, hx, hk, (kill_reaches_live _ s hx (by decide)).2.2 1 hk⟩

/-- Init calls `kill(0)`, which returns 0 although no process has the pid 0, and then forks: the
child is killed although nobody has called `kill` with its pid. -/
theorem kill_zero_kills_next_child : ∃ s t : Kernel 1,
    exec step switchToInit (boot 1) = some s ∧
    exec step ([.kill 0 0] ++ forkSucceeds) s = some t ∧
    (s.kill 0).1 = 0 ∧ (∀ p, (s.proc p).state ≠ .UNUSED → (s.proc p).pid ≠ 0) ∧
    (∃ p, ((s.kill 0).2.proc p).state = .UNUSED ∧ ((s.kill 0).2.proc p).killed = true) ∧
    (t.proc 1).state = .RUNNABLE ∧ (t.proc 1).pid = 2 ∧ (t.proc 1).killed = true := by
  obtain ⟨s, hs, hret, hlive, hunused⟩ := exists_run switchToInit
    (fun s : Kernel 1 => (s.kill 0).1 = 0 ∧
      (∀ p, (s.proc p).state ≠ .UNUSED → (s.proc p).pid ≠ 0) ∧
      ∃ p, ((s.kill 0).2.proc p).state = .UNUSED ∧ ((s.kill 0).2.proc p).killed = true)
    (by decide +kernel)
  obtain ⟨t, ht, hrun, hpid, hk⟩ := exists_run (switchToInit ++ ([.kill 0 0] ++ forkSucceeds))
    (fun t : Kernel 1 => (t.proc 1).state = .RUNNABLE ∧ (t.proc 1).pid = 2 ∧
      (t.proc 1).killed = true) (by decide +kernel)
  obtain ⟨s', hs', ht'⟩ := Transition.exec_append_some.mp ht
  obtain rfl := Option.some.inj (hs.symm.trans hs')
  exact ⟨s, t, hs, ht', hret, hlive, hunused, hrun, hpid, hk⟩

end Xv6Mlfq
