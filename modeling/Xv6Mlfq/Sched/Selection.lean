import Xv6Mlfq.Sched.Board
import Xv6Mlfq.Sched.Pass

/-!
# The side effect of selecting a process

`returnProc` is a question with a side effect: it exchanges the process that it returns with the
first entry of its queue, and `scheduler` asks it again at every slot of the table.  The exchange is
harmless.  Everything in front of the process returned is not `RUNNABLE`, so the `RUNNABLE` entries
keep their order, and the next call finds the process at once and has nothing to exchange.

## Main definitions

* `Kernel.Selects` — what a call may do to the queues.

## Main results

* `returnProc_selects`, `returnProc_eq_none_iff` — the first call.
* `returnProc_again` — a call on a queue with the answer in front.
* `returnProc_stable` — the first call and all that follow.
-/

namespace Xv6Mlfq

open Multilevel (bringFront bringFront_perm)

variable {n : ℕ}

namespace Kernel

/-- A call with answer `r` turns the queues of `s` into those of `t`: all but queue `k` are as they
were, and that one is permuted.  Its `RUNNABLE` entries keep their order, and the answer is at
index 0. -/
structure Selects (s t : Kernel n) (r : Option Slot) (k : Level) : Prop where
  others : ∀ j ≠ k, t.q j = s.q j
  fields : ∃ a, t.q k = { s.q k with queue := a }
  perm : (t.q k).entries.Perm (s.q k).entries
  order : (t.q k).entries.filter s.isRunnable = (s.q k).entries.filter s.isRunnable
  front : ∀ p, r = some p → (t.q k).entries.head? = some (some p)

/-- `0 <= end = numOfProc <= NPROC`, for every queue. -/
def Bounded (s : Kernel n) : Prop :=
  ∀ k, 0 ≤ (s.q k).endIdx ∧ (s.q k).endIdx = (s.q k).numOfProc ∧ (s.q k).numOfProc ≤ NPROC

variable {s : Kernel n}

theorem Bounded.counted (h : s.Bounded) : s.Counted := fun k => (h k).2.1.symm

/-- When no entry before `e` passes the test, the exchange keeps the order of those that do. -/
theorem filter_bringFront {α : Type*} {test : α → Bool} {l₁ l₂ : List α} {e : α}
    (h : ∀ x ∈ l₁, test x = false) :
    (bringFront l₁ e l₂).filter test = (l₁ ++ e :: l₂).filter test := by
  have hnone : ∀ l : List α, (∀ x ∈ l, test x = false) → l.filter test = [] := by
    intro l hl
    rw [List.filter_eq_nil_iff]
    intro x hx
    simp [hl x hx]
  cases l₁ with
  | nil => rfl
  | cons a l₁ =>
    have ha := h a List.mem_cons_self
    have hl₁ := hnone l₁ fun x hx => h x (List.mem_cons_of_mem a hx)
    simp [bringFront, List.filter_cons, ha, hl₁]

theorem returnProc_selects (hs : s.Bounded) :
    Selects s s.returnProc.2 s.returnProc.1 s.returnQueue := by
  rcases s.returnProc_cases with ⟨-, us, he⟩ | ⟨us, p, l₁, l₂, he, hent, -, hno⟩
  · rw [he]
    exact ⟨fun _ _ => rfl, ⟨_, rfl⟩, .refl _, rfl, nofun⟩
  · have hfits : (s.q s.returnQueue).endIdx ≤ NPROC := (hs _).2.1 ▸ (hs _).2.2
    have hnew : (s.returnProc.2.q s.returnQueue).entries = bringFront l₁ (some p) l₂ := by
      rw [← PQueue.entries_swapFirst hent hfits, he]
      simp
    constructor
    case others =>
      intro j hj
      rw [he]
      simp [hj]
    case fields => exact s.returnProc_q _
    case perm =>
      rw [hnew, hent]
      exact bringFront_perm l₁ (some p) l₂
    case order =>
      rw [hnew, hent]
      exact filter_bringFront hno
    case front =>
      intro r hr
      rw [he] at hr
      cases hr
      rw [hnew]
      cases l₁ <;> rfl

theorem firstRunnable_eq_none_iff {k : Level} :
    s.firstRunnable k = none ↔ ∀ e ∈ (s.q k).entries, s.isRunnable e = false := by
  simp [firstRunnable, List.find?_eq_none]

/-- Null is returned when no queue has a `RUNNABLE` entry. -/
theorem returnProc_eq_none_iff (hs : s.Counted) :
    s.returnProc.1 = none ↔ ∀ k, ∀ e ∈ (s.q k).entries, s.isRunnable e = false := by
  constructor
  · intro h k e he
    by_contra hr
    rw [Bool.not_eq_false] at hr
    have hhas := hasRunnable_returnQueue ((s.hasRunnable_iff k (hs k)).mpr ⟨e, he, hr⟩)
    rcases s.returnProc_cases with ⟨hno, -⟩ | ⟨us, p, l₁, l₂, heq, -⟩
    · rw [hhas] at hno
      cases hno
    · rw [heq] at h
      cases h
  · intro h
    exact returnProc_of_none fun k => firstRunnable_eq_none_iff.mpr (h k)

/-! ## Asking again -/

/-- The answer of `returnProc`, with nothing left to exchange. -/
structure Settled (s : Kernel n) (r : Option Slot) (k : Level) : Prop where
  queue : s.returnQueue = k
  proc : ∃ us, s.returnProc = (r, s.use us)

theorem settled_none (hs : s.Counted) (h : ∀ k, s.firstRunnable k = none) : Settled s none 0 := by
  have hno : ∀ k, s.hasRunnable k = false := by
    intro k
    rw [hs.hasRunnable_eq, h k]
    rfl
  constructor
  · simp [returnQueue, hno]
  · rcases s.returnProc_cases with ⟨-, us, he⟩ | ⟨us, p, l₁, l₂, he, -⟩
    · exact ⟨us, he⟩
    · have hnone := returnProc_of_none h
      rw [he] at hnone
      cases hnone

/-- A chosen process that is in front of its queue is returned and stays there. -/
theorem Chosen.settled {k : Level} {p : Slot} (h : s.Chosen k p) (hs : s.Counted)
    (hfront : (s.q k).entries.head? = some (some p)) : Settled s (some p) k := by
  have hq := h.returnQueue hs
  have hp := h.returnProc hs
  refine ⟨hq, ?_⟩
  rcases s.returnProc_cases with ⟨-, us, he⟩ | ⟨us, r, l₁, l₂, he, hent, hr, hno⟩
  · rw [he] at hp
    cases hp
  · rw [he] at hp
    cases hp
    rw [hq] at he hent
    -- an entry before it would be the head, which is `RUNNABLE`
    have hl₁ : l₁ = [] := by
      cases l₁ with
      | nil => rfl
      | cons a l₁ =>
        rw [hent] at hfront
        cases hfront
        have hfalse := hno (some p) List.mem_cons_self
        simp [isRunnable, hr] at hfalse
    rw [hl₁, List.length_nil, CArray.swapFirst_zero, setQ_self] at he
    exact ⟨us, he⟩

theorem Chosen.use {k : Level} {p : Slot} (h : s.Chosen k p) (us : List Use) :
    (s.use us).Chosen k p := ⟨h.above, h.first⟩

/-- After a call every further one gives the same answer and exchanges nothing. -/
theorem returnProc_again (hs : s.Bounded) (us : List Use) :
    Settled (s.returnProc.2.use us) s.returnProc.1 s.returnQueue := by
  have hcounted : (s.returnProc.2.use us).Counted := by
    intro k
    obtain ⟨a, ha⟩ := s.returnProc_q k
    rw [use_q, ha]
    exact hs.counted k
  cases hr : s.returnProc.1 with
  | none =>
    have hnone : ∀ k, s.firstRunnable k = none := fun k =>
      firstRunnable_eq_none_iff.mpr ((returnProc_eq_none_iff hs.counted).mp hr k)
    rw [(settled_none hs.counted hnone).queue]
    apply settled_none hcounted
    intro k
    rw [← hnone k]
    exact firstRunnable_congr (returnProc_q_of_none hr) (fun p => by simp) k
  | some p =>
    have hchosen := chosen_of_returnProc hs.counted hr
    exact ((hchosen.after_returnProc hs.counted).use us).settled hcounted
      ((returnProc_selects hs).front p hr)

theorem use_nil (s : Kernel n) : s.use [] = s := by simp [use]

/-- The state after `m` calls of `returnProc`. -/
def afterCalls (s : Kernel n) (m : ℕ) : Kernel n := (fun t => t.returnProc.2)^[m] s

/-- After the first call the others only look. -/
theorem afterCalls_succ (hs : s.Bounded) (m : ℕ) :
    ∃ us, s.afterCalls (m + 1) = s.returnProc.2.use us := by
  induction m with
  | zero => exact ⟨[], (use_nil _).symm⟩
  | succ m ih =>
    obtain ⟨us, hus⟩ := ih
    obtain ⟨vs, hvs⟩ := (returnProc_again hs us).proc
    refine ⟨us ++ vs, ?_⟩
    rw [afterCalls, Function.iterate_succ_apply', ← afterCalls, hus, hvs, use_use]

/-- **`returnProc` permutes one queue, and only once.**  For every state of the queues in which the
counters agree and are in range, the call leaves two queues as they are and permutes the third,
keeping the order of its `RUNNABLE` entries, with the answer at index 0; the answer is null exactly
when no entry is `RUNNABLE`; and all later calls give the same answer and leave everything as it is,
as does `returnQueue`. -/
theorem returnProc_stable (s : Kernel n) (hs : s.Bounded) :
    Selects s s.returnProc.2 s.returnProc.1 s.returnQueue ∧
      (s.returnProc.1 = none ↔ ∀ k, ∀ e ∈ (s.q k).entries, s.isRunnable e = false) ∧
      ∀ m, (s.afterCalls (m + 1)).returnQueue = s.returnQueue ∧
        (s.afterCalls (m + 1)).returnProc.1 = s.returnProc.1 ∧
        ∃ us, (s.afterCalls (m + 1)).returnProc.2 = s.returnProc.2.use us := by
  refine ⟨returnProc_selects hs, returnProc_eq_none_iff hs.counted, ?_⟩
  intro m
  obtain ⟨us, hus⟩ := afterCalls_succ hs m
  obtain ⟨hqueue, vs, hvs⟩ := returnProc_again hs us
  rw [hus]
  refine ⟨hqueue, ?_, us ++ vs, ?_⟩
  · rw [hvs]
  · rw [hvs, use_use]

/-- Process 1 is `RUNNABLE`, behind process 0, which is not. -/
def behindUnused : Kernel 1 :=
  (((default : Kernel 1).addQueue 0 0).addQueue 0 1).modify 1 fun x => { x with state := .RUNNABLE }

theorem returnProc_stable_swap :
    behindUnused.Bounded ∧ behindUnused.returnProc.1 = some 1 ∧
      (behindUnused.q 0).entries = [some 0, some 1] ∧
      (behindUnused.returnProc.2.q 0).entries = [some 1, some 0] ∧
      ∀ m, (behindUnused.afterCalls (m + 1)).returnProc.1 = behindUnused.returnProc.1 := by
  have hs : behindUnused.Bounded := by
    unfold Bounded
    decide
  refine ⟨hs, by decide, by decide, by decide, ?_⟩
  intro m
  exact ((returnProc_stable behindUnused hs).2.2 m).2.1

end Kernel
end Xv6Mlfq
