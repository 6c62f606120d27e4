import Xv6Mlfq.Lib.Multilevel
import Xv6Mlfq.Sched.Handoff
import Mathlib.Data.List.ReduceOption

/-!
# The run queues as a multilevel queue

`board` reads a `Multilevel.Board` off the kernel.  As long as the arrays are `Sound` —
each queue holds exactly the processes of its list, `end` and `numOfProc` agree with its
length — every step of the kernel is a move of the board (`board_step`).  Two things can
break this: a `fork` that takes a slot left behind by a failed one, because of the three
`deleteQueue` calls on `q0`, and an append to a full queue.

## Main definitions

* `PQueue.Holds pq k l` — the queue `pq` of level `k` holds the list `l`.
* `Kernel.board`, `Kernel.Sound` — the abstraction and its domain.
* `Kernel.reusesLeftover`, `Kernel.overflows` — the two exceptions.
-/

namespace Xv6Mlfq

open Function (update update_self update_of_ne)
open Multilevel (Board bringFront bringFront_perm enqueue dequeue)

variable {n : ℕ}

/-! ## One queue and its list -/

/-- The processes of a queue, in order. -/
def PQueue.slots (pq : PQueue) : List Slot := pq.entries.reduceOption

/-- The queue `pq` of level `k` holds the processes `l`. -/
structure PQueue.Holds (pq : PQueue) (k : Level) (l : List Slot) : Prop where
  entries : pq.entries = l.map some
  endIdx : pq.endIdx = l.length
  numOfProc : pq.numOfProc = l.length
  priority : pq.priority = k
  ticks : pq.ticks = Kernel.quantum k
  fits : l.length ≤ NPROC

theorem PQueue.Holds.slots_eq {pq : PQueue} {k : Level} {l : List Slot} (h : pq.Holds k l) :
    pq.slots = l := by
  simp [PQueue.slots, h.entries, List.reduceOption, List.filterMap_map]

/-- The exchange in `returnProc` brings its process to the front. -/
theorem PQueue.entries_swapFirst {pq : PQueue} {l₁ l₂ : List (Option Slot)} {e : Option Slot}
    (h : pq.entries = l₁ ++ e :: l₂) (hfits : pq.endIdx ≤ NPROC) :
    ({ pq with queue := pq.queue.swapFirst l₁.length } : PQueue).entries = bringFront l₁ e l₂ := by
  have hlen := congrArg List.length h
  rw [PQueue.entries, CArray.length_window, List.length_append, List.length_cons] at hlen
  cases l₁ with
  | nil =>
    rw [List.length_nil, CArray.swapFirst_zero]
    exact h
  | cons a l₁ =>
    rw [List.length_cons] at hlen
    exact CArray.window_swapFirst pq.queue (by simp only [List.length_cons]; omega) hfits h rfl

theorem PQueue.Holds.swapFirst {pq : PQueue} {k : Level} {l₁ l₂ : List Slot} {p : Slot}
    (h : pq.Holds k (l₁ ++ p :: l₂)) :
    ({ pq with queue := pq.queue.swapFirst l₁.length } : PQueue).Holds k
      (bringFront l₁ p l₂) := by
  have hlen := (bringFront_perm l₁ p l₂).length_eq
  refine ⟨?_, hlen ▸ h.endIdx, hlen ▸ h.numOfProc, h.priority, h.ticks, hlen ▸ h.fits⟩
  have hent : pq.entries = l₁.map some ++ some p :: l₂.map some := by simp [h.entries]
  have hfits : pq.endIdx ≤ NPROC := by
    rw [h.endIdx]
    exact_mod_cast h.fits
  have hswap := PQueue.entries_swapFirst hent hfits
  rw [List.length_map] at hswap
  rw [hswap]
  cases l₁ <;> simp [bringFront]

namespace Kernel

variable {s : Kernel n} {k j : Level} {f : Frame} {c : Fin n}

theorem holds_addQueue {l : List Slot} (h : (s.q k).Holds k l)
    (hl : l.length < NPROC) (p : Slot) : ((s.addQueue k p).q k).Holds k (l ++ [p]) where
  entries := by
    rw [entries_addQueue _ _ _ (by rw [h.endIdx]; omega) (by rw [h.endIdx]; omega), h.entries]
    simp
  endIdx := by simp [h.endIdx]
  numOfProc := by simp [addQueue, h.numOfProc]
  priority := by simp [h.priority]
  ticks := by simp [addQueue, h.ticks]
  fits := by simpa using Nat.succ_le_of_lt hl

theorem holds_deleteQueue {l : List Slot} (h : (s.q k).Holds k l)
    {p : Slot} (hp : p ∈ l) : ((s.deleteQueue k p).q k).Holds k (l.erase p) where
  entries := by
    have hmem : some p ∈ (s.q k).entries := by simpa [h.entries] using hp
    rw [entries_deleteQueue, if_pos hmem, h.entries]
    exact (List.map_erase (Option.some_injective _) l).symm
  endIdx := by
    have := List.length_pos_of_mem hp
    rw [endIdx_deleteQueue, h.endIdx, List.length_erase_of_mem hp]
    omega
  numOfProc := by
    have := List.length_pos_of_mem hp
    have hn : ((s.deleteQueue k p).q k).numOfProc = (s.q k).numOfProc - 1 := by
      simp [deleteQueue]
    rw [hn, h.numOfProc, List.length_erase_of_mem hp]
    omega
  priority := by simp [h.priority]
  ticks := by simp [deleteQueue, h.ticks]
  fits := (List.length_erase_le).trans h.fits

/-! ## The board -/

/-- The board the kernel represents. -/
def board (s : Kernel n) : Board Slot Level (Fin n) where
  alive p := (s.proc p).state ≠ .UNUSED
  ready p := (s.proc p).state = .RUNNABLE
  level p := (s.proc p).priority
  queue k := (s.q k).slots
  slice c := (s.cpu c).ctl.frame.map fun f => (f.p, f.queue)

/-- The arrays represent a board. -/
def Sound (s : Kernel n) : Prop := ∀ k, (s.q k).Holds k (s.board.queue k)

theorem sound_of_holds {l : Level → List Slot} (h : ∀ k, (s.q k).Holds k (l k)) :
    s.Sound ∧ s.board.queue = l := by
  have hl : s.board.queue = l := funext fun k => (h k).slots_eq
  exact ⟨fun k => hl ▸ h k, hl⟩

theorem Sound.mem_iff (hs : s.Sound) {p : Slot} :
    some p ∈ (s.q k).entries ↔ p ∈ s.board.queue k := by
  simp [(hs k).entries]

theorem Sound.hasRunnable_iff (hs : s.Sound) (k : Level) :
    s.hasRunnable k = true ↔ ∃ p ∈ s.board.queue k, s.board.ready p := by
  rw [Kernel.hasRunnable_iff s k (by rw [(hs k).numOfProc, (hs k).endIdx]), (hs k).entries]
  simp [isRunnable, board]

/-- `returnQueue` depends on what is in the queues, not on the order. -/
theorem returnQueue_congr {t : Kernel n} (h : ∀ k, s.hasRunnable k = t.hasRunnable k) :
    s.returnQueue = t.returnQueue := by
  simp only [returnQueue, h]

/-- What `returnProc` does to the board. -/
theorem Sound.returnProc_cases (hs : s.Sound) : (s.returnProc.1 = none ∧ s.returnProc.2.q = s.q) ∨
    ∃ p l₁ l₂, s.returnProc.1 = some p ∧ s.board.queue s.returnQueue = l₁ ++ p :: l₂ ∧
      s.board.ready p ∧ (∀ r ∈ l₁, ¬ s.board.ready r) ∧
      s.returnProc.2.Sound ∧ s.returnProc.2.board.queue =
        update s.board.queue s.returnQueue (bringFront l₁ p l₂) ∧
      s.returnProc.2.returnQueue = s.returnQueue := by
  rcases Kernel.returnProc_cases s with ⟨-, us, he⟩ | ⟨us, p, e₁, e₂, he, hent, hrun, hno⟩
  · exact .inl ⟨by rw [he], by rw [he]; rfl⟩
  · right
    rw [(hs _).entries] at hent
    obtain ⟨l₁, m, hq, rfl, hm⟩ := List.map_eq_append_iff.mp hent
    obtain ⟨p', l₂, rfl, hp', rfl⟩ := List.map_eq_cons_iff.mp hm
    obtain rfl : p' = p := Option.some.inj hp'
    have hnone : ∀ r ∈ l₁, ¬ s.board.ready r := by
      intro r hr
      simpa [isRunnable, board] using hno (some r) (List.mem_map_of_mem hr)
    have hholds : ∀ k, (s.returnProc.2.q k).Holds k
        (update s.board.queue s.returnQueue (bringFront l₁ p' l₂) k) := by
      intro k
      rw [he, List.length_map]
      by_cases hk : k = s.returnQueue
      · subst hk
        simpa using PQueue.Holds.swapFirst (hq ▸ hs _)
      · simpa [hk] using hs k
    obtain ⟨hsound, hboard⟩ := sound_of_holds hholds
    refine ⟨p', l₁, l₂, by rw [he], hq, hrun, hnone, hsound, hboard, returnQueue_congr fun k => ?_⟩
    -- the queues hold the same processes as before
    rw [Bool.eq_iff_iff, hsound.hasRunnable_iff, hs.hasRunnable_iff, hboard]
    have hmem : ∀ r, r ∈ update s.board.queue s.returnQueue (bringFront l₁ p' l₂) k ↔
        r ∈ s.board.queue k := fun r => (Multilevel.update_bringFront_perm hq k).mem_iff
    have hready : s.returnProc.2.board.ready = s.board.ready := by simp [board]
    simp only [hmem, hready]

/-! ## The end of a slice -/

/-- From which queue to which the end of the slice `f` moves its process. -/
def sliceMove (s : Kernel n) (f : Frame) : Option (Level × Level) :=
  let x := s.proc f.p
  if x.state = .RUNNABLE ∧ (x.priority = 1 ∨ x.priority = 0) then
    if (s.q f.queue).priority = 0 then some (0, 1)
    else if (s.q f.queue).priority = 1 then some (1, 2)
    else none
  else if x.state = .RUNNABLE ∧ x.priority = 2 ∧ 50 ≤ x.Ticks then some (2, 0)
  else if x.state = .SLEEPING then some (f.queue, f.queue)
  else none

theorem sliceEnd_of_none (h : s.sliceMove f = none) : (s.sliceEnd f).q = s.q ∧
      ∀ r, ((s.sliceEnd f).proc r).priority = (s.proc r).priority := by
  simp only [sliceEnd, sliceMove, modify_proc, modify_q, degrade, update_self] at h ⊢
  split_ifs at h ⊢
  all_goals
    refine ⟨rfl, fun r => ?_⟩
    by_cases hr : r = f.p
    · subst hr; simp
    · simp [hr]

theorem sliceEnd_of_some (hpr : ∀ k, (s.q k).priority = k) (h : s.sliceMove f = some (j, k)) :
    (s.sliceEnd f).q = ((s.deleteQueue j f.p).addQueue k f.p).q ∧
      ∀ r, ((s.sliceEnd f).proc r).priority =
        update (fun r => (s.proc r).priority) f.p k r := by
  simp only [sliceEnd, sliceMove, modify_proc, modify_q, degrade, update_self] at h ⊢
  split_ifs at h ⊢
  all_goals
    cases h
    refine ⟨rfl, fun r => ?_⟩
    by_cases hr : r = f.p
    · subst hr; simp [boost, addQueue_proc, hpr]
    · simp [boost, addQueue_proc, hr]

/-! ## Steps -/

/-- A `fork` is about to take a slot that a failed `fork` left behind. -/
def reusesLeftover (s : Kernel n) : Label n → Bool
  | .forkAlloc _ => s.findUnused.any fun np => 0 < (s.proc np).pid
  | _ => false

/-- The queue to which a step appends a process that it does not take from the same
queue. -/
def appendsTo (s : Kernel n) : Label n → Option Level
  | .forkAlloc _ => s.findUnused.map fun _ => 0
  | .loop c =>
    match (s.cpu c).ctl with
    | .slice f =>
      if s.sliceGoesOn f then none
      else match s.sliceMove f with
        | some (j, k) => if j = k then none else some k
        | none => none
    | _ => none
  | _ => none

theorem appendsTo_eq_some {l : Label n} (h : s.appendsTo l = some k) :
    (∃ c np, l = .forkAlloc c ∧ s.findUnused = some np ∧ k = 0) ∨
    ∃ c f j, l = .loop c ∧ (s.cpu c).ctl = .slice f ∧ s.sliceMove f = some (j, k) ∧ j ≠ k := by
  cases l with
  | forkAlloc c =>
    obtain ⟨np, hn, rfl⟩ := Option.map_eq_some_iff.mp h
    exact .inl ⟨c, np, rfl, hn, rfl⟩
  | loop c =>
    simp only [appendsTo] at h
    split at h
    case h_1 f hc =>
      split_ifs at h
      split at h
      case h_1 j k' hm =>
        split_ifs at h with hjk
        cases h
        exact .inr ⟨c, f, j, rfl, hc, hm, hjk⟩
      case h_2 => cases h
    case h_2 => cases h
  | _ => cases h

/-- The step appends a process to a full queue. -/
def overflows (s : Kernel n) (l : Label n) : Bool :=
  (s.appendsTo l).any fun k => NPROC ≤ (s.q k).endIdx

/-- The queues and slices are as before, and no pid is handed out. -/
theorem board_life {s' : Kernel n} {l : Label n} (hs : s.Sound) (hr : Reached s)
    (h : step l s = some s') (hq : s'.q = s.q)
    (hlevel : ∀ p, (s'.proc p).priority = (s.proc p).priority)
    (hslice : s'.board.slice = s.board.slice) (hpid : s'.nextpid = s.nextpid) :
    s'.Sound ∧ Multilevel.Step 0 s.board s'.board := by
  obtain ⟨hsound, hqueue⟩ := sound_of_holds (s := s') (l := s.board.queue) (by rw [hq]; exact hs)
  refine ⟨hsound, ?_⟩
  have hb : s'.board = { s.board with alive := s'.board.alive, ready := s'.board.ready } := by
    apply Board.ext
    · rfl
    · rfl
    · exact funext hlevel
    · exact hqueue
    · exact hslice
  rw [hb]
  refine .life _ _ (fun p hp => alive_of_nextpid_eq hr h hpid hp) fun c p k hc => ?_
  rw [← hslice] at hc
  obtain ⟨f, hf, he⟩ := Option.map_eq_some_iff.mp hc
  obtain ⟨rfl, -⟩ := Prod.mk.inj he
  exact (hr.next h).frame_used hf

theorem slice_setCtl (s : Kernel n) (c : Fin n) (x : Ctl) :
    (s.setCtl c x).board.slice =
      update s.board.slice c (x.frame.map fun f => (f.p, f.queue)) := by
  funext d
  by_cases hd : d = c
  · subst hd; simp [board]
  · simp [board, hd]

/-- A move of a CPU that keeps its slice. -/
theorem slice_setCtl_eq {t : Kernel n} {x y : Ctl}
    (ht : ∀ d, (t.cpu d).ctl = (s.cpu d).ctl) (hc : (s.cpu c).ctl = x)
    (hxy : y.frame.map (fun f => (f.p, f.queue)) = x.frame.map fun f => (f.p, f.queue)) :
    (t.setCtl c y).board.slice = s.board.slice := by
  rw [slice_setCtl, hxy, ← hc]
  funext d
  by_cases hd : d = c
  · subst hd; simp [board]
  · simp [board, hd, ht]

theorem slice_of_ctl {x : Ctl} (h : (s.cpu c).ctl = x) :
    s.board.slice c = x.frame.map fun f => (f.p, f.queue) := by
  simp [board, h]

theorem holds_enqueue {l : Level → List Slot} (h : ∀ m, (s.q m).Holds m (l m))
    (hk : (l k).length < NPROC) (p : Slot) (m : Level) :
    ((s.addQueue k p).q m).Holds m (enqueue l k p m) := by
  by_cases hm : m = k
  · subst hm
    rw [enqueue, update_self]
    exact holds_addQueue (h m) hk p
  · rw [enqueue, update_of_ne hm, addQueue_q_ne _ _ hm]
    exact h m

theorem holds_dequeue {l : Level → List Slot} (h : ∀ m, (s.q m).Holds m (l m))
    {p : Slot} (hp : p ∈ l j) (m : Level) :
    ((s.deleteQueue j p).q m).Holds m (dequeue l j p m) := by
  by_cases hm : m = j
  · subst hm
    rw [dequeue, update_self]
    exact holds_deleteQueue (h m) hp
  · rw [dequeue, update_of_ne hm, deleteQueue_q_ne _ _ hm]
    exact h m

/-- The process that ends its slice is in the queue it is taken from. -/
theorem sliceMove_source (hpr : ∀ k, (s.q k).priority = k) (h : s.sliceMove f = some (j, k)) :
    j = f.queue ∨ j = (s.proc f.p).priority := by
  simp only [sliceMove, hpr] at h
  split_ifs at h with h₁ h₂ h₃ h₄ h₅ <;> cases h
  · exact .inl h₂.symm
  · exact .inl h₃.symm
  · exact .inr h₄.2.1.symm
  · exact .inl rfl

theorem sliceMove_mem (hs : s.Sound) (hk : Multilevel.Kept s.board)
    (hc : (s.cpu c).ctl = .slice f) (h : s.sliceMove f = some (j, k)) :
    f.p ∈ s.board.queue j := by
  have hslice : s.board.slice c = some (f.p, f.queue) := slice_of_ctl hc
  rcases sliceMove_source (fun k => (hs k).priority) h with rfl | rfl
  · exact hk.listed c _ _ hslice
  · exact hk.enrolled _ (hk.alive c _ _ hslice)

/-- The end of a slice leaves its CPU without one, and nobody's life changes. -/
theorem board_finish_life (s : Kernel n) (c : Fin n) (f : Frame) :
    ((s.sliceEnd f).setCtl c (.scan (f.p + 1))).board.alive = s.board.alive ∧
    ((s.sliceEnd f).setCtl c (.scan (f.p + 1))).board.ready = s.board.ready ∧
    ((s.sliceEnd f).setCtl c (.scan (f.p + 1))).board.slice = update s.board.slice c none := by
  refine ⟨by simp [board], by simp [board], ?_⟩
  rw [slice_setCtl]
  simp [board, Ctl.frame]

theorem board_finish_stay (hs : s.Sound) (c : Fin n) (hm : s.sliceMove f = none) :
    ((s.sliceEnd f).setCtl c (.scan (f.p + 1))).Sound ∧
    ((s.sliceEnd f).setCtl c (.scan (f.p + 1))).board =
      { s.board with slice := update s.board.slice c none } := by
  obtain ⟨halive, hready, hslice⟩ := board_finish_life s c f
  obtain ⟨hq, hlevel⟩ := sliceEnd_of_none hm
  obtain ⟨hs', hqueue⟩ := sound_of_holds
    (s := (s.sliceEnd f).setCtl c (.scan (f.p + 1))) (l := s.board.queue)
    (by intro k; simpa [hq] using hs k)
  exact ⟨hs', Board.ext halive hready (funext hlevel) hqueue hslice⟩

theorem board_finish_move (hs : s.Sound) (hk : Multilevel.Kept s.board)
    {jk : Level × Level} (hc : (s.cpu c).ctl = .slice f)
    (hg : ¬ s.sliceGoesOn f) (hm : s.sliceMove f = some jk)
    (hroom : s.overflows (.loop c) = false) :
    ((s.sliceEnd f).setCtl c (.scan (f.p + 1))).Sound ∧
    ((s.sliceEnd f).setCtl c (.scan (f.p + 1))).board = { s.board with
      level := update s.board.level f.p jk.2
      queue := enqueue (dequeue s.board.queue jk.1 f.p) jk.2 f.p
      slice := update s.board.slice c none } := by
  obtain ⟨j, k⟩ := jk
  obtain ⟨halive, hready, hslice⟩ := board_finish_life s c f
  obtain ⟨hq, hlevel⟩ := sliceEnd_of_some (fun k => (hs k).priority) hm
  have hj := sliceMove_mem hs hk hc hm
  have hfits : (dequeue s.board.queue j f.p k).length < NPROC := by
    by_cases hjk : k = j
    · subst hjk
      have := (hs k).fits
      have := List.length_pos_of_mem hj
      rw [dequeue, update_self, List.length_erase_of_mem hj]
      omega
    · have hend := (hs k).endIdx
      rw [dequeue, update_of_ne hjk]
      have hlt : (s.q k).endIdx < NPROC := by
        simpa [overflows, appendsTo, hc, hg, hm, Ne.symm hjk] using hroom
      omega
  obtain ⟨hs', hqueue⟩ := sound_of_holds
    (s := (s.sliceEnd f).setCtl c (.scan (f.p + 1)))
    (l := enqueue (dequeue s.board.queue j f.p) k f.p)
    (by simpa [hq] using holds_enqueue (holds_dequeue hs hj) hfits f.p)
  exact ⟨hs', Board.ext halive hready (funext hlevel) hqueue hslice⟩

/-- **The kernel refines the multilevel queue** on steps that neither reuse a slot left by
a failed `fork` nor append to a full queue. -/
theorem board_step {s' : Kernel n} {l : Label n} (hr : Reached s) (hs : s.Sound)
    (hk : Multilevel.Kept s.board) (h : step l s = some s') (hleft : s.reusesLeftover l = false)
    (hroom : s.overflows l = false) : s'.Sound ∧ Multilevel.Step 0 s.board s'.board := by
  have hr' : Reached s' := hr.next h
  have hpr : ∀ k, (s.q k).priority = k := fun k => (hs k).priority
  cases step_effect h with
  | quiet _ _ hq =>
    refine board_life hs hr h hq.q (fun p => by rw [hq.pstat]) ?_ hq.nextpid
    funext c
    simp [board, hq.frame]
  | start c p hc hp =>
    rcases hs.returnProc_cases with ⟨hn, -⟩ | ⟨p', l₁, l₂, hp', hq, hrun, hno, hs', hb, hrq⟩
    · rw [hn] at hp
      cases hp
    obtain rfl : p' = p := Option.some.inj (hp'.symm.trans hp)
    refine ⟨hs', ?_⟩
    have hb' : (s.returnProc.2.startSlice c p').board = { s.board with
        queue := update s.board.queue s.returnQueue (bringFront l₁ p' l₂)
        slice := update s.board.slice c (some (p', s.returnQueue)) } := by
      apply Board.ext
      · simp [board, startSlice]
      · simp [board, startSlice]
      · simp [board, startSlice]
      · exact hb
      · rw [startSlice, slice_setCtl, hrq]
        simp [board, Ctl.frame]
    rw [hb']
    refine .start c _ l₁ p' l₂ hq hrun hno ?_ fun d k hd => ?_
    · exact ne_of_eq_of_ne hrun (by decide)
    · -- the process would be in two slices afterwards
      obtain ⟨g, hg, he⟩ := Option.map_eq_some_iff.mp hd
      obtain ⟨hgp, -⟩ := Prod.mk.inj he
      have hdc : d ≠ c := by
        rintro rfl
        simp [hc, Ctl.frame] at hg
      have hnew : ((s.returnProc.2.startSlice c p').cpu c).ctl.frame =
          some ⟨p', s.returnProc.2.returnQueue, (s.returnProc.2.proc p').priority, 0⟩ := by
        simp [startSlice, Ctl.frame]
      exact hdc (hr'.frame_apart (by simpa [startSlice, hdc] using hg) hnew hgp)
  | skip c i hc =>
    have hslice : (s.returnProc.2.setCtl c (.scan (i + 1))).board.slice = s.board.slice :=
      slice_setCtl_eq (by simp) hc rfl
    rcases hs.returnProc_cases with ⟨-, hq⟩ | ⟨p, l₁, l₂, -, hq, hrun, hno, hs', hb, -⟩
    · exact board_life hs hr h hq (by simp) hslice (by simp)
    · refine ⟨hs', ?_⟩
      have hb' : (s.returnProc.2.setCtl c (.scan (i + 1))).board = { s.board with
          queue := update s.board.queue s.returnQueue (bringFront l₁ p l₂) } := by
        apply Board.ext
        · simp [board]
        · simp [board]
        · simp [board]
        · exact hb
        · exact hslice
      rw [hb']
      exact .swap _ l₁ p l₂ hq hrun hno
  | dispatch c f hc hg =>
    exact board_life hs hr h (dispatch_q s c f) (dispatch_priority s c f)
      (slice_setCtl_eq (fun d => s.ctl_setCur c d _) hc rfl) rfl
  | back c f hc =>
    exact board_life hs hr h (afterSwtch_q s c f) (afterSwtch_priority s c f)
      (slice_setCtl_eq (fun d => s.ctl_setCur c d _) hc rfl) rfl
  | finish c f hc hg =>
    cases hm : s.sliceMove f with
    | none =>
      obtain ⟨hs', hb⟩ := board_finish_stay hs c hm
      rw [hb]
      exact ⟨hs', .stay c⟩
    | some jk =>
      obtain ⟨hs', hb⟩ := board_finish_move hs hk hc hg hm hroom
      rw [hb]
      exact ⟨hs', .move c f.p f.queue jk.1 jk.2 (slice_of_ctl hc) (sliceMove_mem hs hk hc hm)⟩
  | claim c f np hc hl hn =>
    have hpid : (s.proc np).pid ≤ 0 := by simpa [reusesLeftover, hn] using hleft
    have hend := (hs 0).endIdx
    have hlt : (s.q 0).endIdx < NPROC := by simpa [overflows, appendsTo, hn] using hroom
    have hunused := findUnused_some hn
    obtain ⟨hs', hqueue⟩ := sound_of_holds
      (s := (s.claimSlot np).setForking f.p (some (.alloced, np)))
      (l := enqueue s.board.queue 0 np)
      (by simpa [claimSlot_q s hpid] using holds_enqueue hs (by omega) np)
    refine ⟨hs', ?_⟩
    have hb : ((s.claimSlot np).setForking f.p (some (.alloced, np))).board = { s.board with
        alive := fun r => r = np ∨ s.board.alive r
        level := update s.board.level np 0
        queue := enqueue s.board.queue 0 np } := by
      apply Board.ext
      · funext r
        by_cases hr : r = np
        · subst hr; simp [board, claimSlot_proc_self]
        · simp [board, claimSlot_proc_ne s hr, hr]
      · funext r
        by_cases hr : r = np
        · subst hr; simp [board, claimSlot_proc_self, hunused]
        · simp [board, claimSlot_proc_ne s hr]
      · funext r
        by_cases hr : r = np
        · subst hr; simp [board, claimSlot_proc_self, hpr]
        · simp [board, claimSlot_proc_ne s hr, hr]
      · exact hqueue
      · simp [board, claimSlot_toMachine]
    rw [hb]
    exact .claim np (by simp [board, hunused])

end Kernel
end Xv6Mlfq
