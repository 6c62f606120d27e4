import Xv6Mlfq.Sched.Membership

/-!
# Indices into the run queues

No function checks an index into `queue[NPROC]`.  `addQueue` writes at `end`, and the
shift of `deleteQueue` reads one cell past the last entry, so a queue that is to be
shortened must not be full.  The number of entries of all queues together never
decreases — a reaped slot keeps its entries — and each `allocproc` adds one.

## Main results

* `queue_indices_in_bounds` — a run that hands out fewer than `NPROC` pids and never takes
  a slot left behind by a failed `fork` uses only indices below `NPROC`.
-/

namespace Xv6Mlfq

open Function (update_self)

variable {n : ℕ}

/-! ## The indices each function uses -/

/-- Every index into a run queue is that of a cell. -/
def InRange (us : List Use) : Prop := ∀ i, Use.queue i ∈ us → 0 ≤ i ∧ i < NPROC

theorem inRange_append {us vs : List Use} : InRange (us ++ vs) ↔ InRange us ∧ InRange vs := by
  constructor
  · exact fun h => ⟨fun i hi => h i (List.mem_append_left _ hi),
      fun i hi => h i (List.mem_append_right _ hi)⟩
  · exact fun h i hi => (List.mem_append.mp hi).elim (h.1 i) (h.2 i)

theorem inRange_of_not_mem {us : List Use} (h : ∀ i, Use.queue i ∉ us) : InRange us :=
  fun i hi => absurd hi (h i)

/-- A search stops at `end`. -/
theorem inRange_search (test : Option Slot → Bool) (a : CArray (Option Slot) NPROC) {e : ℤ}
    (he : e ≤ NPROC) : InRange ((a.searchUses test e).map .queue) := by
  intro i hi
  have hmem : i ∈ a.searchUses test e := by simpa using hi
  have := CArray.mem_searchUses hmem
  omega

namespace Kernel

variable {s : Kernel n}

theorem inRange_hasRunnableUses {k : Level} (he : (s.q k).endIdx ≤ NPROC) :
    InRange (s.hasRunnableUses k) := by
  simp only [hasRunnableUses]
  split_ifs
  · exact inRange_search _ _ he
  · exact inRange_of_not_mem (by simp)

theorem inRange_returnQueueUses (he : ∀ k, (s.q k).endIdx ≤ NPROC) : InRange s.returnQueueUses := by
  have hnil : InRange [] := inRange_of_not_mem (by simp)
  have hk := fun k => inRange_hasRunnableUses (he k)
  simp only [returnQueueUses, inRange_append]
  refine ⟨hk 0, ?_⟩
  split_ifs
  · exact hnil
  · exact inRange_append.mpr ⟨hk 1, hnil⟩
  · exact inRange_append.mpr ⟨hk 1, hk 2⟩

theorem inRange_returnProc (he : ∀ k, (s.q k).endIdx ≤ NPROC)
    (hs : InRange s.uses) : InRange s.returnProc.2.uses := by
  have hq := inRange_append.mpr ⟨hs, inRange_returnQueueUses he⟩
  have hsearch : ∀ us, InRange (((s.q s.returnQueue).queue.searchUses (s.use us).isRunnable
      (s.q s.returnQueue).endIdx).map .queue) := fun us => inRange_search _ _ (he _)
  have hend := he s.returnQueue
  simp only [returnProc]
  split_ifs with h₁ h₂ h₃
  · exact hq
  · refine inRange_append.mpr ⟨inRange_append.mpr ⟨hq, hsearch _⟩, ?_⟩
    intro i hi
    simp only [List.mem_cons, Use.queue.injEq, List.not_mem_nil, or_false] at hi
    omega
  · refine inRange_append.mpr ⟨inRange_append.mpr ⟨hq, hsearch _⟩, ?_⟩
    intro i hi
    simp only [List.mem_cons, Use.queue.injEq, List.not_mem_nil, or_false] at hi
    omega
  · exact inRange_append.mpr ⟨hq, hsearch _⟩

/-- The cell at `end` is written, hence the strict bound. -/
theorem inRange_addQueue {k : Level} (p : Slot) (h₀ : 0 ≤ (s.q k).endIdx)
    (h : (s.q k).endIdx < NPROC) (hs : InRange s.uses) : InRange (s.addQueue k p).uses := by
  refine inRange_append.mpr ⟨hs, fun i hi => ?_⟩
  obtain rfl : i = (s.q k).endIdx := by simpa using hi
  exact ⟨h₀, h⟩

/-- The shift reads `queue[end]`, hence the strict bound. -/
theorem inRange_deleteQueue {k : Level} (p : Slot) (h : (s.q k).endIdx < NPROC)
    (hs : InRange s.uses) : InRange (s.deleteQueue k p).uses := by
  simp only [deleteQueue, use_uses, setQ_uses, List.map_append]
  refine inRange_append.mpr ⟨hs, inRange_append.mpr ⟨inRange_search _ _ h.le, fun i hi => ?_⟩⟩
  have hbounds := CArray.shiftFromUses_bounds _ _ i (by simpa using hi)
  -- the search stops at `end` at the latest
  have hstop : s.deleteIndex k p ≤ (s.q k).endIdx.toNat := by
    rw [deleteIndex_eq]
    exact (List.idxOf_le_length).trans_eq (CArray.length_window _ _)
  have hpos : (0 : ℤ) < NPROC := by decide
  omega

theorem inRange_dispatch (c : Fin n) (f : Frame) (hs : InRange s.uses) :
    InRange (s.dispatch c f).uses := by
  refine inRange_append.mpr ⟨hs, inRange_of_not_mem (by simp)⟩

theorem inRange_afterSwtch (c : Fin n) (f : Frame) (hs : InRange s.uses) :
    InRange (s.afterSwtch c f).uses := by
  simp only [afterSwtch, updatePstat, use_uses, modify_uses, setCur_uses, inRange_append]
  refine ⟨⟨⟨hs, inRange_of_not_mem ?_⟩, inRange_of_not_mem ?_⟩, inRange_of_not_mem ?_⟩
  · simp
  · simp
  · simp

/-- The indices of a move do not depend on the processes. -/
theorem move_modify_uses (s : Kernel n) (r p : Slot) (g : Proc → Proc) (j k : Level) :
    (((s.modify r g).deleteQueue j p).addQueue k p).uses =
      ((s.deleteQueue j p).addQueue k p).uses := by
  simp only [addQueue, deleteQueue, deleteIndex, use_uses, modify_uses, setQ_uses, use_q, setQ_q,
    modify_q]

theorem inRange_sliceEnd {f : Frame} (hs : InRange s.uses) (h : ∀ j k, s.sliceMove f = some (j, k) →
      InRange ((s.deleteQueue j f.p).addQueue k f.p).uses) : InRange (s.sliceEnd f).uses := by
  simp only [sliceEnd, sliceMove, modify_proc, modify_q, degrade, update_self] at h ⊢
  split_ifs at h ⊢
  · rw [move_modify_uses, move_modify_uses]
    exact h 0 1 rfl
  · rw [move_modify_uses, move_modify_uses]
    exact h 1 2 rfl
  · exact hs
  · simp only [boost, use_uses, modify_uses, move_modify_uses]
    exact inRange_append.mpr ⟨h 2 0 rfl, inRange_of_not_mem (by simp)⟩
  · rw [move_modify_uses, move_modify_uses]
    exact h f.queue f.queue rfl
  · exact hs

end Kernel

/-! ## Runs with few processes -/

/-- A `fork` that finds a slot is made while fewer than `NPROC` pids have been handed out,
and the slot was not left behind by a failed `fork`. -/
def Kernel.claimsInBounds (s : Kernel n) : Label n → Bool
  | .forkAlloc _ => s.findUnused.all fun np => s.nextpid < NPROC && (s.proc np).pid ≤ 0
  | _ => true

/-- The invariant: each pid that was handed out accounts for one entry. -/
structure Accounted (s : Kernel n) : Prop extends Enrolled s where
  size : (Multilevel.size s.board.queue : ℤ) + 1 = s.nextpid
  few : s.nextpid ≤ NPROC
  uses : InRange s.uses

/-- Pids start at 1, so no queue is full. -/
theorem Accounted.endIdx_lt {s : Kernel n} (h : Accounted s) (k : Level) :
    0 ≤ (s.q k).endIdx ∧ (s.q k).endIdx < NPROC := by
  have hlen := Multilevel.length_le_size s.board.queue k
  have hsize := h.size
  have hfew := h.few
  have hend := (h.sound k).endIdx
  omega

/-- A pid is handed out exactly when a process is created. -/
theorem step_nextpid {s s' : Kernel n} {l : Label n} (h : step l s = some s') :
    s'.nextpid = s.nextpid ∨
    ∃ c np, l = .forkAlloc c ∧ s.findUnused = some np ∧ (s'.proc np).state ≠ .UNUSED ∧
      s'.nextpid = s.nextpid + 1 := by
  cases step_effect h with
  | quiet _ _ hq => exact .inl hq.nextpid
  | start c p hc hp => exact .inl (by simp [Kernel.startSlice])
  | skip c i hc => exact .inl (by simp)
  | dispatch c f hc hg => exact .inl rfl
  | back c f hc => exact .inl rfl
  | finish c f hc hg => exact .inl (by simp)
  | claim c f np hc hl hn =>
    exact .inr ⟨c, np, rfl, hn, by simp [Kernel.claimSlot_proc_self],
      by simp [Kernel.claimSlot_toMachine]⟩

theorem claimsInBounds_forkAlloc {s : Kernel n} {c : Fin n} {np : Slot}
    (h : s.claimsInBounds (.forkAlloc c) = true) (hn : s.findUnused = some np) :
    s.nextpid < NPROC ∧ (s.proc np).pid ≤ 0 := by
  simpa [Kernel.claimsInBounds, hn] using h

theorem Accounted.inRange_step {s s' : Kernel n} {l : Label n} (h : Accounted s)
    (hs : step l s = some s') (hc : s.claimsInBounds l = true) : InRange s'.uses := by
  have hend := fun k => (h.endIdx_lt k).2.le
  cases step_effect hs with
  | quiet _ _ hq => exact hq.uses ▸ h.uses
  | start c p hc hp =>
    exact inRange_append.mpr ⟨Kernel.inRange_returnProc hend h.uses,
      Kernel.inRange_returnQueueUses (by simpa using hend)⟩
  | skip c i hc => exact Kernel.inRange_returnProc hend h.uses
  | dispatch c f hc hg => exact Kernel.inRange_dispatch c f h.uses
  | back c f hc => exact Kernel.inRange_afterSwtch c f h.uses
  | finish c f hcpu hg =>
    refine Kernel.inRange_sliceEnd h.uses fun j k hm => ?_
    -- the process is in the queue it is removed from, so that queue is not empty
    have hmem := Kernel.sliceMove_mem h.sound h.kept hcpu hm
    have hpos : 0 < (s.q j).endIdx := by
      rw [(h.sound j).endIdx]
      exact_mod_cast List.length_pos_of_mem hmem
    have hj := h.endIdx_lt j
    have hk := h.endIdx_lt k
    have hdel := Kernel.inRange_deleteQueue f.p hj.2 h.uses
    by_cases hjk : k = j
    · subst hjk
      refine Kernel.inRange_addQueue f.p ?_ ?_ hdel <;> rw [Kernel.endIdx_deleteQueue] <;> omega
    · refine Kernel.inRange_addQueue f.p ?_ ?_ hdel <;>
        rw [Kernel.deleteQueue_q_ne _ _ hjk] <;> omega
  | claim c f np hcpu hl hn =>
    have huses : ((s.claimSlot np).setForking f.p (some (.alloced, np))).uses =
        (s.addQueue 0 np).uses := s.claimSlot_uses (claimsInBounds_forkAlloc hc hn).2
    rw [huses]
    exact Kernel.inRange_addQueue np (h.endIdx_lt 0).1 (h.endIdx_lt 0).2 h.uses

/-- A pid and an entry come with each other. -/
theorem Accounted.step {s s' : Kernel n} {l : Label n} (h : Accounted s)
    (hs : step l s = some s') (hc : s.claimsInBounds l = true) : Accounted s' := by
  have hleft : s.reusesLeftover l = false := by
    cases l with
    | forkAlloc c =>
      simp only [Kernel.reusesLeftover]
      cases hn : s.findUnused with
      | none => rfl
      | some np => simpa using (claimsInBounds_forkAlloc hc hn).2
    | _ => rfl
  have hroom : s.overflows l = false := by
    simp only [Kernel.overflows]
    cases s.appendsTo l with
    | none => rfl
    | some k => simpa using (h.endIdx_lt k).2
  obtain ⟨-, hb⟩ := Kernel.board_step h.reached h.sound h.kept hs hleft hroom
  have hsize := h.size
  have hfew := h.few
  have henr := h.toEnrolled.step hs hleft hroom
  have huses := h.inRange_step hs hc
  rcases step_nextpid hs with hpid | ⟨c, np, rfl, hn, hnew, hpid⟩
  · have : Multilevel.size s'.board.queue = Multilevel.size s.board.queue := by
      rcases hb.size with ⟨-, hsize⟩ | ⟨⟨p, hp, hp'⟩, -⟩
      · exact hsize
      · exact absurd (alive_of_nextpid_eq h.reached hs hpid hp') hp
    exact ⟨henr, by rw [this, hpid, hsize], by rw [hpid]; exact hfew, huses⟩
  · have : Multilevel.size s'.board.queue = Multilevel.size s.board.queue + 1 := by
      rcases hb.size with ⟨hno, -⟩ | ⟨-, hsize⟩
      · exact absurd (Kernel.findUnused_some hn) (hno np hnew)
      · exact hsize
    have hlt := (claimsInBounds_forkAlloc hc hn).1
    exact ⟨henr, by rw [this, hpid]; push_cast; omega, by rw [hpid]; omega, huses⟩

theorem accounted_boot : Accounted (boot n) where
  toEnrolled := enrolled_boot
  size := by
    rw [queue_boot, Multilevel.size_enqueue]
    rfl
  few := by
    have : (boot n).nextpid = 2 := rfl
    rw [this]
    decide
  uses := by
    intro i hi
    have huses : (boot n).uses = [.queue 0] := rfl
    rw [huses] at hi
    obtain rfl : i = 0 := by simpa using hi
    decide

/-- **Every index into a run queue is in range** in a run that never takes a slot left
behind by a failed `fork` and creates processes only while fewer than `NPROC` pids have
been handed out; the queues do not even become full. -/
theorem queue_indices_in_bounds (ls : List (Label n)) (s : Kernel n)
    (hx : Transition.exec step ls (boot n) = some s)
    (hC : Transition.Along step (fun s l => s.claimsInBounds l = true) ls (boot n)) :
    (∀ i, Use.queue i ∈ s.uses → 0 ≤ i ∧ i < NPROC) ∧
      ∀ k, 0 ≤ (s.q k).endIdx ∧ (s.q k).endIdx < NPROC := by
  have h : Accounted s := Transition.along_invariant hx hC accounted_boot
    fun s l s' hs hc hstep => hs.step hstep hc
  exact ⟨h.uses, h.endIdx_lt⟩

theorem queue_indices_in_bounds_fork : ∃ s : Kernel 1,
    Transition.exec step (switchToInit ++ forkSucceeds) (boot 1) = some s ∧
      ∀ i, Use.queue i ∈ s.uses → 0 ≤ i ∧ i < NPROC := by
  obtain ⟨s, hx, -⟩ := exists_run (switchToInit ++ forkSucceeds) (fun _ => True)
    (by decide +kernel)
  exact ⟨s, hx, (queue_indices_in_bounds _ s hx (by decide +kernel)).1⟩

/-- When init is alone, the three `deleteQueue` calls after a failed `fork` bring `end`
to -1, and `addQueue` writes there. -/
theorem queue_index_negative_after_failed_fork : ∃ s : Kernel 1,
    Reached s ∧ Use.queue (-1) ∈ s.uses := by
  obtain ⟨s, hx, hmem⟩ := exists_run (switchToInit ++ forkFails ++ [.forkAlloc 0])
    (fun s => Use.queue (-1) ∈ s.uses) (by decide +kernel)
  exact ⟨s, ⟨_, hx⟩, hmem⟩

end Xv6Mlfq
