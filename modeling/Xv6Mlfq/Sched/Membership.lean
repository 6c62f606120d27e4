import Xv6Mlfq.Sched.Board

/-!
# Who is in the queues

Two readings of the run queues.  *Nobody is lost*: a process that exists has an entry, so
`returnProc` can find it.  *The queues are exact*: no slot is listed twice, none is listed
that is not in use, and each is at its own level.

Neither holds of every run.  `wait` and a failed `fork` give a slot up without removing
its entry, and `allocproc` tries to repair the second case with three calls of
`deleteQueue` on `q0` of which two drop entries of other processes.  The results say
which steps a run must avoid.

## Main results

* `processes_kept` — a run that never takes a slot left by a failed `fork`, and never
  appends to a full queue, loses nobody.
* `queues_exact` — a run in which no slot is given up has exact queues.
-/

namespace Xv6Mlfq

open Multilevel (Kept Exact)

variable {n : ℕ}

/-! ## Boot -/

theorem holds_boot (k : Level) :
    ((boot n).q k).Holds k (Multilevel.enqueue (fun _ => []) 0 0 k) := by
  have hempty : ∀ m, ((default : Kernel n).initQueues.q m).Holds m [] := by
    intro m
    exact ⟨rfl, rfl, rfl, rfl, rfl, by simp⟩
  have hq : (boot n).q = ((default : Kernel n).initQueues.addQueue 0 0).q :=
    Kernel.claimSlot_q _ le_rfl
  rw [hq]
  exact Kernel.holds_enqueue hempty (by simp) 0 k

theorem sound_boot : (boot n).Sound := (Kernel.sound_of_holds holds_boot).1

theorem queue_boot : (boot n).board.queue = Multilevel.enqueue (fun _ => []) 0 0 :=
  (Kernel.sound_of_holds holds_boot).2

theorem kept_boot : Kept (boot n).board where
  enrolled p hp := by
    obtain rfl := eq_zero_of_boot hp
    rw [queue_boot, Multilevel.mem_enqueue]
    exact .inr ⟨rfl, rfl⟩
  alive c p k h := nomatch h
  listed c p k h := nomatch h
  apart c c' p k k' h := nomatch h

theorem exact_boot : Exact (boot n).board where
  nodup k := by
    rw [queue_boot]
    exact Multilevel.nodup_enqueue (fun _ => List.nodup_nil) (by simp) k
  alive k p hp := by
    rw [queue_boot, Multilevel.mem_enqueue] at hp
    obtain ⟨-, rfl⟩ := hp.resolve_left (by simp)
    exact ne_of_eq_of_ne (boot_state 0) (by decide)
  level k p hp := by
    rw [queue_boot, Multilevel.mem_enqueue] at hp
    obtain ⟨rfl, rfl⟩ := hp.resolve_left (by simp)
    rfl

/-! ## Nobody is lost -/

/-- The array and list side of the queues agree, and nobody is lost. -/
structure Enrolled (s : Kernel n) : Prop where
  reached : Reached s
  sound : s.Sound
  kept : Kept s.board

theorem enrolled_boot : Enrolled (boot n) := ⟨.refl _, sound_boot, kept_boot⟩

variable {s : Kernel n}

theorem Enrolled.step {s' : Kernel n} {l : Label n} (h : Enrolled s) (hs : step l s = some s')
    (hleft : s.reusesLeftover l = false) (hroom : s.overflows l = false) : Enrolled s' := by
  obtain ⟨hsound, hb⟩ := Kernel.board_step h.reached h.sound h.kept hs hleft hroom
  exact ⟨h.reached.next hs, hsound, h.kept.step hb⟩

theorem enrolled_of_run {ls : List (Label n)} (hx : Transition.exec step ls (boot n) = some s)
    (hC : Transition.Along step
      (fun s l => s.reusesLeftover l = false ∧ s.overflows l = false) ls (boot n)) : Enrolled s :=
  Transition.along_invariant hx hC enrolled_boot
    fun _ _ _ hs hc hstep => hs.step hstep hc.1 hc.2

/-- A `RUNNABLE` process makes `returnProc` successful. -/
theorem Enrolled.returnProc_isSome (h : Enrolled s) {p : Slot}
    (hp : (s.proc p).state = .RUNNABLE) : ∃ r, s.returnProc.1 = some r := by
  have halive : s.board.alive p := ne_of_eq_of_ne hp (by decide)
  have hhas : s.hasRunnable s.returnQueue = true := Kernel.hasRunnable_returnQueue
    ((h.sound.hasRunnable_iff _).mpr ⟨p, h.kept.enrolled p halive, hp⟩)
  rcases s.returnProc_cases with ⟨hno, -⟩ | ⟨us, r, l₁, l₂, he, -⟩
  · rw [hhas] at hno
    cases hno
  · exact ⟨r, by rw [he]⟩

/-- **No process is lost** in a run that never takes a slot left behind by a failed `fork`
and never appends to a full queue: a process that exists is in a queue, and if it is the
only `RUNNABLE` one then `returnProc` selects it. -/
theorem processes_kept (ls : List (Label n)) (s : Kernel n)
    (hx : Transition.exec step ls (boot n) = some s)
    (hC : Transition.Along step
      (fun s l => s.reusesLeftover l = false ∧ s.overflows l = false) ls (boot n)) :
    (∀ p, (s.proc p).state = .SLEEPING ∨ (s.proc p).state = .RUNNABLE ∨
        (s.proc p).state = .RUNNING → ∃ k, some p ∈ (s.q k).entries) ∧
      ∀ p, (s.proc p).state = .RUNNABLE → (∀ r, (s.proc r).state = .RUNNABLE → r = p) →
        s.returnProc.1 = some p := by
  have h : Enrolled s := enrolled_of_run hx hC
  constructor
  · intro p hp
    have halive : (s.proc p).state ≠ .UNUSED := by
      rcases hp with hp | hp | hp <;> rw [hp] <;> decide
    exact ⟨_, h.sound.mem_iff.mpr (h.kept.enrolled p halive)⟩
  · intro p hp honly
    obtain ⟨r, hr⟩ := h.returnProc_isSome hp
    rw [hr, honly r (Kernel.returnProc_runnable hr)]

/-! A run of one CPU: `scheduler` switches to init, which then makes system calls. -/

/-- CPU 0 switches to the process it finds first. -/
def switchToInit : List (Label 1) := [.acquire 0, .scan 0, .loop 0, .resume 0]

/-- A `fork` in which every allocation succeeds. -/
def forkSucceeds : List (Label 1) :=
  [.forkAlloc 0, .forkStack 0 true, .forkCopy 0 true [true], .forkRun 0]

/-- A `fork` that gets no kernel stack. -/
def forkFails : List (Label 1) := [.forkAlloc 0, .forkStack 0 false]

/-- The process of the slice is dispatched `k` times, each time until the timer interrupt. -/
def dispatches (k : ℕ) : List (Label 1) :=
  (List.replicate k [.loop 0, .resume 0, .yield 0, .back 0]).flatten

/-- The process that runs uses up its slice in `q0`. -/
def usesSliceUp : List (Label 1) := [.yield 0, .back 0, .loop 0]

theorem processes_kept_fork : ∃ s : Kernel 1,
    Transition.exec step (switchToInit ++ forkSucceeds) (boot 1) = some s ∧
      (s.proc 1).state = .RUNNABLE ∧ s.returnProc.1 = some 1 := by
  obtain ⟨s, hx, hrun, honly⟩ := exists_run (switchToInit ++ forkSucceeds)
    (fun s => (s.proc 1).state = .RUNNABLE ∧ ∀ r, (s.proc r).state = .RUNNABLE → r = 1)
    (by decide +kernel)
  exact ⟨s, hx, hrun, (processes_kept _ s hx (by decide +kernel)).2 1 hrun honly⟩

/-- After three children and a failed `fork`, the next `fork` finds the slot the failed
one left.  `allocproc` drops the last two entries of `q0`, and two children are lost. -/
theorem process_lost_after_failed_fork : ∃ (s : Kernel 1) (p : Slot), Reached s ∧
    (s.proc p).state = .RUNNABLE ∧ ∀ k, some p ∉ (s.q k).entries := by
  obtain ⟨s, hx, hrun, hlost⟩ := exists_run
    (switchToInit ++ forkSucceeds ++ forkSucceeds ++ forkSucceeds ++ forkFails ++ [.forkAlloc 0])
    (fun s => (s.proc 2).state = .RUNNABLE ∧ ∀ k, some 2 ∉ (s.q k).entries)
    (by decide +kernel)
  exact ⟨s, 2, ⟨_, hx⟩, hrun, hlost⟩

/-! ## The queues are exact -/

/-- Every slot is at most once in the three queues together, a slot that is not in use in
none of them, and a slot in a queue is at the level of that queue. -/
structure QueuesExact (s : Kernel n) : Prop where
  once : ∀ p, ((s.q 0).entries ++ (s.q 1).entries ++ (s.q 2).entries).count (some p) ≤ 1
  unused : ∀ p, (s.proc p).state = .UNUSED → ∀ k, some p ∉ (s.q k).entries
  level : ∀ p k, some p ∈ (s.q k).entries → (s.proc p).priority = (s.q k).priority

theorem queuesExact_of_exact (hs : s.Sound) (he : Exact s.board) : QueuesExact s where
  once p := by
    have hdisj : ∀ {j k : Level}, j ≠ k → (s.board.queue j).Disjoint (s.board.queue k) :=
      fun hjk r hj hk => hjk ((he.level _ r hj).symm.trans (he.level _ r hk))
    have hnodup : (s.board.queue 0 ++ s.board.queue 1 ++ s.board.queue 2).Nodup := by
      refine List.Nodup.append (List.Nodup.append (he.nodup 0) (he.nodup 1) (hdisj (by decide)))
        (he.nodup 2) ?_
      exact List.disjoint_append_left.mpr ⟨hdisj (by decide), hdisj (by decide)⟩
    have := List.nodup_iff_count_le_one.mp (hnodup.map (Option.some_injective _)) (some p)
    simpa [(hs 0).entries, (hs 1).entries, (hs 2).entries] using this
  unused p hp k hk := he.alive k p (hs.mem_iff.mp hk) hp
  level p k hk := by
    rw [(hs k).priority]
    exact he.level k p (hs.mem_iff.mp hk)

/-- The invariant of a run in which no slot is given up. -/
structure Listed (s : Kernel n) : Prop extends Enrolled s where
  exact : Exact s.board
  fresh : ∀ p, (s.proc p).state = .UNUSED → (s.proc p).pid ≤ 0

theorem listed_boot : Listed (boot n) where
  toEnrolled := enrolled_boot
  exact := exact_boot
  fresh p hp := by
    have hne : p ≠ 0 := by
      rintro rfl
      rw [boot_proc_zero] at hp
      cases hp
    rw [boot_proc_ne hne]
    exact le_rfl

theorem Listed.reusesLeftover (h : Listed s) (l : Label n) : s.reusesLeftover l = false := by
  cases l with
  | forkAlloc c =>
    simp only [Kernel.reusesLeftover]
    cases hn : s.findUnused with
    | none => rfl
    | some np => simpa using h.fresh np (Kernel.findUnused_some hn)
  | _ => rfl

/-- A queue without `p` is not full. -/
theorem Listed.endIdx_lt (h : Listed s) {k : Level} {p : Slot}
    (hp : p ∉ s.board.queue k) : (s.q k).endIdx < NPROC := by
  have hlt := h.exact.length_lt hp
  rw [(h.sound k).endIdx]
  simpa using hlt

theorem Listed.overflows (h : Listed s) (l : Label n) : s.overflows l = false := by
  simp only [Kernel.overflows]
  cases hk : s.appendsTo l with
  | none => rfl
  | some k =>
    have hlt : (s.q k).endIdx < NPROC := by
      rcases Kernel.appendsTo_eq_some hk with ⟨c, np, -, hn, rfl⟩ | ⟨c, f, j, -, hc, hm, hjk⟩
      · exact h.endIdx_lt fun hmem => h.exact.alive 0 np hmem (Kernel.findUnused_some hn)
      · have hj := Kernel.sliceMove_mem h.sound h.kept hc hm
        exact h.endIdx_lt fun hmem =>
          hjk ((h.exact.level j _ hj).symm.trans (h.exact.level k _ hmem))
    simpa using hlt

theorem Listed.step {s' : Kernel n} {l : Label n} (h : Listed s) (hs : step l s = some s')
    (hd : s.discards l = false) : Listed s' := by
  have hleft := h.reusesLeftover l
  have hroom := h.overflows l
  obtain ⟨-, hb⟩ := Kernel.board_step h.reached h.sound h.kept hs hleft hroom
  refine ⟨h.toEnrolled.step hs hleft hroom,
    h.exact.step hb fun p hp => step_alive hs hd hp, fun p hp => ?_⟩
  have hunused : (s.proc p).state = .UNUSED := by
    by_contra hne
    exact step_alive hs hd hne hp
  rcases step_pid hs p with he | ⟨hz, -⟩ | ⟨-, he, -⟩
  · rw [he]
    exact h.fresh p hunused
  · rw [hunused] at hz
    cases hz
  · rw [hp] at he
    cases he

/-- **The queues are exact** in every state of a run in which no `wait` reaps a child and
no `fork` fails after it has taken a slot. -/
theorem queues_exact (ls : List (Label n)) (s : Kernel n)
    (hx : Transition.exec step ls (boot n) = some s)
    (hC : Transition.Along step (fun s l => s.discards l = false) ls (boot n)) :
    QueuesExact s := by
  have h : Listed s := Transition.along_invariant hx hC listed_boot
    fun s l s' hs hd hstep => hs.step hstep hd
  exact queuesExact_of_exact h.sound h.exact

theorem queues_exact_fork : ∃ s : Kernel 1,
    Transition.exec step (switchToInit ++ forkSucceeds) (boot 1) = some s ∧
      QueuesExact s := by
  obtain ⟨s, hx, -⟩ := exists_run (switchToInit ++ forkSucceeds) (fun _ => True)
    (by decide +kernel)
  exact ⟨s, hx, queues_exact _ s hx (by decide +kernel)⟩

/-- **The scheduler is a multilevel queue**: its queues hold the lists of a board, which is changed
by its own moves only. -/
theorem run_refines_board {ls : List (Label n)} {s : Kernel n}
    (hx : Transition.exec step ls (boot n) = some s)
    (hC : Transition.Along step
      (fun s l => s.reusesLeftover l = false ∧ s.overflows l = false) ls (boot n)) :
    Enrolled s ∧ Relation.ReflTransGen (Multilevel.Step 0) (boot n).board s.board := by
  refine Transition.along_invariant (I := fun s => Enrolled s ∧
    Relation.ReflTransGen (Multilevel.Step 0) (boot n).board s.board) hx hC
    ⟨enrolled_boot, .refl⟩ ?_
  rintro s l s' ⟨h, hrun⟩ ⟨hleft, hroom⟩ hs
  obtain ⟨-, hb⟩ := Kernel.board_step h.reached h.sound h.kept hs hleft hroom
  exact ⟨h.step hs hleft hroom, hrun.tail hb⟩

theorem run_refines_board_fork : ∃ s : Kernel 1, Enrolled s ∧
    Relation.ReflTransGen (Multilevel.Step 0) (boot 1).board s.board := by
  obtain ⟨s, hx, -⟩ := exists_run (switchToInit ++ forkSucceeds) (fun _ => True) (by decide +kernel)
  exact ⟨s, run_refines_board hx (by decide +kernel)⟩

/-- The slot of a failed `fork` is not in use and still in `q0`. -/
theorem unused_slot_queued_after_failed_fork : ∃ s : Kernel 1,
    Reached s ∧ s.lock = none ∧ ¬ QueuesExact s := by
  obtain ⟨s, hx, hlock, hunused, hmem⟩ := exists_run (switchToInit ++ forkFails)
    (fun s => s.lock = none ∧ (s.proc 1).state = .UNUSED ∧ some 1 ∈ (s.q 0).entries)
    (by decide +kernel)
  exact ⟨s, ⟨_, hx⟩, hlock, fun h => h.unused 1 hunused 0 hmem⟩

end Xv6Mlfq
