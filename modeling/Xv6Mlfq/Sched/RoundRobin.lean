import Xv6Mlfq.Sched.Membership

/-!
# Round robin inside a level

A process that ends its slice should not get another one at the same level before those
that wait there.  `returnProc` takes the first `RUNNABLE` entry of a queue, so the question
is where the end of a slice leaves the process: a demotion, a boost and a sleep put it at
the end of a queue, behind everybody (`Multilevel.Ahead`).  A slice that was used up in `q2`
leaves it in front.

## Main definitions

* `Waits` — one process ends a slice and another one waits in the same queue from then on.
* `Kernel.endsInTurn` — the end of the slice puts the process at the end of a queue.
* `Behind` — the invariant: the one that waits is ahead.
-/

namespace Xv6Mlfq

open Transition (exec Along)
open Multilevel (Ahead)

variable {n : ℕ}

/-- CPU `c` ends the slice `f` in `s`; the process `B` is in the queue of that slice and
stays `RUNNABLE` through the steps `ls` that follow and lead to `t`, none of which starts a
slice on it. -/
structure Waits (s : Kernel n) (c : Fin n) (f : Frame) (B : Slot) (ls : List (Label n))
    (t : Kernel n) : Prop where
  slice : (s.cpu c).ctl = .slice f
  ends : ¬ s.sliceGoesOn f
  other : B ≠ f.p
  listed : some B ∈ (s.q f.queue).entries
  run : exec step (.loop c :: ls) s = some t
  waiting : Along step (fun u l => (u.proc B).state = .RUNNABLE ∧ u.startsSlice l ≠ some B)
    (.loop c :: ls) s
  runnable : (t.proc B).state = .RUNNABLE

/-- The process of the slice `f` has one entry in all three queues, and the end of the slice
does not find it `RUNNABLE` at priority 2 with `Ticks` below 50. -/
def Kernel.endsInTurn (s : Kernel n) (f : Frame) : Prop :=
  (s.q f.queue).entries.count (some f.p) = 1 ∧
  (∀ k, k ≠ f.queue → some f.p ∉ (s.q k).entries) ∧
  ((s.proc f.p).state = .RUNNABLE → (s.proc f.p).priority = 2 → 50 ≤ (s.proc f.p).Ticks)

instance (s : Kernel n) (f : Frame) : Decidable (s.endsInTurn f) :=
  inferInstanceAs (Decidable (_ ∧ _ ∧ _))

/-! ## The end of the slice -/

variable {s : Kernel n} {k : Level} {B : Slot}

/-- The end of the slice moves the process away from its queue, unless it has exited. -/
theorem Enrolled.sliceMove_of_endsInTurn (h : Enrolled s) {c : Fin n}
    {f : Frame} (hc : (s.cpu c).ctl = .slice f) (hf : s.endsInTurn f) :
    (s.proc f.p).state = .ZOMBIE ∨ ∃ k, s.sliceMove f = some (f.queue, k) := by
  have hslice : s.board.slice c = some (f.p, f.queue) := Kernel.slice_of_ctl hc
  -- its only entry is in the queue of its priority
  have hprio : (s.proc f.p).priority = f.queue := by
    by_contra hne
    exact hf.2.1 _ hne (h.sound.mem_iff.mpr (h.kept.enrolled f.p (h.kept.alive c _ _ hslice)))
  have hpr : (s.q f.queue).priority = f.queue := (h.sound f.queue).priority
  rcases (h.reached.slice_stopped hc).2 with hst | hst | hst
  · right
    have hturn := hf.2.2 hst
    simp only [Kernel.sliceMove, hst, hprio, hpr] at hturn ⊢
    generalize f.queue = k at hturn ⊢
    have hlevel : ∀ k : Level, k = 0 ∨ k = 1 ∨ k = 2 := by decide
    rcases hlevel k with rfl | rfl | rfl
    · exact ⟨1, rfl⟩
    · exact ⟨2, rfl⟩
    · exact ⟨0, by simp [hturn rfl]⟩
  · exact .inr ⟨f.queue, by simp [Kernel.sliceMove, hst]⟩
  · exact .inl hst

/-- A process that has moved to the end of a queue is behind everybody in the queue that it
comes from. -/
theorem ahead_move {q : Level → List Slot} {j : Level} {p r : Slot} (hp : (q j).count p = 1)
    (hr : r ∈ q j) (hne : r ≠ p) :
    Ahead r p (Multilevel.enqueue (Multilevel.dequeue q j p) k p j) := by
  apply Ahead.enqueue
  have hmem : r ∈ (q j).erase p := (List.mem_erase_of_ne hne).mpr hr
  have hgone : p ∉ (q j).erase p := by
    rw [← List.count_eq_zero, List.count_erase_self, hp]
  rw [Multilevel.dequeue, Function.update_self]
  obtain ⟨l₁, l₂, he⟩ := List.append_of_mem hmem
  rw [he] at hgone ⊢
  exact ⟨l₁, l₂, rfl, fun h => hgone (List.mem_append_left _ h)⟩

/-! ## The invariant -/

/-- The process with pid `a` in slot `A` has exited, or `B` is ahead of it in queue `k`. -/
structure Behind (A : Slot) (a : ℤ) (B : Slot) (k : Level) (s : Kernel n) : Prop
    extends Enrolled s where
  free : ∀ c j, s.board.slice c ≠ some (B, j)
  pos : 0 < a
  old : a < s.nextpid
  ahead : (s.proc A).pid = a → (s.proc A).state = .ZOMBIE ∨ Ahead B A (s.board.queue k)

theorem behind_of_ended (h : Enrolled s) {c : Fin n} {f : Frame}
    (hc : (s.cpu c).ctl = .slice f) (hg : ¬ s.sliceGoesOn f) (hf : s.endsInTurn f)
    (hne : B ≠ f.p) (hB : some B ∈ (s.q f.queue).entries)
    (hrun : (s.proc B).state = .RUNNABLE) (hroom : s.overflows (.loop c) = false) :
    Behind f.p (s.proc f.p).pid B f.queue ((s.sliceEnd f).setCtl c (.scan (f.p + 1))) := by
  have hs : step (.loop c) s = some ((s.sliceEnd f).setCtl c (.scan (f.p + 1))) := by
    simp [step, hc, hg]
  have hslice : (s.cpu c).ctl.frame = some f := by rw [hc]; rfl
  have hlock : s.lock = some c := (h.reached.slice_stopped hc).1
  refine ⟨h.step hs rfl hroom, ?_, h.reached.pid_pos _ (h.reached.frame_used hslice), ?_, ?_⟩
  · -- another CPU could only have `B` while it runs
    intro d j hd
    rw [(Kernel.board_finish_life s c f).2.2] at hd
    have hdc : d ≠ c := by
      rintro rfl
      simp at hd
    rw [Function.update_of_ne hdc] at hd
    obtain ⟨g, hgd, he⟩ := Option.map_eq_some_iff.mp hd
    obtain ⟨rfl, -⟩ := Prod.mk.inj he
    rcases h.reached.frame_cases hgd with ⟨-, hr⟩ | ⟨hl, -⟩
    · rw [hrun] at hr
      cases hr
    · exact hdc (Option.some.inj (hl.symm.trans hlock))
  · simpa using h.reached.pid_lt.2 f.p
  · intro _
    rcases h.sliceMove_of_endsInTurn hc hf with hz | ⟨k, hm⟩
    · exact .inl (by simpa using hz)
    · right
      rw [(Kernel.board_finish_move h.sound h.kept hc hg hm hroom).2]
      refine ahead_move ?_ (h.sound.mem_iff.mp hB) hne
      have hcount := hf.1
      rw [(h.sound f.queue).entries,
        List.count_map_of_injective _ _ (Option.some_injective _)] at hcount
      exact hcount

theorem Behind.step {A : Slot} {a : ℤ} {s' : Kernel n} {l : Label n}
    (h : Behind A a B k s) (hs : step l s = some s') (hB : (s.proc B).state = .RUNNABLE)
    (hstart : s.startsSlice l ≠ some B) (hleft : s.reusesLeftover l = false)
    (hroom : s.overflows l = false) : Behind A a B k s' := by
  obtain ⟨-, hb⟩ := Kernel.board_step h.reached h.sound h.kept hs hleft hroom
  refine ⟨h.toEnrolled.step hs hleft hroom, ?_, h.pos, ?_, ?_⟩
  · intro c j hc
    obtain ⟨f, hf, he⟩ := Option.map_eq_some_iff.mp hc
    obtain ⟨rfl, rfl⟩ := Prod.mk.inj he
    rcases step_frame hs hf with ⟨g, hg, hp, -⟩ | hp
    · exact h.free c g.queue (by simp [Kernel.board, hg, hp])
    · exact hstart hp
  · exact h.old.trans_le (step_nextpid_le hs)
  · intro hpid
    have hlife := step_life h.reached hs A
    by_cases hsame : (s.proc A).pid = a
    · rcases h.ahead hsame with hz | ha
      · left
        rw [hz, hpid] at hlife
        generalize (s'.proc A).state = x at hlife ⊢
        cases hlife with
        | keep => rfl
        | reap => exact absurd h.pos (lt_irrefl 0)
      · exact .inr (ha.step hb hB h.free)
    · -- a new pid is none that was handed out before
      exfalso
      rw [hpid] at hlife
      have hpos := h.pos
      have hold := h.old
      generalize (s.proc A).pid = i, (s.proc A).state = x, (s'.proc A).state = y
        at hlife hsame
      cases hlife with
      | claim => omega
      | reap => omega
      | _ => exact hsame rfl

theorem startsSlice_eq_some {l : Label n} {p : Slot}
    (h : s.startsSlice l = some p) : s.returnProc.1 = some p := by
  cases l with
  | scan c =>
    simp only [Kernel.startsSlice] at h
    split at h
    · exact (Option.filter_eq_some_iff.mp h).1
    · cases h
  | _ => cases h

/-- `returnProc` passes over a process that is behind. -/
theorem Behind.startsSlice_ne {A : Slot} {a : ℤ}
    (h : Behind A a B k s) (hne : B ≠ A) (hB : (s.proc B).state = .RUNNABLE)
    (hk : s.returnQueue = k) (hpid : (s.proc A).pid = a) (l : Label n) :
    s.startsSlice l ≠ some A := by
  intro hl
  have hsel := startsSlice_eq_some hl
  rcases h.ahead hpid with hz | ha
  · rw [Kernel.returnProc_runnable hsel] at hz
    cases hz
  · rcases h.sound.returnProc_cases with ⟨hn, -⟩ | ⟨p, l₁, l₂, hp, hq, -, hno, -⟩
    · rw [hn] at hsel
      cases hsel
    · obtain rfl : p = A := Option.some.inj (hp.symm.trans hsel)
      rw [← hk, hq] at ha
      have hready : s.board.ready B := hB
      obtain ⟨-, he | ⟨he, -⟩⟩ := ha.first_ready hready hno
      · exact hne he.symm
      · exact he rfl

/-! ## Round robin -/

/-- **Round robin.**  Let a process end a slice such that the end of the slice puts it at
the end of a queue, in a run that never takes a slot left behind by a failed `fork` and
never appends to a full queue.  While another process of the same queue waits, no slice
starts on the first one at the level of the slice that ended. -/
theorem round_robin (ls₁ ls₂ : List (Label n)) (s t : Kernel n) (c : Fin n) (f : Frame)
    (B : Slot) (hx : exec step ls₁ (boot n) = some s) (hw : Waits s c f B ls₂ t)
    (hC : Along step (fun s l => s.reusesLeftover l = false ∧ s.overflows l = false)
      (ls₁ ++ .loop c :: ls₂) (boot n))
    (hf : s.endsInTurn f) :
    ∀ l, t.startsSlice l = some f.p → t.returnQueue = f.queue →
      (t.proc f.p).pid ≠ (s.proc f.p).pid := by
  obtain ⟨hC₁, hC₂⟩ := (Transition.along_append hx).mp hC
  have hs : Enrolled s := enrolled_of_run hx hC₁
  have hstep : step (.loop c) s = some ((s.sliceEnd f).setCtl c (.scan (f.p + 1))) := by
    simp [step, hw.slice, hw.ends]
  have hrun := hw.run
  rw [Transition.exec_cons, hstep, Option.bind_some] at hrun
  have hbase := behind_of_ended hs hw.slice hw.ends hf hw.other hw.listed hw.waiting.1.1 hC₂.1.2
  have hall : Along step (fun u l => ((u.proc B).state = .RUNNABLE ∧
      u.startsSlice l ≠ some B) ∧ u.reusesLeftover l = false ∧ u.overflows l = false) ls₂ _ :=
    (hw.waiting.2 _ hstep).and (hC₂.2 _ hstep)
  have ht : Behind f.p (s.proc f.p).pid B f.queue t :=
    Transition.along_invariant hrun hall hbase
      fun s l s' hi hc hstep => hi.step hstep hc.1.1 hc.1.2 hc.2.1 hc.2.2
  intro l hl hk hpid
  exact ht.startsSlice_ne hw.other hw.runnable hk hpid l hl

/-! Runs of one CPU with init and its children. -/

/-- The process that runs goes to sleep and the slice is at its end. -/
def sleepsOn (chan : ℕ) : List (Label 1) := [.sleep 0 chan, .back 0]

/-- Init, which has two children, goes to sleep; the first child runs, init is woken up, and
the child goes to sleep. -/
def bothSleep : List (Label 1) :=
  switchToInit ++ forkSucceeds ++ forkSucceeds ++ sleepsOn 7 ++
    [.loop 0, .scan 0, .loop 0, .resume 0, .wakeup 7] ++ sleepsOn 8

/-- The second child runs, and the first one is woken up. -/
def childWakes : List (Label 1) := [.scan 0, .loop 0, .resume 0, .wakeup 8]

/-- What is evaluated to find a process that waits. -/
theorem exists_waits (ls₁ ls₂ : List (Label 1)) (f : Frame) (B : Slot)
    (P : Kernel 1 → Kernel 1 → Prop) [∀ s t, Decidable (P s t)]
    (h : (exec step ls₁ (boot 1)).any (fun s => decide (((s.cpu 0).ctl = .slice f ∧
      ¬ s.sliceGoesOn f ∧ B ≠ f.p ∧ some B ∈ (s.q f.queue).entries ∧
      Along step (fun u l => (u.proc B).state = .RUNNABLE ∧ u.startsSlice l ≠ some B)
        (.loop 0 :: ls₂) s) ∧
      (exec step (.loop 0 :: ls₂) s).any (fun t =>
        decide ((t.proc B).state = .RUNNABLE ∧ P s t)) = true)) = true) :
    ∃ s t, exec step ls₁ (boot 1) = some s ∧ Waits s 0 f B ls₂ t ∧ P s t := by
  obtain ⟨s, hx, hs, ht⟩ := Transition.exists_exec ls₁ _ h
  obtain ⟨t, hrun, hB, hP⟩ := Transition.exists_exec (.loop 0 :: ls₂) _ ht
  exact ⟨s, t, hx, ⟨hs.1, hs.2.1, hs.2.2.1, hs.2.2.2.1, hrun, hs.2.2.2.2, hB⟩, hP⟩

theorem round_robin_sleep : ∃ s t : Kernel 1, exec step bothSleep (boot 1) = some s ∧
    Waits s 0 ⟨1, 0, 0, 1⟩ 0 childWakes t ∧ (t.proc 1).state = .RUNNABLE ∧
    ∀ l, t.startsSlice l ≠ some 1 := by
  obtain ⟨s, t, hx, hw, hf, hrun, hk, hpid⟩ := exists_waits bothSleep childWakes ⟨1, 0, 0, 1⟩ 0
    (fun s t => s.endsInTurn ⟨1, 0, 0, 1⟩ ∧ (t.proc 1).state = .RUNNABLE ∧ t.returnQueue = 0 ∧
      (t.proc 1).pid = (s.proc 1).pid) (by decide +kernel)
  refine ⟨s, t, hx, hw, hrun, fun l hl => ?_⟩
  exact round_robin _ _ s t 0 _ 0 hx hw (by decide +kernel) hf l hl hk hpid

/-- The table is scanned from slot `i` on, and from its start up to slot 0. -/
def nextRound (i : ℕ) : List (Label 1) :=
  List.replicate (65 - i) (.scan 0) ++ [.acquire 0, .scan 0]

/-- Init and a child use up their slices in `q0` and `q1`, and init one in `q2`. -/
def downToQ2 : List (Label 1) :=
  switchToInit ++ forkSucceeds ++ [.yield 0, .back 0, .loop 0, .scan 0] ++ dispatches 1 ++
    [.loop 0] ++ nextRound 2 ++ dispatches 2 ++ [.loop 0, .scan 0] ++ dispatches 2 ++
    [.loop 0] ++ nextRound 2 ++ dispatches 8

set_option maxRecDepth 100000 in
/-- Init starts its second slice in `q2` while its child, which is in `q2` too and is
`RUNNABLE`, has had none. -/
theorem overtaken_in_q2 : ∃ (s t : Kernel 1) (ls : List (Label 1)) (l : Label 1),
    exec step downToQ2 (boot 1) = some s ∧ Waits s 0 ⟨0, 2, 2, 8⟩ 1 ls t ∧
    Along step (fun u _ => ∀ r, (u.proc r).state = .RUNNABLE → (u.proc r).priority = 2)
      (.loop 0 :: ls) s ∧
    t.startsSlice l = some 0 ∧ t.returnQueue = 2 ∧ (t.proc 0).pid = (s.proc 0).pid := by
  obtain ⟨s, t, hx, hw, hcalm, hl, hk, hpid⟩ := exists_waits downToQ2
    (List.replicate 64 (.scan 0) ++ [.acquire 0]) ⟨0, 2, 2, 8⟩ 1
    (fun s t => Along step
        (fun u _ => ∀ r, (u.proc r).state = .RUNNABLE → (u.proc r).priority = 2)
        (.loop 0 :: (List.replicate 64 (.scan 0) ++ [.acquire 0])) s ∧
      t.startsSlice (.scan 0) = some 0 ∧ t.returnQueue = 2 ∧
      (t.proc 0).pid = (s.proc 0).pid) (by decide +kernel)
  exact ⟨s, t, _, .scan 0, hx, hw, hcalm, hl, hk, hpid⟩

end Xv6Mlfq
