import Xv6Mlfq.Proc.Accounting
import Xv6Mlfq.Sched.Membership

/-!
# Statistics of a reused slot

`allocproc` resets `num_stat_used` of the slot it hands out, and neither it nor `wait` resets
`times`, `ticks` and the durations of the records, to which the scheduler only ever adds.  So
`getpinfo` of a process reports what earlier processes of its slot have left.

The report is a function of what was left and of what happens to the process: the `Event`s of
its slot.  Two runs with the same events give the same report if and only if what was left
is the same (`reports_agree_iff`).

## Main definitions

* `Tally`, `Event`, `Tally.record` — the statistics and how an event changes them.
* `Phase` — in which order the events of a process come.
* `Alike` — two tallies that have grown by the same events.
* `Tenancy` — the life of a process in its slot, up to a call of `getpinfo`.
-/

namespace Xv6Mlfq

open Function (update update_self)
open Transition (exec trace)

/-! ## Tallies -/

/-- The statistics that `getpinfo` reports. -/
@[ext] structure Tally where
  times : Level → ℤ
  ticks : Level → ℤ
  stats : CArray SchedStat NSCHEDSTATS
  used : ℤ

def Proc.tally (x : Proc) : Tally := ⟨x.times, x.ticks, x.stats, x.numStatUsed⟩

/-- What `scheduler` does to the statistics of a process: a dispatch, the return from one,
and the end of a slice. -/
inductive Event
  | dispatch (tick : BitVec 32) (priority : Level)
  | back (tick : BitVec 32)
  | finish (queuepriority : Level) (count : ℤ) (priority : Level) (advances boosted : Bool)
  deriving DecidableEq

def Tally.record (t : Tally) : Event → Tally
  | .dispatch tick k =>
    let x := t.stats.get t.used
    { t with stats := t.stats.set t.used { x with startTick := tick, priority := k } }
  | .back tick =>
    let x := t.stats.get t.used
    { t with
      stats := t.stats.set t.used { x with duration := x.duration + (tick - x.startTick) } }
  | .finish j count k advances boosted =>
    let x := t.stats.get (t.used + 1)
    { times := update t.times k (t.times k + 1)
      ticks := update t.ticks j (t.ticks j + count)
      stats := if boosted then t.stats.set (t.used + 1) { x with priority := 0 } else t.stats
      used := t.used + if advances then 1 else 0 }

/-- The end of a slice after which the next record is used -/
def Event.advances : Event → Bool
  | .finish _ _ _ advances _ => advances
  | _ => false

theorem foldl_record_used (es : List Event) (t : Tally) :
    (es.foldl Tally.record t).used = t.used + es.countP Event.advances := by
  induction es generalizing t with
  | nil => exact (add_zero _).symm
  | cons e es ih =>
    rw [List.foldl_cons, ih, List.countP_cons, Nat.cast_add, add_left_comm, add_comm]
    cases e with
    | finish j count k advances boosted => cases advances <;> simp [Tally.record, Event.advances]
    | _ => simp [Tally.record, Event.advances]

/-- Where a process is between two events: it is not in a slice that has begun, it runs, or it
is back from a dispatch. -/
inductive Phase
  | out | running | stopped
  deriving DecidableEq

/-- A process that runs comes back, and a slice ends only after a dispatch. -/
def Phase.next : Phase → Event → Option Phase
  | .out, .dispatch _ _ | .stopped, .dispatch _ _ => some .running
  | .running, .back _ => some .stopped
  | .stopped, .finish _ _ _ _ _ => some .out
  | _, _ => none

/-- The events may happen in this order. -/
def Phase.Allows : Phase → List Event → Prop
  | _, [] => True
  | x, e :: es => ∃ y, x.next e = some y ∧ y.Allows es

/-! ## Two tallies that grow by the same events -/

/-- The part of a record that a dispatch writes. -/
def SchedStat.head (x : SchedStat) : BitVec 32 × Level := (x.startTick, x.priority)

theorem SchedStat.eq_iff {x y : SchedStat} :
    x = y ↔ x.head = y.head ∧ x.duration = y.duration := by
  cases x
  cases y
  simp [SchedStat.head]
  tauto

/-- `a` has grown from `A` as `b` has from `B`. -/
structure Alike (A B a b : Tally) (x : Phase) : Prop where
  times : ∀ k, a.times k - A.times k = b.times k - B.times k
  ticks : ∀ k, a.ticks k - A.ticks k = b.ticks k - B.ticks k
  used : a.used = b.used
  duration : ∀ i, (a.stats.get i).duration - (A.stats.get i).duration =
    (b.stats.get i).duration - (B.stats.get i).duration
  written : ∀ i, 0 ≤ i → i < a.used → (a.stats.get i).head = (b.stats.get i).head
  open_ : x ≠ .out → (a.stats.get a.used).head = (b.stats.get a.used).head

theorem Alike.refl (A B : Tally) (hA : A.used = 0) (hB : B.used = 0) : Alike A B A B .out where
  times k := by rw [sub_self, sub_self]
  ticks k := by rw [sub_self, sub_self]
  used := hA.trans hB.symm
  duration i := by simp
  written i h₀ h := by omega
  open_ h := absurd rfl h

variable {x : Phase} {A B : Tally} {p : Slot}

/-- Both tallies write the same head to the same record. -/
theorem Alike.dispatch {a b : Tally} (h : Alike A B a b x) (tick : BitVec 32)
    (k : Level) : Alike A B (a.record (.dispatch tick k))
    (b.record (.dispatch tick k)) .running := by
  refine ⟨h.times, h.ticks, h.used, ?_, ?_, ?_⟩
  · intro i
    have ha : ((a.record (.dispatch tick k)).stats.get i).duration =
        (a.stats.get i).duration := CArray.apply_get_set SchedStat.duration _ (by rfl) i
    have hb : ((b.record (.dispatch tick k)).stats.get i).duration =
        (b.stats.get i).duration := CArray.apply_get_set SchedStat.duration _ (by rfl) i
    rw [ha, hb]
    exact h.duration i
  · intro i h₀ hi
    have hne : i ≠ a.used := ne_of_lt hi
    simp only [Tally.record]
    rw [CArray.get_set_ne _ _ hne, CArray.get_set_ne _ _ (h.used ▸ hne)]
    exact h.written i h₀ hi
  · intro _
    simp only [Tally.record, ← h.used]
    by_cases hr : 0 ≤ a.used ∧ a.used < NSCHEDSTATS
    · rw [CArray.get_set_self _ _ hr.1 hr.2, CArray.get_set_self _ _ hr.1 hr.2]
      rfl
    · rw [CArray.get_of_not _ hr, CArray.get_of_not _ hr]

theorem Alike.back {a b : Tally} (h : Alike A B a b .running) (tick : BitVec 32) :
    Alike A B (a.record (.back tick)) (b.record (.back tick)) .stopped := by
  have ha : ∀ i, ((a.record (.back tick)).stats.get i).head = (a.stats.get i).head :=
    CArray.apply_get_set SchedStat.head _ (by rfl)
  have hb : ∀ i, ((b.record (.back tick)).stats.get i).head = (b.stats.get i).head :=
    CArray.apply_get_set SchedStat.head _ (by rfl)
  have hopen := h.open_ (by decide)
  refine ⟨h.times, h.ticks, h.used, ?_, ?_, ?_⟩
  · intro i
    have hdur := h.duration i
    simp only [Tally.record, ← h.used]
    by_cases hi : i = a.used ∧ 0 ≤ a.used ∧ a.used < NSCHEDSTATS
    · obtain ⟨rfl, hr⟩ := hi
      have hstart := (Prod.ext_iff.mp hopen).1
      rw [CArray.get_set_self _ _ hr.1 hr.2, CArray.get_set_self _ _ hr.1 hr.2]
      simp only [SchedStat.head] at hstart ⊢
      rw [hstart]
      bv_omega
    · rw [CArray.get_set, CArray.get_set, if_neg hi, if_neg hi]
      exact hdur
  · intro i h₀ hi
    rw [ha, hb]
    exact h.written i h₀ hi
  · intro _
    rw [ha, hb]
    exact hopen

theorem Alike.finish {a b : Tally} (h : Alike A B a b .stopped) (j : Level) (count : ℤ)
    (k : Level) (advances boosted : Bool) :
    Alike A B (a.record (.finish j count k advances boosted))
      (b.record (.finish j count k advances boosted)) .out := by
  -- at most the priority of the next record changes
  have hstats : ∀ (t : Tally) (i : ℤ),
      ((t.record (.finish j count k advances boosted)).stats.get i).duration =
        (t.stats.get i).duration ∧
      (i ≠ t.used + 1 → ((t.record (.finish j count k advances boosted)).stats.get i).head =
        (t.stats.get i).head) := by
    intro t i
    simp only [Tally.record]
    split_ifs
    · refine ⟨CArray.apply_get_set SchedStat.duration _ (by rfl) i, fun hi => ?_⟩
      rw [CArray.get_set_ne _ _ hi]
    · exact ⟨rfl, fun _ => rfl⟩
  refine ⟨?_, ?_, ?_, ?_, ?_, fun hne => absurd rfl hne⟩
  · intro m
    have := h.times m
    by_cases hm : m = k
    · subst hm
      simp only [Tally.record, update_self]
      omega
    · simpa [Tally.record, hm] using this
  · intro m
    have := h.ticks m
    by_cases hm : m = j
    · subst hm
      simp only [Tally.record, update_self]
      omega
    · simpa [Tally.record, hm] using this
  · simp only [Tally.record, h.used]
  · intro i
    rw [(hstats a i).1, (hstats b i).1]
    exact h.duration i
  · intro i h₀ hi
    have hle : i ≤ a.used := by
      simp only [Tally.record] at hi
      split_ifs at hi <;> omega
    rw [(hstats a i).2 (by omega), (hstats b i).2 (by rw [← h.used]; omega)]
    rcases hle.lt_or_eq with hlt | rfl
    · exact h.written i h₀ hlt
    · exact h.open_ (by decide)

theorem Alike.foldl {es : List Event} : ∀ {a b : Tally} {x : Phase},
    Alike A B a b x → x.Allows es → ∃ y, Alike A B (es.foldl Tally.record a)
      (es.foldl Tally.record b) y := by
  induction es with
  | nil =>
    intro a b x h _
    exact ⟨x, h⟩
  | cons e es ih =>
    intro a b x h hx
    obtain ⟨y, hy, hes⟩ := hx
    have hstep : Alike A B (a.record e) (b.record e) y := by
      cases x <;> cases e <;> cases hy
      · exact h.dispatch _ _
      · exact h.back _
      · exact h.dispatch _ _
      · exact h.finish _ _ _ _ _
    exact ih hstep hes

/-! ## The events of a slot -/

variable {n : ℕ}

/-- What a step does to the statistics of slot `p`. -/
def Kernel.event (p : Slot) (s : Kernel n) : Label n → Option Event
  | .loop c =>
    match (s.cpu c).ctl with
    | .slice f =>
      if f.p = p then
        if s.sliceGoesOn f then some (.dispatch s.ticks (s.proc p).priority)
        else some (.finish f.queuepriority f.count (s.proc p).priority (s.advances f)
          (s.boosted f))
      else none
    | _ => none
  | .back c =>
    match (s.cpu c).ctl with
    | .returned f => if f.p = p then some (.back s.ticks) else none
    | _ => none
  | _ => none

variable {s s' : Kernel n} {l : Label n} {c : Fin n} {ls : List (Label n)}

theorem event_of_quiet (h : step l s = some s')
    (hq : s.Quiet l s') (p : Slot) : s.event p l = none := by
  cases l with
  | loop c => exact absurd rfl (hq.label_ne h c).1
  | back c => exact absurd rfl (hq.label_ne h c).2
  | _ => rfl

/-- While the slot has the same process, its statistics change by the event of the step. -/
theorem step_tally (hr : Reached s) (h : step l s = some s')
    (hpid : (s'.proc p).pid = (s.proc p).pid) :
    (s'.proc p).tally = (s.event p l).toList.foldl Tally.record (s.proc p).tally := by
  cases step_effect h with
  | quiet _ _ hq =>
    rw [event_of_quiet h hq]
    simp [Proc.tally, hq.pstat]
  | start c r hc hp => simp [Kernel.event, Kernel.startSlice]
  | skip c i hc => simp [Kernel.event]
  | dispatch c f hc hg =>
    by_cases hp : f.p = p
    · subst hp
      simp [Kernel.event, hc, hg, Proc.tally, Tally.record, Kernel.dispatch]
    · simp [Kernel.event, hc, hp, Kernel.dispatch_proc_ne s c (Ne.symm hp)]
  | back c f hc =>
    by_cases hp : f.p = p
    · subst hp
      simp [Kernel.event, hc, Proc.tally, Tally.record, Kernel.afterSwtch_proc_self]
    · simp [Kernel.event, hc, hp, Proc.tally, Kernel.afterSwtch_proc_ne s c (Ne.symm hp)]
  | finish c f hc hg =>
    by_cases hp : f.p = p
    · subst hp
      obtain ⟨k, T, he⟩ := s.sliceEnd_proc_self f
      rw [Kernel.setCtl_proc, he]
      simp [Kernel.event, hc, hg, Proc.tally, Tally.record]
    · simp [Kernel.event, hc, hp, Kernel.sliceEnd_proc_ne s (Ne.symm hp)]
  | claim c f np hc hl hn =>
    have hne : p ≠ np := by
      rintro rfl
      have hlt := hr.pid_lt.2 p
      simp only [Kernel.setForking_pid, Kernel.claimSlot_proc_self] at hpid
      omega
    simp [Kernel.event, Proc.tally, Kernel.claimSlot_proc_ne s hne]

/-! ## The order of the events -/

/-- Where slot `p` is between two events.  A slice that has just started is going to
dispatch its process. -/
def Kernel.InPhase (s : Kernel n) (p : Slot) : Phase → Prop
  | .out => ∀ c f, (s.cpu c).ctl.frame = some f → f.p = p →
      (s.cpu c).ctl = .slice f ∧ s.sliceGoesOn f
  | .running => ∃ c f, f.p = p ∧ ((s.cpu c).ctl = .running f ∨ (s.cpu c).ctl = .returned f)
  | .stopped => ∃ c f, f.p = p ∧ (s.cpu c).ctl = .slice f

/-- A slice that is going to dispatch its process still is after a step of another CPU. -/
theorem step_sliceGoesOn (hr : Reached s)
    (h : step l s = some s') {f : Frame} (hc' : (s'.cpu c).ctl = .slice f)
    (hg : s.sliceGoesOn f) : s'.sliceGoesOn f := by
  have hr' : Reached s' := hr.next h
  refine ⟨?_, ?_⟩
  · have hlife := step_life hr h f.p
    rw [hg.1] at hlife
    have hst := (hr'.slice_stopped hc').2
    generalize (s'.proc f.p).state = x, (s'.proc f.p).pid = i, (s.proc f.p).pid = i'
      at hlife hst ⊢
    cases hlife with
    | keep => rfl
    | dispatch => simp at hst
  · rw [hr'.quantum, ← hr.quantum]
    exact hg.2

/-- A move of a CPU that is not in a slice of `p`, and is not in one afterwards except at its
beginning. -/
theorem inPhase_of_other (hr : Reached s) (h : step l s = some s') (hx : s.InPhase p x) (c : Fin n)
    (hother : ∀ d, d ≠ c → (s'.cpu d).ctl = (s.cpu d).ctl)
    (hc : ∀ f, (s.cpu c).ctl.frame = some f → f.p ≠ p)
    (hc' : ∀ f, (s'.cpu c).ctl.frame = some f → f.p = p →
      (s'.cpu c).ctl = .slice f ∧ s'.sliceGoesOn f) : s'.InPhase p x := by
  have hne : ∀ {d f}, (s.cpu d).ctl.frame = some f → f.p = p → d ≠ c := by
    rintro d f hf hp rfl
    exact hc f hf hp
  cases x with
  | out =>
    intro d f hf hp
    by_cases hd : d = c
    · subst hd
      exact hc' f hf hp
    · rw [hother d hd] at hf
      obtain ⟨hslice, hg⟩ := hx d f hf hp
      have hslice' := (hother d hd).trans hslice
      exact ⟨hslice', step_sliceGoesOn hr h hslice' hg⟩
  | running =>
    obtain ⟨d, f, hp, hd⟩ := hx
    have hdc : d ≠ c := by
      refine hne (f := f) ?_ hp
      rcases hd with hd | hd <;> rw [hd] <;> rfl
    exact ⟨d, f, hp, by rwa [hother d hdc]⟩
  | stopped =>
    obtain ⟨d, f, hp, hd⟩ := hx
    have hdc : d ≠ c := hne (f := f) (by rw [hd]; rfl) hp
    exact ⟨d, f, hp, by rwa [hother d hdc]⟩

/-- A move of a CPU in a slice of another process. -/
theorem inPhase_setCtl {t : Kernel n} {y : Ctl} (hr : Reached s)
    (h : step l s = some (t.setCtl c y)) (ht : ∀ d, (t.cpu d).ctl = (s.cpu d).ctl)
    (hx : s.InPhase p x) (hc : ∀ f, (s.cpu c).ctl.frame = some f → f.p ≠ p)
    (hy : ∀ f, y.frame = some f → f.p ≠ p) : (t.setCtl c y).InPhase p x := by
  refine inPhase_of_other hr h hx c (fun d hd => by simp [hd, ht]) hc fun f hf hp => ?_
  exact absurd hp (hy f (by simpa using hf))

/-- A step that begins, ends and counts no slice. -/
theorem inPhase_calm (hr : Reached s) (h : step l s = some s')
    (hcalm : ∀ c, Ctl.Calm (s.cpu c).ctl (s'.cpu c).ctl)
    (hx : s.InPhase p x) : s'.InPhase p x := by
  have keep : ∀ {c f}, (s'.cpu c).ctl.frame = some f → (s.cpu c).ctl.frame = some f := by
    intro c f hf
    have hc := hcalm c
    generalize (s.cpu c).ctl = y, (s'.cpu c).ctl = y' at hc hf ⊢
    cases hc <;> exact hf
  have slice : ∀ {c f}, (s.cpu c).ctl = .slice f → (s'.cpu c).ctl = .slice f := by
    intro c f hf
    have hc := hcalm c
    rw [hf] at hc
    generalize (s'.cpu c).ctl = y at hc
    cases hc
    rfl
  cases x with
  | out =>
    intro c f hf hp
    obtain ⟨hslice, hg⟩ := hx c f (keep hf) hp
    exact ⟨slice hslice, step_sliceGoesOn hr h (slice hslice) hg⟩
  | running =>
    obtain ⟨c, f, hp, hf⟩ := hx
    refine ⟨c, f, hp, ?_⟩
    have hc := hcalm c
    rcases hf with hf | hf <;> rw [hf] at hc <;> generalize (s'.cpu c).ctl = y at hc <;>
      cases hc
    · exact .inl rfl
    · exact .inr rfl
    · exact .inr rfl
  | stopped =>
    obtain ⟨c, f, hp, hf⟩ := hx
    exact ⟨c, f, hp, slice hf⟩

/-- The process of a slice is in the phase that the CPU says. -/
theorem InPhase.cases (hr : Reached s)
    (hx : s.InPhase p x) {f : Frame} (hf : (s.cpu c).ctl.frame = some f)
    (hp : f.p = p) :
    x = .out ∧ (s.cpu c).ctl = .slice f ∧ s.sliceGoesOn f ∨
    x = .running ∧ ((s.cpu c).ctl = .running f ∨ (s.cpu c).ctl = .returned f) ∨
    x = .stopped ∧ (s.cpu c).ctl = .slice f := by
  have same : ∀ {d g}, (s.cpu d).ctl.frame = some g → g.p = p → d = c ∧ g = f := by
    intro d g hg hgp
    obtain rfl := hr.frame_apart hg hf (hgp.trans hp.symm)
    exact ⟨rfl, Option.some.inj (hg.symm.trans hf)⟩
  cases x with
  | out => exact .inl ⟨rfl, hx c f hf hp⟩
  | running =>
    obtain ⟨d, g, hgp, hd⟩ := hx
    obtain ⟨rfl, rfl⟩ := same (d := d) (g := g)
      (by rcases hd with hd | hd <;> rw [hd] <;> rfl) hgp
    exact .inr (.inl ⟨rfl, hd⟩)
  | stopped =>
    obtain ⟨d, g, hgp, hd⟩ := hx
    obtain ⟨rfl, rfl⟩ := same (d := d) (g := g) (by rw [hd]; rfl) hgp
    exact .inr (.inr ⟨rfl, hd⟩)

/-- **The events of a slot come in order.** -/
theorem step_phase (hr : Reached s) (h : step l s = some s') (hx : s.InPhase p x) :
    ∃ y, (s.event p l).elim (some x) x.next = some y ∧ s'.InPhase p y := by
  cases step_effect h with
  | quiet _ _ hq =>
    rw [event_of_quiet h hq]
    exact ⟨x, rfl, inPhase_calm hr h hq.ctl hx⟩
  | start c r hc hp =>
    refine ⟨x, rfl, inPhase_of_other hr h hx c ?_ ?_ ?_⟩
    · intro d hd
      simp [Kernel.startSlice, hd]
    · intro f hf
      simp [hc, Ctl.frame] at hf
    · intro f hf _
      obtain rfl : (⟨r, s.returnProc.2.returnQueue, (s.proc r).priority, 0⟩ : Frame) = f := by
        simpa [Kernel.startSlice, Ctl.frame] using hf
      refine ⟨by simp [Kernel.startSlice], ?_, ?_⟩
      · simpa [Kernel.startSlice] using Kernel.returnProc_runnable hp
      · rw [(hr.next h).quantum]
        exact Kernel.quantum_pos _
  | skip c i hc =>
    refine ⟨x, rfl, inPhase_setCtl hr h (by simp) hx ?_ ?_⟩
    · simp [hc, Ctl.frame]
    · simp [Ctl.frame]
  | dispatch c f hc hg =>
    have hf : (s.cpu c).ctl.frame = some f := by rw [hc]; rfl
    by_cases hp : f.p = p
    · refine ⟨.running, ?_, c, f, hp, .inl (by simp)⟩
      rcases InPhase.cases hr hx hf hp with ⟨rfl, -⟩ | ⟨-, hd | hd⟩ | ⟨rfl, -⟩
      · simp [Kernel.event, hc, hp, hg, Phase.next]
      · rw [hc] at hd; cases hd
      · rw [hc] at hd; cases hd
      · simp [Kernel.event, hc, hp, hg, Phase.next]
    · refine ⟨x, by simp [Kernel.event, hc, hp],
        inPhase_setCtl hr h (fun d => s.ctl_setCur c d _) hx ?_ ?_⟩
      · simp [hc, Ctl.frame, hp]
      · simp [Ctl.frame, hp]
  | back c f hc =>
    have hf : (s.cpu c).ctl.frame = some f := by rw [hc]; rfl
    by_cases hp : f.p = p
    · refine ⟨.stopped, ?_, c, { f with count := f.count + 1 }, hp, by simp⟩
      rcases InPhase.cases hr hx hf hp with ⟨-, hd, -⟩ | ⟨rfl, -⟩ | ⟨-, hd⟩
      · rw [hc] at hd; cases hd
      · simp [Kernel.event, hc, hp, Phase.next]
      · rw [hc] at hd; cases hd
    · refine ⟨x, by simp [Kernel.event, hc, hp],
        inPhase_setCtl hr h (fun d => s.ctl_setCur c d _) hx ?_ ?_⟩
      · simp [hc, Ctl.frame, hp]
      · simp [Ctl.frame, hp]
  | finish c f hc hg =>
    have hf : (s.cpu c).ctl.frame = some f := by rw [hc]; rfl
    by_cases hp : f.p = p
    · refine ⟨.out, ?_, ?_⟩
      · rcases InPhase.cases hr hx hf hp with ⟨-, -, hgoes⟩ | ⟨-, hd | hd⟩ | ⟨rfl, -⟩
        · exact absurd hgoes hg
        · rw [hc] at hd; cases hd
        · rw [hc] at hd; cases hd
        · simp [Kernel.event, hc, hp, hg, Phase.next]
      · -- no other CPU is in a slice of the process
        intro d g hg' hgp
        have hd : d ≠ c := by
          rintro rfl
          simp [Ctl.frame] at hg'
        have hgs : (s.cpu d).ctl.frame = some g := by simpa [hd] using hg'
        exact absurd (hr.frame_apart hgs hf (hgp.trans hp.symm)) hd
    · refine ⟨x, by simp [Kernel.event, hc, hp], inPhase_setCtl hr h (by simp) hx ?_ ?_⟩
      · simp [hc, Ctl.frame, hp]
      · simp [Ctl.frame]
  | claim c f np hc hl hn =>
    refine ⟨x, rfl, inPhase_calm hr h (fun d => ?_) hx⟩
    simpa [Kernel.claimSlot_toMachine] using Ctl.Calm.refl _

/-- Along a run, too. -/
theorem run_allows : ∀ {s t : Kernel n} {x : Phase},
    Reached s → exec step ls s = some t → s.InPhase p x →
      x.Allows (trace step (Kernel.event p) ls s) := by
  induction ls with
  | nil =>
    intro s t x _ _ _
    trivial
  | cons l ls ih =>
    intro s t x hr hx hp
    obtain ⟨s', hs, hrun⟩ := Transition.exec_cons_some.mp hx
    obtain ⟨y, hy, hp'⟩ := step_phase hr hs hp
    have hrest := ih (hr.next hs) hrun hp'
    rw [Transition.trace_cons hs]
    cases he : s.event p l with
    | none =>
      rw [he] at hy
      cases hy
      exact hrest
    | some e =>
      rw [he] at hy
      exact ⟨y, hy, hrest⟩

/-! ## A process in its slot -/

/-- A pid that has been handed out is nowhere it was not before. -/
theorem run_pid {a : ℤ} (ha : 0 < a) : ∀ {s t : Kernel n},
    exec step ls s = some t → a < s.nextpid → (t.proc p).pid = a → (s.proc p).pid = a := by
  induction ls with
  | nil =>
    intro s t hx _ ht
    cases hx
    exact ht
  | cons l ls ih =>
    intro s t hx hlt ht
    obtain ⟨s', hs, hrun⟩ := Transition.exec_cons_some.mp hx
    have hpid := ih hrun (hlt.trans_le (step_nextpid_le hs)) ht
    rcases step_pid hs p with he | ⟨-, -, he⟩ | ⟨-, -, he, -⟩ <;> omega

/-- The statistics of a process after a run are what its events make of them. -/
theorem run_tally {a : ℤ} (ha : 0 < a) :
    ∀ {s t : Kernel n}, Reached s → exec step ls s = some t → a < s.nextpid →
      (t.proc p).pid = a → (t.proc p).tally =
        (trace step (Kernel.event p) ls s).foldl Tally.record (s.proc p).tally := by
  induction ls with
  | nil =>
    intro s t _ hx _ _
    cases hx
    rfl
  | cons l ls ih =>
    intro s t hr hx hlt ht
    obtain ⟨s', hs, hrun⟩ := Transition.exec_cons_some.mp hx
    have hlt' := hlt.trans_le (step_nextpid_le hs)
    have hpid : (s.proc p).pid = a := run_pid ha hx hlt ht
    have hpid' : (s'.proc p).pid = a := run_pid ha hrun hlt' ht
    rw [ih (hr.next hs) hrun hlt' ht, step_tally hr hs (hpid'.trans hpid.symm),
      Transition.trace_cons hs, List.foldl_append]

/-- One life of a process: in the state `before`, `allocproc` hands out `slot` for the pid `P`;
the run goes on with `ls`, and `getpinfo(P)` then reports `R`. -/
structure Tenancy (P : ℤ) (before : Kernel n) (c : Fin n) (slot : Slot) (ls : List (Label n))
    (R : Kernel.Report) : Prop where
  reached : Reached before
  found : before.findUnused = some slot
  pid : before.nextpid = P
  report : ∃ after, exec step (.forkAlloc c :: ls) before = some after ∧
    after.getpinfo P = some R

/-- `allocproc` gives the slot its pid and resets the number of records, no more. -/
theorem step_claim (hr : Reached s)
    (hn : s.findUnused = some p) (h : step (.forkAlloc c) s = some s') :
    s.nextpid < s'.nextpid ∧ (∀ r, (s'.proc r).pid = s.nextpid → r = p) ∧
    (s'.proc p).tally = { (s.proc p).tally with used := 0 } ∧ s'.InPhase p .out := by
  obtain ⟨f, hc, -, -, ⟨hnone, -⟩ | ⟨np, hnp, rfl⟩⟩ := step_forkAlloc h
  · rw [hn] at hnone
    cases hnone
  obtain rfl : np = p := Option.some.inj (hnp.symm.trans hn)
  refine ⟨by simp [Kernel.claimSlot_toMachine], ?_, ?_, ?_⟩
  · intro r hpid
    by_contra hne
    have hlt := hr.pid_lt.2 r
    rw [Kernel.setForking_pid, Kernel.claimSlot_proc_ne s hne] at hpid
    omega
  · simp [Proc.tally, Kernel.claimSlot_proc_self]
  · intro d g hg hp
    have hframe : (s.cpu d).ctl.frame = some g := by
      simpa [Kernel.claimSlot_toMachine] using hg
    subst hp
    exact absurd (Kernel.findUnused_some hn) (hr.frame_used hframe)

/-- The report is a function of what was left in the slot and of the events. -/
theorem Tenancy.report_eq {P : ℤ} {before : Kernel n} {slot : Slot}
    {R : Kernel.Report} (h : Tenancy P before c slot ls R) {T : Tally}
    (hT : (trace step (Kernel.event slot) (.forkAlloc c :: ls) before).foldl Tally.record
      { (before.proc slot).tally with used := 0 } = T) :
    R.times = T.times ∧ R.ticks = T.ticks ∧ R.records = T.stats.window T.used := by
  obtain ⟨after, hx, hR⟩ := h.report
  obtain ⟨now, hs, hrun⟩ := Transition.exec_cons_some.mp hx
  obtain ⟨hlt, honly, htally, -⟩ := step_claim h.reached h.found hs
  have hpos : 0 < P := h.pid ▸ h.reached.pid_lt.1
  rw [h.pid] at hlt honly
  -- the pid is in no other slot
  obtain ⟨p, hfind, rfl⟩ := Option.map_eq_some_iff.mp hR
  have hpid : (after.proc p).pid = P := by simpa using List.find?_some hfind
  obtain rfl := honly p (run_pid hpos hrun hlt hpid)
  have hend := run_tally hpos (h.reached.next hs) hrun hlt hpid
  rw [htally] at hend
  rw [Transition.trace_cons hs] at hT
  have hT' : (after.proc p).tally = T := hend.trans hT
  rw [← hT']
  exact ⟨rfl, rfl, rfl⟩

theorem Tenancy.allows {P : ℤ} {before : Kernel n} {slot : Slot}
    {R : Kernel.Report} (h : Tenancy P before c slot ls R) :
    Phase.out.Allows (trace step (Kernel.event slot) (.forkAlloc c :: ls) before) := by
  obtain ⟨after, hx, -⟩ := h.report
  obtain ⟨now, hs, hrun⟩ := Transition.exec_cons_some.mp hx
  rw [Transition.trace_cons hs]
  exact run_allows (h.reached.next hs) hrun (step_claim h.reached h.found hs).2.2.2

/-- **Statistics leak between the processes of a slot.**  Two processes with the same pid, in
two runs of possibly different machines, to which the same happens from the moment
`allocproc` hands out their slots, have the same `times`, `ticks` and records in the reports of
`getpinfo` if and only if the slots had the same `times`, the same `ticks`, and the same
durations in the records that the slices of the process advance over. -/
theorem reports_agree_iff {m : ℕ} {P : ℤ} {before₁ : Kernel n} {before₂ : Kernel m} {c₁ : Fin n}
    {c₂ : Fin m} {slot₁ slot₂ : Slot} {ls₁ : List (Label n)} {ls₂ : List (Label m)}
    {R₁ R₂ : Kernel.Report} (h₁ : Tenancy P before₁ c₁ slot₁ ls₁ R₁)
    (h₂ : Tenancy P before₂ c₂ slot₂ ls₂ R₂)
    (hsame : trace step (Kernel.event slot₁) (.forkAlloc c₁ :: ls₁) before₁ =
      trace step (Kernel.event slot₂) (.forkAlloc c₂ :: ls₂) before₂) :
    (R₁.times = R₂.times ∧ R₁.ticks = R₂.ticks ∧ R₁.records = R₂.records) ↔
      (before₁.proc slot₁).times = (before₂.proc slot₂).times ∧
      (before₁.proc slot₁).ticks = (before₂.proc slot₂).ticks ∧
      ∀ i : ℕ, i < (trace step (Kernel.event slot₁) (.forkAlloc c₁ :: ls₁) before₁).countP
          Event.advances →
        ((before₁.proc slot₁).stats.get i).duration =
          ((before₂.proc slot₂).stats.get i).duration := by
  obtain ⟨htimes₁, hticks₁, hrec₁⟩ := h₁.report_eq rfl
  obtain ⟨htimes₂, hticks₂, hrec₂⟩ := h₂.report_eq rfl
  obtain ⟨y, halike⟩ := (Alike.refl { (before₁.proc slot₁).tally with used := 0 }
    { (before₂.proc slot₂).tally with used := 0 } rfl rfl).foldl h₁.allows
  rw [← hsame] at htimes₂ hticks₂ hrec₂
  have hused := (foldl_record_used (trace step (Kernel.event slot₁) (.forkAlloc c₁ :: ls₁) before₁)
    { (before₁.proc slot₁).tally with used := 0 }).trans (zero_add _)
  generalize (trace step (Kernel.event slot₁) (.forkAlloc c₁ :: ls₁) before₁).foldl
    Tally.record { (before₁.proc slot₁).tally with used := 0 } = a at *
  generalize (trace step (Kernel.event slot₁) (.forkAlloc c₁ :: ls₁) before₁).foldl
    Tally.record { (before₂.proc slot₂).tally with used := 0 } = b at *
  rw [htimes₁, hticks₁, hrec₁, htimes₂, hticks₂, hrec₂, ← halike.used, CArray.window_eq_window]
  refine and_congr ?_ (and_congr ?_ ?_)
  · simp only [funext_iff]
    refine forall_congr' fun k => ?_
    have := halike.times k
    simp only [Proc.tally] at this
    omega
  · simp only [funext_iff]
    refine forall_congr' fun k => ?_
    have := halike.ticks k
    simp only [Proc.tally] at this
    omega
  · refine forall_congr' fun i => ?_
    rw [hused, Nat.cast_lt]
    refine imp_congr_right fun hi => ?_
    have hdur := halike.duration i
    simp only [Proc.tally] at hdur
    rw [SchedStat.eq_iff]
    constructor
    · intro h
      bv_omega
    · intro h
      exact ⟨halike.written i (by omega) (hused ▸ Nat.cast_lt.mpr hi), by bv_omega⟩

/-! Runs of two CPUs.  Init, on CPU 0, has two children; the first one runs on CPU 1 and exits,
then the second one runs there.  Init reaps the first child and forks again. -/

/-- The steps of a `fork` that succeeds, on CPU 0. -/
def forkOnZero : List (Label 2) :=
  [.forkAlloc 0, .forkStack 0 true, .forkCopy 0 true [true], .forkRun 0]

/-- What happens before the third `fork`, with the clock ticking before the first child
runs, while it runs, or after that. -/
def firstChild (before during after : List (Label 2)) : List (Label 2) :=
  [.acquire 0, .scan 0, .loop 0, .resume 0] ++ forkOnZero ++ forkOnZero ++ before ++
    [.acquire 1, .scan 1, .scan 1, .loop 1, .resume 1] ++ during ++
    [.exit 1, .back 1, .loop 1, .scan 1, .loop 1, .resume 1] ++ after ++ [.wait 0]

/-- The rest of the third `fork`.  Init and the new child use up their slices on CPU 0. -/
def thirdChild : List (Label 2) :=
  forkOnZero.tail ++ [.yield 0, .back 0, .loop 0] ++
    [.scan 0, .loop 0, .resume 0, .yield 0, .back 0, .loop 0]

/-- What the scheduler does to the third child. -/
def thirdChildEvents : List Event := [.dispatch 1 0, .back 1, .finish 0 1 0 true false]

/-- What is evaluated to find a report. -/
theorem exists_tenancy (ls₁ ls₂ : List (Label n)) (c : Fin n) (slot : Slot) (P : ℤ)
    (es : List Event) (Q : Kernel n → Kernel.Report → Prop) [∀ s R, Decidable (Q s R)]
    (h : (exec step ls₁ (boot n)).any (fun s => decide ((s.findUnused = some slot ∧
      s.nextpid = P ∧ trace step (Kernel.event slot) (.forkAlloc c :: ls₂) s = es) ∧
      (exec step (.forkAlloc c :: ls₂) s).any (fun t => decide
        ((t.getpinfo P).any (fun R => decide (Q s R)) = true)) = true)) = true) :
    ∃ s R, exec step ls₁ (boot n) = some s ∧ Tenancy P s c slot ls₂ R ∧
      trace step (Kernel.event slot) (.forkAlloc c :: ls₂) s = es ∧ Q s R := by
  obtain ⟨s, hx, ⟨hfound, hpid, hes⟩, hrest⟩ := Transition.exists_exec ls₁ _ h
  obtain ⟨t, hrun, hR⟩ := Transition.exists_exec (.forkAlloc c :: ls₂) _ hrest
  cases hget : t.getpinfo P with
  | none => simp [hget] at hR
  | some R =>
    have hQ : Q s R := by simpa [hget] using hR
    exact ⟨s, R, hx, ⟨⟨_, hx⟩, hfound, hpid, t, hrun, hget⟩, hes, hQ⟩

/-- Whether the clock ticks before the first child runs or after it has exited makes no
difference to the report on the third. -/
theorem reports_agree_tick_outside : ∃ (s₁ s₂ : Kernel 2) (R₁ R₂ : Kernel.Report),
    exec step (firstChild [.tick] [] []) (boot 2) = some s₁ ∧
    exec step (firstChild [] [] [.tick]) (boot 2) = some s₂ ∧
    Tenancy 4 s₁ 0 1 thirdChild R₁ ∧ Tenancy 4 s₂ 0 1 thirdChild R₂ ∧
    R₁.times = R₂.times ∧ R₁.ticks = R₂.ticks ∧ R₁.records = R₂.records := by
  obtain ⟨s₁, R₁, hx₁, h₁, hes₁, htimes₁, hticks₁, hdur₁⟩ :=
    exists_tenancy (firstChild [.tick] [] []) thirdChild 0 1 4 thirdChildEvents
      (fun s _ => (∀ k, (s.proc 1).times k = if k = 0 then 1 else 0) ∧
        (∀ k, (s.proc 1).ticks k = if k = 0 then 1 else 0) ∧
        ((s.proc 1).stats.get 0).duration = 0) (by decide +kernel)
  obtain ⟨s₂, R₂, hx₂, h₂, hes₂, htimes₂, hticks₂, hdur₂⟩ :=
    exists_tenancy (firstChild [] [] [.tick]) thirdChild 0 1 4 thirdChildEvents
      (fun s _ => (∀ k, (s.proc 1).times k = if k = 0 then 1 else 0) ∧
        (∀ k, (s.proc 1).ticks k = if k = 0 then 1 else 0) ∧
        ((s.proc 1).stats.get 0).duration = 0) (by decide +kernel)
  refine ⟨s₁, s₂, R₁, R₂, hx₁, hx₂, h₁, h₂, ?_⟩
  refine (reports_agree_iff h₁ h₂ (hes₁.trans hes₂.symm)).mpr ⟨?_, ?_, ?_⟩
  · exact funext fun k => (htimes₁ k).trans (htimes₂ k).symm
  · exact funext fun k => (hticks₁ k).trans (hticks₂ k).symm
  · intro i hi
    rw [hes₁] at hi
    obtain rfl : i = 0 := Nat.lt_one_iff.mp hi
    exact hdur₁.trans hdur₂.symm

/-- A tick while the first child runs shows up in the record of the third.  The two runs
make the same steps from the third `fork` on. -/
theorem report_shows_earlier_process : ∃ (s₁ s₂ : Kernel 2) (R₁ R₂ : Kernel.Report),
    exec step (firstChild [] [.tick] []) (boot 2) = some s₁ ∧
    exec step (firstChild [] [] [.tick]) (boot 2) = some s₂ ∧
    Tenancy 4 s₁ 0 1 thirdChild R₁ ∧ Tenancy 4 s₂ 0 1 thirdChild R₂ ∧
    trace step (Kernel.event 1) (.forkAlloc 0 :: thirdChild) s₁ =
      trace step (Kernel.event 1) (.forkAlloc 0 :: thirdChild) s₂ ∧
    R₁.records = [⟨1, 1, 0⟩] ∧ R₂.records = [⟨1, 0, 0⟩] := by
  obtain ⟨s₁, R₁, hx₁, h₁, hes₁, hR₁⟩ := exists_tenancy (firstChild [] [.tick] []) thirdChild
    0 1 4 thirdChildEvents (fun _ R => R.records = [⟨1, 1, 0⟩]) (by decide +kernel)
  obtain ⟨s₂, R₂, hx₂, h₂, hes₂, hR₂⟩ := exists_tenancy (firstChild [] [] [.tick]) thirdChild
    0 1 4 thirdChildEvents (fun _ R => R.records = [⟨1, 0, 0⟩]) (by decide +kernel)
  exact ⟨s₁, s₂, R₁, R₂, hx₁, hx₂, h₁, h₂, hes₁.trans hes₂.symm, hR₁, hR₂⟩

end Xv6Mlfq
