import Xv6Mlfq.Proc.Accounting
import Xv6Mlfq.Sched.Membership
import Xv6Mlfq.Sched.Pass

/-!
# What one slice does to the queues

On one CPU, `scheduler` chooses a process, dispatches it until its quantum is used up or
it does not come back `RUNNABLE`, and then moves it.  Four things can happen to it: it
goes to the next lower queue, it is boosted from `q2` to `q0`, it goes to the end of its
own queue, or it stays where it is.  Meanwhile the process itself may fork, wake up and
reap others.

The board is followed through the slice: nobody but a new process enters a queue and
nobody leaves one, so that at the end the queues are those of the beginning with the chosen
process exchanged with the first one of its queue, and the new processes at the end of
`q0`.  The end of the slice is then one move of the board.

## Main definitions

* `Multilevel.Once` — the state of the queues the slice starts from and leads back to.
* `Kernel.takesFresh` — a `fork` takes a slot that has no entry in a queue.
* `InSlice` — what holds at every moment of the slice.
-/

namespace Xv6Mlfq

open Function (update update_self update_of_ne)
open Multilevel (bringFront enqueue dequeue Once)
open Transition Handoff

/-- New processes at the end of the top queue. -/
def withNew (q : Level → List Slot) (new : List Slot) : Level → List Slot :=
  update q 0 (q 0 ++ new)

@[simp] theorem withNew_nil (q : Level → List Slot) : withNew q [] = q := by
  rw [withNew, List.append_nil, Function.update_eq_self]

theorem withNew_append (q : Level → List Slot) (new : List Slot) (p : Slot) :
    enqueue (withNew q new) 0 p = withNew q (new ++ [p]) := by
  simp [withNew, enqueue]

theorem mem_withNew {q : Level → List Slot} {new : List Slot} {k : Level} {p : Slot}
    (h : p ∈ q k) : p ∈ withNew q new k := by
  by_cases hk : k = 0
  · subst hk
    simp [withNew, h]
  · simpa [withNew, hk] using h

namespace Kernel

variable {n : ℕ}

/-- A `fork` finds a slot that was never used: it has no pid and no entry in a queue. -/
def takesFresh (s : Kernel n) : Label n → Prop
  | .forkAlloc _ => ∀ np, s.findUnused = some np →
      (s.proc np).pid ≤ 0 ∧ ∀ k, np ∉ s.board.queue k
  | _ => True

instance (s : Kernel n) : DecidablePred s.takesFresh
  | .forkAlloc _ => inferInstanceAs (Decidable (∀ _, _ → _))
  | .acquire _ | .scan _ | .loop _ | .resume _ | .back _ | .yield _ | .sleep _ _ | .exit _
  | .wait _ | .kill _ _ | .fault _ | .forkStack _ _ | .forkCopy _ _ _ | .forkRun _ | .wakeup _
  | .tick =>
    .isTrue trivial

/-- No queue is full. -/
def HasRoom (s : Kernel n) : Prop := ∀ k, (s.q k).endIdx < NPROC

instance (s : Kernel n) : Decidable s.HasRoom := inferInstanceAs (Decidable (∀ _, _))

/-- A step that changes no queue creates no process. -/
theorem Quiet.used {s s' : Kernel n} {l : Label n} (hq : Quiet s l s') (hi : Inv (view s))
    {r : Slot} (hr : (s'.proc r).state ≠ .UNUSED) : (s.proc r).state ≠ .UNUSED := by
  have hembryo : ∀ {q a}, (s.proc q).forking = some (a, r) → (s.proc r).state = .EMBRYO := by
    intro q a hf
    exact hi.embryo q r (by simp [view, hf])
  have ht := hq.turn r
  generalize (s'.proc r).state = x, (s'.proc r).pid = i at ht hr
  cases ht with
  | keep => exact hr
  | wake hs => simp [hs]
  | leave c f x hc hp hx =>
    have hrun : (s.proc f.p).state = .RUNNING := hi.running c f.p (view_phase hc)
    rw [← hp, hrun]
    decide
  | reap hz hd => exact absurd rfl hr
  | fail q a hf hd => exact absurd rfl hr
  | born q a hf => simp [hembryo hf]

theorem afterSwtch_Ticks (s : Kernel n) (c : Fin n) (f : Frame) :
    ((s.afterSwtch c f).proc f.p).Ticks = (s.proc f.p).Ticks + 1 := by
  rw [afterSwtch_proc_self]
  simp only [Proc.counted, Proc.setQueue]
  split_ifs <;> rfl

end Kernel

open Kernel

/-! ## During the slice -/

/-- What holds while the slice of `p` that started in `s` goes on: `q` is what the queues
were after the exchange, `new` the processes created since, `f` the locals of the slice. -/
structure InSlice (s : Kernel 1) (p : Slot) (q : Level → List Slot) (new : List Slot)
    (f : Frame) (u : Kernel 1) : Prop where
  inv : Inv (view u)
  sound : u.Sound
  once : Once u.board
  queue : u.board.queue = withNew q new
  level : ∀ r, (s.proc r).state ≠ .UNUSED → (u.proc r).priority = (s.proc r).priority
  unused : ∀ r ∈ new, (s.proc r).state = .UNUSED
  frame : (u.cpu 0).ctl.frame = some f
  slot : f.p = p
  source : f.queue = (s.proc p).priority
  ticks : (u.proc p).Ticks = (s.proc p).Ticks + f.count
  count : f.count + (if (u.cpu 0).ctl = .slice f then 0 else 1) ≤ quantum f.queue

namespace InSlice

variable {s u u' : Kernel 1} {p : Slot} {q : Level → List Slot} {new : List Slot} {f : Frame}

/-- What the step leaves alone: the queues and the levels. -/
theorem of_same (h : InSlice s p q new f u) {l : Label 1} (g : Frame) (hs : step l u = some u')
    (hq : u'.q = u.q) (hlevel : ∀ r, (u'.proc r).priority = (u.proc r).priority)
    (hused : ∀ r, (u'.proc r).state ≠ .UNUSED → (u.proc r).state ≠ .UNUSED)
    (hframe : (u'.cpu 0).ctl.frame = some g) (hp : g.p = f.p) (hfrom : g.queue = f.queue)
    (hticks : (u'.proc p).Ticks = (u.proc p).Ticks + (g.count - f.count))
    (hcount : g.count + (if (u'.cpu 0).ctl = .slice g then 0 else 1) ≤ quantum g.queue) :
    InSlice s p q new g u' := by
  obtain ⟨hsound, hqueue⟩ := sound_of_holds (s := u') (l := u.board.queue)
    (by rw [hq]; exact h.sound)
  refine ⟨inv_refines (step_refines hs) h.inv, hsound, ?_, hqueue.trans h.queue, ?_, h.unused,
    hframe, hp.trans h.slot, hfrom.trans h.source, ?_, hcount⟩
  · apply h.once.reorder hused (funext hlevel)
    intro k
    rw [hqueue]
  · intro r hr
    rw [hlevel]
    exact h.level r hr
  · rw [hticks, h.ticks]
    omega

theorem quiet (h : InSlice s p q new f u) {l : Label 1} (hs : step l u = some u')
    (hq : Quiet u l u') : InSlice s p q new f u' := by
  apply h.of_same f hs hq.q _ (fun r hr => hq.used h.inv hr) ((hq.frame 0).trans h.frame) rfl rfl
  · rw [hq.pstat]
    omega
  · have hcalm := hq.ctl 0
    have hframe := h.frame
    have hcount := h.count
    generalize (u.cpu 0).ctl = x, (u'.cpu 0).ctl = y at hcalm hframe hcount ⊢
    cases hcalm with
    | refl => exact hcount
    | enter => cases hframe
    | release => cases hframe
    | leave g => simpa using hcount
  · intro r
    rw [hq.pstat]

theorem dispatch (h : InSlice s p q new f u) (hg : u.sliceGoesOn f)
    (hs : step (.loop 0) u = some ((u.dispatch 0 f).setCtl 0 (.running f))) :
    InSlice s p q new f ((u.dispatch 0 f).setCtl 0 (.running f)) := by
  apply h.of_same f hs (dispatch_q u 0 f) (dispatch_priority u 0 f) _ (by simp [Ctl.frame]) rfl
    rfl
  · by_cases hp : p = f.p
    · subst hp
      simp [Kernel.dispatch]
    · simp [dispatch_proc_ne u 0 hp]
  · have hlt := hg.2
    have hq := (h.sound f.queue).ticks
    rw [if_neg (by simp)]
    omega
  · intro r hr
    by_cases hrp : r = f.p
    · subst hrp
      rw [hg.1]
      decide
    · simpa [dispatch_proc_ne u 0 hrp] using hr

theorem back (h : InSlice s p q new f u) (hc : (u.cpu 0).ctl = .returned f)
    (hs : step (.back 0) u =
      some ((u.afterSwtch 0 f).setCtl 0 (.slice { f with count := f.count + 1 }))) :
    InSlice s p q new { f with count := f.count + 1 }
      ((u.afterSwtch 0 f).setCtl 0 (.slice { f with count := f.count + 1 })) := by
  apply h.of_same { f with count := f.count + 1 } hs (afterSwtch_q u 0 f)
    (afterSwtch_priority u 0 f) _ (by simp [Ctl.frame]) rfl rfl
  · rw [← h.slot, setCtl_proc, afterSwtch_Ticks]
    dsimp only
    omega
  · have hcount := h.count
    rw [hc, if_neg (by simp)] at hcount
    simpa using hcount
  · intro r hr
    simpa using hr

/-- A process that was there before the slice has an entry. -/
theorem mem_queue (h : InSlice s p q new f u) (hs₀ : Once s.board)
    (hq : ∀ k, (q k).Perm (s.board.queue k)) {r : Slot} (hr : (s.proc r).state ≠ .UNUSED) :
    r ∈ u.board.queue (s.proc r).priority := by
  rw [h.queue]
  apply mem_withNew
  rw [(hq _).mem_iff]
  exact hs₀.mem hr

theorem claim (h : InSlice s p q new f u) (hs₀ : Once s.board)
    (hq : ∀ k, (q k).Perm (s.board.queue k)) (hp : (s.proc p).state ≠ .UNUSED) {np : Slot}
    (hroom : u.HasRoom) (hpid : (u.proc np).pid ≤ 0)
    (hfresh : ∀ k, np ∉ u.board.queue k) {l : Label 1}
    (hs : step l u = some ((u.claimSlot np).setForking f.p (some (.alloced, np)))) :
    InSlice s p q (new ++ [np]) f ((u.claimSlot np).setForking f.p (some (.alloced, np))) := by
  have hnew : ∀ r, (s.proc r).state ≠ .UNUSED → r ≠ np := by
    intro r hr he
    exact hfresh _ (he ▸ h.mem_queue hs₀ hq hr)
  have hlevel : ∀ r, (((u.claimSlot np).setForking f.p (some (.alloced, np))).proc r).priority =
      update u.board.level np 0 r := by
    intro r
    rw [setForking_pstat]
    by_cases hr : r = np
    · subst hr
      rw [update_self, claimSlot_proc_self, (h.sound 0).priority]
    · rw [update_of_ne hr, claimSlot_proc_ne u hr]
      rfl
  have hlen : (u.board.queue 0).length < NPROC := by
    have hend := (h.sound 0).endIdx
    have hlt := hroom 0
    omega
  obtain ⟨hsound, hqueue⟩ := sound_of_holds
    (s := (u.claimSlot np).setForking f.p (some (.alloced, np)))
    (l := enqueue u.board.queue 0 np)
    (by simpa [claimSlot_q u hpid] using holds_enqueue h.sound hlen np)
  refine ⟨inv_refines (step_refines hs) h.inv, hsound, ?_, ?_, ?_, ?_, ?_, h.slot, h.source, ?_,
    ?_⟩
  · apply h.once.claim hfresh _ (funext hlevel) hqueue
    intro r hr
    by_cases hrn : r = np
    · exact .inl hrn
    · right
      simpa [board, claimSlot_proc_ne u hrn] using hr
  · rw [hqueue, h.queue, withNew_append]
  · intro r hr
    rw [hlevel, update_of_ne (hnew r hr)]
    exact h.level r hr
  · intro r hr
    rcases List.mem_append.mp hr with hr | hr
    · exact h.unused r hr
    · by_contra hused
      exact hnew r hused (List.mem_singleton.mp hr)
  · simpa [claimSlot_toMachine] using h.frame
  · rw [setForking_pstat, claimSlot_proc_ne u (hnew p hp)]
    exact h.ticks
  · simpa [claimSlot_toMachine] using h.count

/-- **One step of the slice**: it goes on, or it comes to its end. -/
theorem step_cases (h : InSlice s p q new f u) (hs₀ : Once s.board)
    (hq : ∀ k, (q k).Perm (s.board.queue k)) (hp : (s.proc p).state ≠ .UNUSED)
    (hroom : u.HasRoom) {l : Label 1} (hfresh : u.takesFresh l) (hs : step l u = some u') :
    (∃ new' g, InSlice s p q new' g u' ∧ g.count = f.count + [l].count (.back 0)) ∨
    l = .loop 0 ∧ (u.cpu 0).ctl = .slice f ∧ ¬ u.sliceGoesOn f ∧
      u' = (u.sliceEnd f).setCtl 0 (.scan (f.p + 1)) := by
  have zero : ∀ c : Fin 1, c = 0 := fun c => Subsingleton.elim c 0
  have hframe := h.frame
  cases step_effect hs with
  | quiet _ _ hquiet =>
    refine .inl ⟨new, f, h.quiet hs hquiet, ?_⟩
    simp [(hquiet.label_ne hs 0).2]
  | start c r hc hr =>
    rw [zero c] at hc
    rw [hc] at hframe
    cases hframe
  | skip c i hc =>
    rw [zero c] at hc
    rw [hc] at hframe
    cases hframe
  | dispatch c g hc hg =>
    obtain rfl := zero c
    rw [hc] at hframe
    cases hframe
    exact .inl ⟨new, f, h.dispatch hg hs, by simp⟩
  | back c g hc =>
    obtain rfl := zero c
    rw [hc] at hframe
    cases hframe
    exact .inl ⟨new, _, h.back hc hs, by simp⟩
  | finish c g hc hg =>
    obtain rfl := zero c
    rw [hc] at hframe
    cases hframe
    exact .inr ⟨rfl, hc, hg, rfl⟩
  | claim c g np hc hl hn =>
    obtain rfl := zero c
    rw [hc] at hframe
    cases hframe
    obtain ⟨hpid, hnp⟩ := hfresh np hn
    exact .inl ⟨_, f, h.claim hs₀ hq hp hroom hpid hnp hs, by simp⟩

/-! ## The end of the slice -/

theorem priority_eq (h : InSlice s p q new f u) (hp : (s.proc p).state ≠ .UNUSED) :
    (u.proc f.p).priority = f.queue := by
  rw [h.slot, h.level p hp, h.source]

/-- The process of the slice is stopped at the guard of the loop. -/
theorem stopped (h : InSlice s p q new f u) (hc : (u.cpu 0).ctl = .slice f) :
    (u.proc f.p).state = .RUNNABLE ∨ (u.proc f.p).state = .SLEEPING ∨
      (u.proc f.p).state = .ZOMBIE := by
  apply h.inv.stopped 0 f.p
  rw [view_phase hc]
  rfl

theorem kept (h : InSlice s p q new f u) (hp : (s.proc p).state ≠ .UNUSED)
    (hc : (u.cpu 0).ctl = .slice f) : Multilevel.Kept u.board := by
  have hused : u.board.alive f.p := by
    rcases h.stopped hc with hst | hst | hst <;> simp [board, hst]
  have slice_eq : ∀ c r k, u.board.slice c = some (r, k) → r = f.p ∧ k = f.queue := by
    intro c r k hr
    obtain rfl : c = 0 := Subsingleton.elim c 0
    rw [slice_of_ctl hc] at hr
    cases hr
    exact ⟨rfl, rfl⟩
  refine ⟨fun r hr => h.once.mem hr, ?_, ?_, ?_⟩
  · intro c r k hr
    rw [(slice_eq c r k hr).1]
    exact hused
  · intro c r k hr
    obtain ⟨rfl, rfl⟩ := slice_eq c r k hr
    have hmem := h.once.mem hused
    rwa [show u.board.level f.p = f.queue from h.priority_eq hp] at hmem
  · intro c c' r k k' _ _
    exact Subsingleton.elim c c'

theorem finish_stay (h : InSlice s p q new f u) (hm : u.sliceMove f = none) :
    ((u.sliceEnd f).setCtl 0 (.scan (f.p + 1))).board.queue = withNew q new ∧
    ((u.sliceEnd f).setCtl 0 (.scan (f.p + 1))).board.level = u.board.level ∧
    Once ((u.sliceEnd f).setCtl 0 (.scan (f.p + 1))).board := by
  obtain ⟨-, hb⟩ := board_finish_stay h.sound 0 hm
  rw [hb]
  exact ⟨h.queue, rfl, h.once⟩

theorem finish_move (h : InSlice s p q new f u) (hp : (s.proc p).state ≠ .UNUSED)
    (hc : (u.cpu 0).ctl = .slice f) (hg : ¬ u.sliceGoesOn f) (hroom : u.HasRoom) {m : Level}
    (hm : u.sliceMove f = some (f.queue, m)) :
    ((u.sliceEnd f).setCtl 0 (.scan (f.p + 1))).board.queue =
      enqueue (dequeue (withNew q new) f.queue f.p) m f.p ∧
    ((u.sliceEnd f).setCtl 0 (.scan (f.p + 1))).board.level = update u.board.level f.p m ∧
    Once ((u.sliceEnd f).setCtl 0 (.scan (f.p + 1))).board := by
  have hfits : u.overflows (.loop 0) = false := by
    cases hk : u.appendsTo (.loop 0) with
    | none => simp [overflows, hk]
    | some k => simpa [overflows, hk] using hroom k
  obtain ⟨-, hb⟩ := board_finish_move h.sound (h.kept hp hc) hc hg hm hfits
  have hused : u.board.alive f.p := by
    rcases h.stopped hc with hst | hst | hst <;> simp [board, hst]
  have hqueue := congrArg Multilevel.Board.queue hb
  have hlevel := congrArg Multilevel.Board.level hb
  refine ⟨hqueue.trans (by rw [h.queue]), hlevel, ?_⟩
  have hpr : u.board.level f.p = f.queue := h.priority_eq hp
  apply h.once.move hused _ hlevel (by rw [hpr]; exact hqueue)
  intro r hr
  rwa [hb] at hr

/-- To the next lower queue. -/
theorem sliceMove_lower (h : InSlice s p q new f u) (hp : (s.proc p).state ≠ .UNUSED)
    (hst : (u.proc f.p).state = .RUNNABLE) (hk : f.queue ≠ 2) :
    u.sliceMove f = some (f.queue, f.queue + 1) := by
  have hpr := h.priority_eq hp
  have hq := (h.sound f.queue).priority
  have hlevels : ∀ k : Level, k ≠ 2 → k = 0 ∨ k = 1 := by decide
  rcases hlevels f.queue hk with hk' | hk'
  · rw [hk'] at hq hpr ⊢
    simp [sliceMove, hst, hpr, hk', hq]
  · rw [hk'] at hq hpr ⊢
    simp [sliceMove, hst, hpr, hk', hq]

/-- From `q2` to `q0`, or nowhere. -/
theorem sliceMove_bottom (h : InSlice s p q new f u) (hp : (s.proc p).state ≠ .UNUSED)
    (hst : (u.proc f.p).state = .RUNNABLE) (hk : f.queue = 2) :
    u.sliceMove f = if 50 ≤ (u.proc f.p).Ticks then some (f.queue, 0) else none := by
  have hpr := h.priority_eq hp
  rw [hk] at hpr ⊢
  simp [sliceMove, hst, hpr]

theorem sliceMove_cases (h : InSlice s p q new f u) (hp : (s.proc p).state ≠ .UNUSED)
    (hc : (u.cpu 0).ctl = .slice f) :
    u.sliceMove f = none ∨ ∃ m, u.sliceMove f = some (f.queue, m) := by
  rcases h.stopped hc with hst | hst | hst
  · by_cases hk : f.queue = 2
    · rw [h.sliceMove_bottom hp hst hk]
      split_ifs
      · exact .inr ⟨0, rfl⟩
      · exact .inl rfl
    · exact .inr ⟨_, h.sliceMove_lower hp hst hk⟩
  · exact .inr ⟨f.queue, by simp [sliceMove, hst]⟩
  · exact .inl (by simp [sliceMove, hst])

end InSlice

/-! ## The slice -/

/-- A slice that is over has come to the end of its loop. -/
theorem InSlice.run {s u t : Kernel 1} {p : Slot} {q : Level → List Slot} {new : List Slot}
    {f : Frame} (h : InSlice s p q new f u) (hs₀ : Once s.board)
    (hq : ∀ k, (q k).Perm (s.board.queue k)) (hp : (s.proc p).state ≠ .UNUSED)
    {ls : List (Label 1)} (hx : exec step ls u = some t)
    (hC : Along step (fun u l => (u.cpu 0).ctl.frame ≠ none ∧ u.HasRoom ∧ u.takesFresh l) ls u)
    (hend : (t.cpu 0).ctl.frame = none) :
    ∃ new' g v, InSlice s p q new' g v ∧ g.count = f.count + ls.count (.back 0) ∧ v.HasRoom ∧
      (v.cpu 0).ctl = .slice g ∧ ¬ v.sliceGoesOn g ∧
      t = (v.sliceEnd g).setCtl 0 (.scan (g.p + 1)) := by
  induction ls generalizing u new f with
  | nil =>
    cases hx
    rw [h.frame] at hend
    cases hend
  | cons l ls ih =>
    obtain ⟨u', hl, hls⟩ := exec_cons_some.mp hx
    rcases h.step_cases hs₀ hq hp hC.1.2.1 hC.1.2.2 hl with
      ⟨new', g, h', hcount⟩ | ⟨rfl, hc, hg, rfl⟩
    · obtain ⟨new'', g', v, hv, hcount', hrest⟩ := ih h' hls (hC.2 u' hl)
      refine ⟨new'', g', v, hv, ?_, hrest⟩
      have hsum : (l :: ls).count (.back 0) = [l].count (.back 0) + ls.count (.back 0) := by
        rw [← List.count_append]
        rfl
      rw [hcount', hcount, hsum]
      omega
    · -- nothing happens after the end of the loop
      cases ls with
      | nil =>
        cases hls
        exact ⟨new, f, u, h, by simp, hC.1.2.1, hc, hg, rfl⟩
      | cons l' ls =>
        have hno := (hC.2 _ hl).1.1
        simp [Ctl.frame] at hno

/-- The scan starts the slice: the process and the first one of its queue are exchanged. -/
theorem inSlice_start {s s₁ : Kernel 1} {p : Slot} (hinv : Inv (view s)) (hsound : s.Sound)
    (honce : Once s.board) (hstart : s.startsSlice (.scan 0) = some p)
    (hs : step (.scan 0) s = some s₁) :
    ∃ l₁ l₂ f, s.board.queue (s.proc p).priority = l₁ ++ p :: l₂ ∧
      (∀ r ∈ l₁, (s.proc r).state ≠ .RUNNABLE) ∧ (s.proc p).state = .RUNNABLE ∧
      f.count = 0 ∧ InSlice s p
        (update s.board.queue (s.proc p).priority (bringFront l₁ p l₂)) [] f s₁ := by
  have hon : startsSliceOn 0 s (.scan 0) = some p := by
    rw [startsSliceOn, if_pos rfl, hstart]
  obtain ⟨-, hc, hp⟩ := startsSliceOn_eq_some hon
  obtain rfl : s₁ = s.returnProc.2.startSlice 0 p := by
    simpa [step, hc, hp] using hs.symm
  rcases hsound.returnProc_cases with ⟨hn, -⟩ | ⟨r, l₁, l₂, hr, hq, hrun, hno, hsound', hb, hrq⟩
  · rw [hn] at hp
    cases hp
  obtain rfl : r = p := Option.some.inj (hr.symm.trans hp)
  have hused : s.board.alive r := ne_of_eq_of_ne hrun (by decide)
  have hlevel : s.returnQueue = (s.proc r).priority := by
    by_contra hne
    have hcount := honce r hused s.returnQueue
    rw [if_neg (show s.returnQueue ≠ s.board.level r from hne), hq, List.count_eq_zero] at hcount
    simp at hcount
  rw [hlevel] at hq hb hrq
  refine ⟨l₁, l₂, ⟨r, (s.proc r).priority, (s.proc r).priority, 0⟩, hq, hno, hrun, rfl, ?_⟩
  refine ⟨inv_refines (step_refines hs) hinv, hsound', ?_, ?_, ?_, ?_, ?_, rfl, rfl, ?_, ?_⟩
  · apply honce.reorder
    · intro x hx
      simpa [board, startSlice] using hx
    · funext x
      simp [board, startSlice]
    · intro k
      rw [show (s.returnProc.2.startSlice 0 r).board.queue k = s.returnProc.2.board.queue k from
        rfl, hb]
      exact Multilevel.update_bringFront_perm hq k
  · rw [withNew_nil]
    exact hb
  · intro x _
    simp [startSlice]
  · simp
  · simp [startSlice, Ctl.frame, hrq]
  · simp [startSlice]
  · have hquantum : ∀ k : Level, 0 ≤ quantum k := by decide
    rw [if_pos (by simp [startSlice, hrq])]
    exact hquantum (s.proc r).priority

/-- How the slice of `p` that began in `s` and took `d` dispatches ends in `t`; `q` is what
the queues were before the end. -/
structure SliceOutcome (s t : Kernel 1) (p : Slot) (d : ℤ) (q : Level → List Slot) :
    Prop where
  stopped : (t.proc p).state = .RUNNABLE ∨ (t.proc p).state = .SLEEPING ∨
    (t.proc p).state = .ZOMBIE
  lowered : (t.proc p).state = .RUNNABLE → (s.proc p).priority ≠ 2 →
    d = (s.q (s.proc p).priority).ticks ∧
    t.board.queue =
      enqueue (dequeue q (s.proc p).priority p) ((s.proc p).priority + 1) p ∧
    (t.proc p).priority = (s.proc p).priority + 1 ∧ (t.proc p).Ticks = 0
  boosted : (t.proc p).state = .RUNNABLE → (s.proc p).priority = 2 →
    50 ≤ (s.proc p).Ticks + d →
    t.board.queue = enqueue (dequeue q 2 p) 0 p ∧ (t.proc p).priority = 0
  left : (t.proc p).state = .RUNNABLE → (s.proc p).priority = 2 →
    (s.proc p).Ticks + d < 50 → t.board.queue = q ∧ (t.proc p).priority = 2
  slept : (t.proc p).state = .SLEEPING →
    t.board.queue = enqueue (dequeue q (s.proc p).priority p) (s.proc p).priority p ∧
    (t.proc p).priority = (s.proc p).priority
  exited : (t.proc p).state = .ZOMBIE →
    t.board.queue = q ∧ (t.proc p).priority = (s.proc p).priority
  order : ∀ j, (t.board.queue j).filter (· ≠ p) = (q j).filter (· ≠ p)
  others : ∀ r, r ≠ p → (s.proc r).state ≠ .UNUSED →
    (t.proc r).priority = (s.proc r).priority
  once : Once t.board

theorem sliceEnd_Ticks_lower {u : Kernel 1} {f : Frame} (hst : (u.proc f.p).state = .RUNNABLE)
    (hpr : ∀ k, (u.q k).priority = k) (hk : (u.proc f.p).priority = f.queue)
    (hlow : f.queue ≠ 2) : ((u.sliceEnd f).proc f.p).Ticks = 0 := by
  have hlevels : ∀ k : Level, k ≠ 2 → k = 0 ∨ k = 1 := by decide
  rcases hlevels f.queue hlow with hf | hf
  · simp [sliceEnd, degrade, hst, hk, hf, hpr, addQueue_proc]
  · simp [sliceEnd, degrade, hst, hk, hf, hpr, addQueue_proc]

theorem InSlice.outcome {s u : Kernel 1} {p : Slot} {q : Level → List Slot} {new : List Slot}
    {f : Frame} (h : InSlice s p q new f u) (hp : (s.proc p).state ≠ .UNUSED)
    (hticks : ∀ k, (s.q k).ticks = quantum k)
    (hc : (u.cpu 0).ctl = .slice f) (hg : ¬ u.sliceGoesOn f) (hroom : u.HasRoom) :
    SliceOutcome s ((u.sliceEnd f).setCtl 0 (.scan (f.p + 1))) p f.count (withNew q new) := by
  obtain rfl := h.slot
  have hfrom := h.source
  have hpr := h.priority_eq hp
  have hstate : (((u.sliceEnd f).setCtl 0 (.scan (f.p + 1))).proc f.p).state =
      (u.proc f.p).state := by simp
  have stay := h.finish_stay
  have move : ∀ m, u.sliceMove f = some (f.queue, m) → _ :=
    fun m => h.finish_move hp hc hg hroom
  refine ⟨?_, ?_, ?_, ?_, ?_, ?_, ?_, ?_, ?_⟩
  · rw [hstate]
    exact h.stopped hc
  · intro hrun hk
    rw [hstate] at hrun
    rw [← hfrom] at hk ⊢
    obtain ⟨hqueue, hlevel, -⟩ := move _ (h.sliceMove_lower hp hrun hk)
    refine ⟨?_, hqueue, ?_, ?_⟩
    · -- the loop ended because the count has reached the quantum
      have hle := h.count
      rw [hc, if_pos rfl] at hle
      have hge : ¬ f.count < (u.q f.queue).ticks := fun hlt => hg ⟨hrun, hlt⟩
      rw [(h.sound f.queue).ticks] at hge
      rw [hticks]
      omega
    · exact (congrFun hlevel f.p).trans (update_self _ _ _)
    · exact sliceEnd_Ticks_lower hrun (fun k => (h.sound k).priority) hpr hk
  · intro hrun hk hT
    rw [hstate] at hrun
    rw [← hfrom] at hk
    have hm := h.sliceMove_bottom hp hrun hk
    rw [if_pos (by rw [h.ticks]; exact hT)] at hm
    obtain ⟨hqueue, hlevel, -⟩ := move _ hm
    rw [hk] at hqueue
    exact ⟨hqueue, (congrFun hlevel f.p).trans (update_self _ _ _)⟩
  · intro hrun hk hT
    rw [hstate] at hrun
    rw [← hfrom] at hk
    have hm := h.sliceMove_bottom hp hrun hk
    rw [if_neg (by rw [h.ticks]; omega)] at hm
    obtain ⟨hqueue, hlevel, -⟩ := stay hm
    exact ⟨hqueue, (congrFun hlevel f.p).trans (hpr.trans hk)⟩
  · intro hsleep
    rw [hstate] at hsleep
    rw [← hfrom]
    obtain ⟨hqueue, hlevel, -⟩ := move f.queue (by simp [sliceMove, hsleep])
    exact ⟨hqueue, (congrFun hlevel f.p).trans (update_self _ _ _)⟩
  · intro hzombie
    rw [hstate] at hzombie
    obtain ⟨hqueue, hlevel, -⟩ := stay (by simp [sliceMove, hzombie])
    exact ⟨hqueue, (congrFun hlevel f.p).trans (hpr.trans hfrom)⟩
  · intro j
    rcases h.sliceMove_cases hp hc with hm | ⟨m, hm⟩
    · rw [(stay hm).1]
    · rw [(move m hm).1, Multilevel.filter_move]
  · intro r hr hused
    rw [← h.level r hused]
    rcases h.sliceMove_cases hp hc with hm | ⟨m, hm⟩
    · exact congrFun (stay hm).2.1 r
    · exact (congrFun (move m hm).2.1 r).trans (update_of_ne hr _ _)
  · rcases h.sliceMove_cases hp hc with hm | ⟨m, hm⟩
    · exact (stay hm).2.2
    · exact (move m hm).2.2

/-- **The effect of one slice** on one CPU.  At the beginning every process is in one queue,
once, that of its priority; no queue is ever full and every `fork` takes a slot that was
never used.  Then at the end the queues are those of the beginning with the process `p` of
the slice exchanged with the first one of its queue and the new processes at the end of `q0`,
and `p` is moved according to its state and its level, after as many dispatches as its queue
allows if it is still `RUNNABLE` in `q0` or `q1`. -/
theorem slice_effect (s s₁ t : Kernel 1) (p : Slot) (ls : List (Label 1))
    (hinv : Inv (view s)) (hsound : s.Sound) (honce : Once s.board)
    (hstart : s.startsSlice (.scan 0) = some p) (hs₁ : step (.scan 0) s = some s₁)
    (hx : exec step ls s₁ = some t)
    (hC : Along step (fun u l => (u.cpu 0).ctl.frame ≠ none ∧ u.HasRoom ∧ u.takesFresh l) ls s₁)
    (hend : (t.cpu 0).ctl.frame = none) :
    ∃ l₁ l₂ new, s.board.queue (s.proc p).priority = l₁ ++ p :: l₂ ∧
      (∀ r ∈ new, (s.proc r).state = .UNUSED) ∧
      SliceOutcome s t p (ls.count (.back 0))
        (withNew (update s.board.queue (s.proc p).priority (bringFront l₁ p l₂)) new) := by
  obtain ⟨l₁, l₂, f, hq, -, hrun, hzero, h₁⟩ := inSlice_start hinv hsound honce hstart hs₁
  have hp : (s.proc p).state ≠ .UNUSED := by
    rw [hrun]
    decide
  obtain ⟨new, g, v, h, hcount, hroom, hc, hg, rfl⟩ :=
    h₁.run honce (Multilevel.update_bringFront_perm hq) hp hx hC hend
  rw [hzero, zero_add] at hcount
  refine ⟨l₁, l₂, new, hq, h.unused, ?_⟩
  rw [← hcount]
  exact h.outcome hp (fun k => (hsound k).ticks) hc hg hroom

/-- A process forks once and uses up its quantum in `q0`. -/
def forkingSlice : List (Label 1) := [.loop 0, .resume 0] ++ forkSucceeds ++ usesSliceUp

set_option maxRecDepth 100000 in
theorem slice_effect_forks : ∃ (s s₁ t : Kernel 1) (q : Level → List Slot),
    exec step [.acquire 0] (boot 1) = some s ∧ step (.scan 0) s = some s₁ ∧
    exec step forkingSlice s₁ = some t ∧ SliceOutcome s t 0 1 q ∧
    (t.proc 0).state = .RUNNABLE ∧ t.board.queue 0 = [1] ∧ t.board.queue 1 = [0] := by
  have hC : Along step (fun s l => s.reusesLeftover l = false ∧ s.overflows l = false)
      [.acquire 0] (boot 1) := by decide +kernel
  obtain ⟨s, hs, hstart, honce, hrest⟩ := exists_run [.acquire 0] (fun s : Kernel 1 =>
    s.startsSlice (.scan 0) = some 0 ∧
    (∀ r, (s.proc r).state ≠ .UNUSED → ∀ k, ((s.q k).slots).count r =
      if k = (s.proc r).priority then 1 else 0) ∧
    (exec step [.scan 0] s).any (fun s₁ => decide (
      Along step (fun u l => (u.cpu 0).ctl.frame ≠ none ∧ u.HasRoom ∧ u.takesFresh l)
        forkingSlice s₁ ∧
      (exec step forkingSlice s₁).any (fun t => decide ((t.cpu 0).ctl.frame = none ∧
        (t.proc 0).state = .RUNNABLE ∧ (t.q 0).slots = [1] ∧ (t.q 1).slots = [0])) =
          true)) = true) (by decide +kernel)
  obtain ⟨s₁, hx₁, hpass, ht⟩ := exists_exec [Label.scan 0] _ hrest
  obtain ⟨t, hx, hend, hstate, hq₀, hq₁⟩ := exists_exec forkingSlice _ ht
  have hs₁ : step (.scan 0) s = some s₁ := by
    obtain ⟨s', hs', he⟩ := exec_cons_some.mp hx₁
    cases he
    exact hs'
  obtain ⟨l₁, l₂, new, -, -, hout⟩ := slice_effect s s₁ t 0 forkingSlice
    (Reached.handoff ⟨_, hs⟩) (enrolled_of_run hs hC).sound honce hstart hs₁ hx hpass hend
  exact ⟨s, s₁, t, _, hs, hs₁, hx, hout, hstate, hq₀, hq₁⟩

end Xv6Mlfq
