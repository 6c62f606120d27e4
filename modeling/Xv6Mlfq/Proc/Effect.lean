import Xv6Mlfq.Proc.Scheduler

/-!
# What a step can do

Two summaries of the seventeen inversion lemmas, for results that do not care which
system call was made.  `step_ctl` says how a CPU moves through `scheduler`.
`step_effect` says what a step does to the queues and the statistics: almost every label
is `Quiet`, which leaves them alone and lets processes only wake up, leave their CPU, be
reaped or come out of a `fork`.

## Main definitions

* `Ctl.Next` — one move of a CPU.
* `Kernel.Turn`, `Ctl.Calm`, `Kernel.Quiet` — what a step without effect on the queues may
  change.
* `Effect` — the cases of a step.
-/

namespace Xv6Mlfq

open Kernel

variable {n : ℕ}

/-! ## How the control of a CPU moves -/

/-- One move of a CPU through `scheduler`, with what it depends on. -/
inductive Ctl.Next (s : Kernel n) : Ctl → Ctl → Prop
  | enter : Next s .idle (.scan 0)
  | skip (i : ℕ) : Next s (.scan i) (.scan (i + 1))
  | pick (i : ℕ) (p : Slot) (hp : s.returnProc.1 = some p) :
      Next s (.scan i) (.slice ⟨p, s.returnProc.2.returnQueue, (s.proc p).priority, 0⟩)
  | release (i : ℕ) : Next s (.scan i) .idle
  | dispatch (f : Frame) (h : s.sliceGoesOn f) : Next s (.slice f) (.running f)
  | finish (f : Frame) (h : ¬ s.sliceGoesOn f) : Next s (.slice f) (.scan (f.p + 1))
  | leave (f : Frame) : Next s (.running f) (.returned f)
  | back (f : Frame) : Next s (.returned f) (.slice { f with count := f.count + 1 })

theorem Kernel.ctl_setCur (s : Kernel n) (c c' : Fin n) (p : Option Slot) :
    ((s.setCur c p).cpu c').ctl = (s.cpu c').ctl := by
  by_cases h : c' = c
  · subst h; simp
  · simp [h]

variable {s s' : Kernel n} {l : Label n}

theorem Ctl.next_setCtl {t : Kernel n} {c : Fin n} {x y : Ctl} (hc : (s.cpu c).ctl = x)
    (hx : Ctl.Next s x y) (ht : ∀ c, (t.cpu c).ctl = (s.cpu c).ctl) (c' : Fin n) :
    ((t.setCtl c y).cpu c').ctl = (s.cpu c').ctl ∨
      Ctl.Next s (s.cpu c').ctl ((t.setCtl c y).cpu c').ctl := by
  by_cases h : c' = c
  · subst h
    exact .inr (by simpa [hc] using hx)
  · exact .inl (by simp [h, ht])

/-- A step moves the control of each CPU by at most one `Ctl.Next`. -/
theorem step_ctl (h : step l s = some s') (c' : Fin n) :
    (s'.cpu c').ctl = (s.cpu c').ctl ∨ Ctl.Next s (s.cpu c').ctl (s'.cpu c').ctl := by
  have wait : ∀ (t : Kernel n) (c : Fin n) (f : Frame), t.toMachine = s.toMachine →
      (s.cpu c).ctl = .running f → ((t.waitRound c f).cpu c').ctl = (s.cpu c').ctl ∨
        Ctl.Next s (s.cpu c').ctl ((t.waitRound c f).cpu c').ctl := by
    intro t c f ht hc
    rcases t.waitRound_cases c f with ⟨z, -, he⟩ | ⟨-, he⟩ | ⟨-, he⟩ <;> rw [he]
    · exact .inl (by simp [reap, ht])
    · exact .inl (by simp [ht])
    · exact Ctl.next_setCtl hc (.leave f) (by simp [ht]) c'
  cases l with
  | acquire c =>
    obtain ⟨-, hc, rfl⟩ := step_acquire h
    exact Ctl.next_setCtl hc .enter (fun _ => rfl) c'
  | scan c =>
    obtain ⟨i, hc, ⟨p, -, hr, rfl⟩ | ⟨-, rfl⟩ | ⟨-, rfl⟩⟩ := step_scan h
    · refine Ctl.next_setCtl hc ?_ (by simp) c'
      rw [returnProc_proc]
      exact .pick i p hr
    · exact Ctl.next_setCtl hc (.skip i) (by simp) c'
    · exact Ctl.next_setCtl hc (.release i) (fun _ => rfl) c'
  | loop c =>
    obtain ⟨f, hc, ⟨hg, rfl⟩ | ⟨hg, rfl⟩⟩ := step_loop h
    · exact Ctl.next_setCtl hc (.dispatch f hg) (fun d => s.ctl_setCur c d _) c'
    · exact Ctl.next_setCtl hc (.finish f hg) (by simp) c'
  | resume c =>
    obtain ⟨f, hc, -, rfl | rfl | ⟨-, rfl⟩⟩ := step_resume h
    · exact .inl rfl
    · exact .inl rfl
    · exact wait _ c f rfl hc
  | back c =>
    obtain ⟨f, hc, rfl⟩ := step_back h
    exact Ctl.next_setCtl hc (.back f) (fun d => s.ctl_setCur c d _) c'
  | yield c =>
    obtain ⟨f, hc, -, rfl⟩ := step_yield h
    exact Ctl.next_setCtl hc (.leave f) (fun _ => rfl) c'
  | sleep c chan =>
    obtain ⟨f, hc, -, -, rfl⟩ := step_sleep h
    exact Ctl.next_setCtl hc (.leave f) (fun _ => rfl) c'
  | exit c =>
    obtain ⟨f, hc, -, -, -, rfl⟩ := step_exit h
    obtain ⟨t, hw, he⟩ := s.exit_cases f.p
    rw [he]
    exact Ctl.next_setCtl hc (.leave f) (by simp [hw.machine]) c'
  | wait c =>
    obtain ⟨f, hc, -, -, rfl⟩ := step_wait h
    exact wait _ c f rfl hc
  | kill c pid =>
    obtain ⟨-, -, -, rfl⟩ := step_kill h
    exact .inl (by rw [(s.wakes_kill pid).machine])
  | fault c =>
    obtain ⟨-, -, -, rfl⟩ := step_fault h
    exact .inl rfl
  | forkAlloc c =>
    obtain ⟨f, -, -, -, ⟨-, rfl⟩ | ⟨np, -, rfl⟩⟩ := step_forkAlloc h
    · exact .inl rfl
    · exact .inl (by simp [setForking, claimSlot_toMachine])
  | forkStack c kalloc =>
    obtain ⟨f, np, -, -, -, rfl⟩ := step_forkStack h
    exact .inl (by cases kalloc <;> rfl)
  | forkCopy c setupkvm pages =>
    obtain ⟨f, np, -, -, -, rfl⟩ := step_forkCopy h
    exact .inl (by split_ifs <;> rfl)
  | forkRun c =>
    obtain ⟨f, np, -, -, -, rfl⟩ := step_forkRun h
    exact .inl rfl
  | wakeup chan =>
    obtain ⟨-, rfl⟩ := step_wakeup h
    exact .inl rfl
  | tick =>
    obtain ⟨-, rfl⟩ := step_tick h
    exact .inl rfl

/-! ## Steps that leave the queues and the statistics alone -/

/-- The step gives up a slot: `wait` has an exited child to reap, or a `fork` fails in
`kalloc` or `copyuvm`. -/
def Kernel.discards (s : Kernel n) : Label n → Bool
  | .wait c => (s.current c).any fun f => (s.zombieChild f.p).isSome
  | .resume c =>
    match (s.cpu c).ctl with
    | .running f => (s.proc f.p).context = .wait && (s.zombieChild f.p).isSome
    | _ => false
  | .forkStack _ kalloc => !kalloc
  | .forkCopy _ setupkvm pages => !copyuvm setupkvm pages
  | _ => false

/-- What may become of the state and the pid of a process that is neither dispatched nor
created: nothing, or it is woken, leaves its CPU, is reaped, or its `fork` is settled. -/
inductive Kernel.Turn (s : Kernel n) (l : Label n) (p : Slot) : ProcState → ℤ → Prop
  | keep : Turn s l p (s.proc p).state (s.proc p).pid
  | wake (h : (s.proc p).state = .SLEEPING) : Turn s l p .RUNNABLE (s.proc p).pid
  | leave (c : Fin n) (f : Frame) (x : ProcState) (hc : (s.cpu c).ctl = .running f)
      (hp : f.p = p) (hx : x = .RUNNABLE ∨ x = .SLEEPING ∨ x = .ZOMBIE) :
      Turn s l p x (s.proc p).pid
  | reap (h : (s.proc p).state = .ZOMBIE) (hd : s.discards l = true) : Turn s l p .UNUSED 0
  | fail (r : Slot) (a : ForkStage) (hr : (s.proc r).forking = some (a, p))
      (hd : s.discards l = true) : Turn s l p .UNUSED (s.proc p).pid
  | born (r : Slot) (a : ForkStage) (hr : (s.proc r).forking = some (a, p)) :
      Turn s l p .RUNNABLE (s.proc p).pid

/-- A move of a CPU that begins, ends and counts no slice. -/
inductive Ctl.Calm : Ctl → Ctl → Prop
  | refl (x : Ctl) : Calm x x
  | enter : Calm .idle (.scan 0)
  | release (i : ℕ) : Calm (.scan i) .idle
  | leave (f : Frame) : Calm (.running f) (.returned f)

/-- The step `l` from `s` to `s'` changes the lives of processes and the clock only. -/
structure Kernel.Quiet (s : Kernel n) (l : Label n) (s' : Kernel n) : Prop where
  q : s'.q = s.q
  uses : s'.uses = s.uses
  pstat : ∀ p, (s'.proc p).toPstat = (s.proc p).toPstat
  ctl : ∀ c, Ctl.Calm (s.cpu c).ctl (s'.cpu c).ctl
  nextpid : s'.nextpid = s.nextpid
  TOTAL : s'.TOTAL = s.TOTAL
  ticks : s'.ticks = s.ticks ∨ l = .tick ∧ s'.ticks = s.ticks + 1
  turn : ∀ p, s.Turn l p (s'.proc p).state (s'.proc p).pid

namespace Kernel

variable {s t : Kernel n} {l : Label n}

theorem Quiet.frame {s' : Kernel n} (h : Quiet s l s') (c : Fin n) :
    (s'.cpu c).ctl.frame = (s.cpu c).ctl.frame := by
  have hc := h.ctl c
  generalize (s.cpu c).ctl = x, (s'.cpu c).ctl = y at hc ⊢
  cases hc <;> rfl

theorem Wakes.turn (h : Wakes s t) (l : Label n) (p : Slot) :
    s.Turn l p (t.proc p).state (t.proc p).pid := by
  rw [h.pid p]
  rcases h.state p with he | ⟨hs, he⟩
  · rw [he]; exact .keep
  · rw [he]; exact .wake hs

theorem Wakes.quiet (h : Wakes s t) (l : Label n) : Quiet s l t where
  q := h.q
  uses := h.uses
  pstat := h.pstat
  ctl c := by rw [h.machine]; exact .refl _
  nextpid := by rw [h.machine]
  TOTAL := by rw [h.machine]
  ticks := by rw [h.machine]; exact .inl rfl
  turn := h.turn l

/-- One process takes a turn while others are woken. -/
theorem Wakes.quiet_modify (h : Wakes s t) {p : Slot} {f : Proc → Proc}
    (hps : (f (t.proc p)).toPstat = (t.proc p).toPstat)
    (hst : s.Turn l p (f (t.proc p)).state (f (t.proc p)).pid) :
    Quiet s l (t.modify p f) := by
  refine ⟨h.q, h.uses, ?_, (h.quiet l).ctl, (h.quiet l).nextpid, (h.quiet l).TOTAL,
    (h.quiet l).ticks, ?_⟩ <;> intro r <;> by_cases hr : r = p
  · subst hr; simpa using hps.trans (h.pstat r)
  · simpa [hr] using h.pstat r
  · subst hr; simpa using hst
  · simpa [hr] using h.turn l r

theorem Quiet.setLock (h : Quiet s l t) (x : Option (Fin n)) : Quiet s l (t.setLock x) :=
  ⟨h.q, h.uses, h.pstat, h.ctl, h.nextpid, h.TOTAL, h.ticks, h.turn⟩

theorem Quiet.setCtl (h : Quiet s l t) {c : Fin n} {x : Ctl}
    (hx : Ctl.Calm (s.cpu c).ctl x) : Quiet s l (t.setCtl c x) := by
  refine ⟨h.q, h.uses, h.pstat, fun d => ?_, h.nextpid, h.TOTAL, h.ticks, h.turn⟩
  by_cases hd : d = c
  · subst hd; simpa using hx
  · simpa [hd] using h.ctl d

theorem Quiet.setForking (h : Quiet s l t) (p : Slot)
    (x : Option (ForkStage × Slot)) : Quiet s l (t.setForking p x) := by
  refine ⟨h.q, h.uses, fun r => ?_, h.ctl, h.nextpid, h.TOTAL, h.ticks, fun r => ?_⟩
  · simpa using h.pstat r
  · simpa using h.turn r

/-- The process of CPU `c` leaves it through `sched`. -/
theorem Wakes.quiet_sched (h : Wakes s t) {c : Fin n} {f : Frame}
    (hc : (s.cpu c).ctl = .running f) {g : Proc → Proc}
    (hps : (g (t.proc f.p)).toPstat = (t.proc f.p).toPstat)
    (hpid : (g (t.proc f.p)).pid = (t.proc f.p).pid)
    (hx : (g (t.proc f.p)).state = .RUNNABLE ∨ (g (t.proc f.p)).state = .SLEEPING ∨
      (g (t.proc f.p)).state = .ZOMBIE) : Quiet s l ((t.modify f.p g).sched c f) :=
  ((h.quiet_modify hps (by
    rw [hpid, h.pid]
    exact .leave c f _ hc rfl hx)).setLock _).setCtl (by rw [hc]; exact .leave f)

theorem Wakes.quiet_waitRound (h : Wakes s t) {c : Fin n}
    {f : Frame} (hc : (s.cpu c).ctl = .running f)
    (hd : (t.zombieChild f.p).isSome → s.discards l = true) : Quiet s l (t.waitRound c f) := by
  rcases t.waitRound_cases c f with ⟨z, hz, he⟩ | ⟨-, he⟩ | ⟨-, he⟩ <;> rw [he]
  · have hzombie : (s.proc z).state = .ZOMBIE := by
      have := (zombieChild_some hz).2
      rcases h.state z with he | ⟨-, he⟩
      · rw [← he, this]
      · rw [he] at this
        cases this
    exact (h.quiet_modify rfl (.reap hzombie (hd (by rw [hz]; rfl)))).setLock _
  · exact (h.quiet l).setLock _
  · exact h.quiet_sched hc rfl rfl (.inr (.inl rfl))

theorem zombieChild_awake (s : Kernel n) (p r : Slot) :
    (s.awake p).zombieChild r = s.zombieChild r := by
  have : ∀ z, ((s.awake p).proc z).parent = (s.proc z).parent ∧
      ((s.awake p).proc z).state = (s.proc z).state := by
    intro z
    by_cases hz : z = p
    · subst hz; simp [awake]
    · simp [awake, hz]
  simp only [zombieChild, this]

theorem wakes_awake (s : Kernel n) (p : Slot) : Wakes s (s.awake p) :=
  wakes_modify _ _ _ rfl rfl rfl rfl (.inl rfl)

end Kernel

/-- What a step can do to the queues and the statistics: nothing, a round of the scan, a
dispatch, the return from one, the end of a slice, or the creation of a process. -/
inductive Effect (s : Kernel n) : Label n → Kernel n → Prop
  | quiet (l : Label n) (s' : Kernel n) (h : Quiet s l s') : Effect s l s'
  | start (c : Fin n) (p : Slot) (hc : (s.cpu c).ctl = .scan p) (hp : s.returnProc.1 = some p) :
      Effect s (.scan c) (s.returnProc.2.startSlice c p)
  | skip (c : Fin n) (i : ℕ) (hc : (s.cpu c).ctl = .scan i) :
      Effect s (.scan c) (s.returnProc.2.setCtl c (.scan (i + 1)))
  | dispatch (c : Fin n) (f : Frame) (hc : (s.cpu c).ctl = .slice f) (hg : s.sliceGoesOn f) :
      Effect s (.loop c) ((s.dispatch c f).setCtl c (.running f))
  | back (c : Fin n) (f : Frame) (hc : (s.cpu c).ctl = .returned f) :
      Effect s (.back c)
        ((s.afterSwtch c f).setCtl c (.slice { f with count := f.count + 1 }))
  | finish (c : Fin n) (f : Frame) (hc : (s.cpu c).ctl = .slice f) (hg : ¬ s.sliceGoesOn f) :
      Effect s (.loop c) ((s.sliceEnd f).setCtl c (.scan (f.p + 1)))
  | claim (c : Fin n) (f : Frame) (np : Slot) (hc : (s.cpu c).ctl = .running f)
      (hl : s.lock = none) (hn : s.findUnused = some np) :
      Effect s (.forkAlloc c) ((s.claimSlot np).setForking f.p (some (.alloced, np)))

theorem step_effect (h : step l s = some s') : Effect s l s' := by
  cases l with
  | acquire c =>
    obtain ⟨-, hc, rfl⟩ := step_acquire h
    exact .quiet _ _ ((((Wakes.refl s).quiet _).setLock _).setCtl (by rw [hc]; exact .enter))
  | scan c =>
    obtain ⟨i, hc, ⟨p, hp, hr, rfl⟩ | ⟨-, rfl⟩ | ⟨-, rfl⟩⟩ := step_scan h
    · exact .start c p (hp ▸ hc) hr
    · exact .skip c i hc
    · exact .quiet _ _
        ((((Wakes.refl s).quiet _).setLock _).setCtl (by rw [hc]; exact .release i))
  | loop c =>
    obtain ⟨f, hc, ⟨hg, rfl⟩ | ⟨hg, rfl⟩⟩ := step_loop h
    · exact .dispatch c f hc hg
    · exact .finish c f hc hg
  | resume c =>
    obtain ⟨f, hc, -, rfl | rfl | ⟨hx, rfl⟩⟩ := step_resume h
    · exact .quiet _ _ (((Wakes.refl s).quiet _).setLock _)
    · exact .quiet _ _ (((s.wakes_awake f.p).quiet _).setLock _)
    · exact .quiet _ _ ((s.wakes_awake f.p).quiet_waitRound hc fun hz => by
        simpa [discards, hc, hx, zombieChild_awake] using hz)
  | back c =>
    obtain ⟨f, hc, rfl⟩ := step_back h
    exact .back c f hc
  | yield c =>
    obtain ⟨f, hc, -, rfl⟩ := step_yield h
    exact .quiet _ _ ((Wakes.refl s).quiet_sched hc rfl rfl (.inl rfl))
  | sleep c chan =>
    obtain ⟨f, hc, -, -, rfl⟩ := step_sleep h
    exact .quiet _ _ ((Wakes.refl s).quiet_sched hc rfl rfl (.inr (.inl rfl)))
  | exit c =>
    obtain ⟨f, hc, -, -, -, rfl⟩ := step_exit h
    obtain ⟨t, hw, he⟩ := s.exit_cases f.p
    rw [he]
    exact .quiet _ _ (hw.quiet_sched hc rfl rfl (.inr (.inr rfl)))
  | wait c =>
    obtain ⟨f, hc, hl, -, rfl⟩ := step_wait h
    exact .quiet _ _ ((Wakes.refl s).quiet_waitRound hc fun hz => by
      simpa [discards, current, hc, hl] using hz)
  | kill c pid =>
    obtain ⟨f, -, -, rfl⟩ := step_kill h
    exact .quiet _ _ ((s.wakes_kill pid).quiet _)
  | fault c =>
    obtain ⟨f, -, -, rfl⟩ := step_fault h
    exact .quiet _ _ ((s.wakes_fault f.p).quiet _)
  | forkAlloc c =>
    obtain ⟨f, hc, hl, -, ⟨-, rfl⟩ | ⟨np, hn, rfl⟩⟩ := step_forkAlloc h
    · exact .quiet _ _ ((Wakes.refl _).quiet _)
    · exact .claim c f np hc hl hn
  | forkStack c kalloc =>
    obtain ⟨f, np, -, -, hf, rfl⟩ := step_forkStack h
    have hgive : Quiet s (.forkStack c kalloc) (s.giveStack np kalloc) := by
      cases kalloc with
      | true =>
        rw [giveStack_true]
        exact (Wakes.refl s).quiet_modify rfl .keep
      | false =>
        rw [giveStack_false]
        exact (Wakes.refl s).quiet_modify rfl (.fail f.p _ hf rfl)
    exact .quiet _ _ (hgive.setForking _ _)
  | forkCopy c setupkvm pages =>
    obtain ⟨f, np, -, -, hf, rfl⟩ := step_forkCopy h
    split_ifs with hcopy
    · have : Quiet s (.forkCopy c setupkvm pages) (s.copyProc f.p np) := by
        unfold copyProc
        exact (Wakes.refl s).quiet_modify rfl .keep
      exact .quiet _ _ (this.setForking _ _)
    · have : Quiet s (.forkCopy c setupkvm pages) (s.setState np .UNUSED) :=
        (Wakes.refl s).quiet_modify rfl (.fail f.p _ hf (by simp [discards, hcopy]))
      exact .quiet _ _ (this.setForking _ _)
  | forkRun c =>
    obtain ⟨f, np, -, -, hf, rfl⟩ := step_forkRun h
    have : Quiet s (.forkRun c) (s.setState np .RUNNABLE) :=
      (Wakes.refl s).quiet_modify rfl (.born f.p _ hf)
    exact .quiet _ _ (this.setForking _ _)
  | wakeup chan =>
    obtain ⟨-, rfl⟩ := step_wakeup h
    exact .quiet _ _ ((s.wakes_wakeup1 _).quiet _)
  | tick =>
    obtain ⟨-, rfl⟩ := step_tick h
    exact .quiet _ _
      ⟨rfl, rfl, fun _ => rfl, fun _ => .refl _, rfl, rfl, .inr ⟨rfl, rfl⟩, fun _ => .keep⟩

/-- A quiet step is not one of `scheduler` around a dispatch. -/
theorem Kernel.Quiet.label_ne (hq : Quiet s l s')
    (h : step l s = some s') (c : Fin n) : l ≠ .loop c ∧ l ≠ .back c := by
  have hcalm := hq.ctl c
  constructor
  · rintro rfl
    obtain ⟨f, hc, hs⟩ := step_loop h
    rw [hc] at hcalm
    rcases hs with ⟨-, rfl⟩ | ⟨-, rfl⟩
    · simp only [setCtl_cpu, Function.update_self] at hcalm
      cases hcalm
    · simp only [setCtl_cpu, Function.update_self] at hcalm
      cases hcalm
  · rintro rfl
    obtain ⟨f, hc, rfl⟩ := step_back h
    rw [hc] at hcalm
    simp only [setCtl_cpu, Function.update_self] at hcalm
    cases hcalm

/-! ## Slices -/

/-- The process on which a step of `scheduler` starts a slice. -/
def Kernel.startsSlice (s : Kernel n) : Label n → Option Slot
  | .scan c =>
    match (s.cpu c).ctl with
    | .scan i => s.returnProc.1.filter fun p => p.val = i
    | _ => none
  | _ => none

/-- The process of a slice was in it before, or the step starts the slice. -/
theorem step_frame (h : step l s = some s') {c : Fin n}
    {f : Frame} (hf : (s'.cpu c).ctl.frame = some f) :
    (∃ g, (s.cpu c).ctl.frame = some g ∧ g.p = f.p ∧ g.queue = f.queue) ∨
      s.startsSlice l = some f.p := by
  have other : ∀ {t : Kernel n} {d : Fin n} {x : Ctl}, d ≠ c →
      (∀ c, (t.cpu c).ctl = (s.cpu c).ctl) → ((t.setCtl d x).cpu c).ctl.frame = some f →
      ∃ g, (s.cpu c).ctl.frame = some g ∧ g.p = f.p ∧ g.queue = f.queue := by
    intro t d x hd ht hf
    exact ⟨f, by simpa [Ne.symm hd, ht] using hf, rfl, rfl⟩
  cases step_effect h with
  | quiet _ _ hq => exact .inl ⟨f, (hq.frame c).symm.trans hf, rfl, rfl⟩
  | start d p hc hp =>
    by_cases hd : d = c
    · subst hd
      right
      have hfp : p = f.p := by
        simp only [startSlice, setCtl_cpu, Function.update_self, Ctl.frame] at hf
        rw [← Option.some.inj hf]
      simp [startsSlice, hc, hp, hfp]
    · exact .inl (other hd (by simp) hf)
  | skip d i hc =>
    by_cases hd : d = c
    · subst hd; simp [Ctl.frame] at hf
    · exact .inl (other hd (by simp) hf)
  | dispatch d g hc hg =>
    left
    by_cases hd : d = c
    · subst hd
      exact ⟨g, by rw [hc]; rfl, by simp_all [Ctl.frame], by simp_all [Ctl.frame]⟩
    · exact other hd (fun e => s.ctl_setCur d e _) hf
  | back d g hc =>
    left
    by_cases hd : d = c
    · subst hd
      obtain rfl : { g with count := g.count + 1 } = f := by simpa [Ctl.frame] using hf
      exact ⟨g, by rw [hc]; rfl, rfl, rfl⟩
    · exact other hd (fun e => s.ctl_setCur d e _) hf
  | finish d g hc hg =>
    by_cases hd : d = c
    · subst hd; simp [Ctl.frame] at hf
    · exact .inl (other hd (by simp) hf)
  | claim d g np hc hl hn =>
    exact .inl ⟨f, by simpa [claimSlot_toMachine] using hf, rfl, rfl⟩

/-! ## Slots and pids -/

/-- A slot in use stays in use unless the step gives it up. -/
theorem step_alive (h : step l s = some s')
    (hd : s.discards l = false) {p : Slot} (hp : (s.proc p).state ≠ .UNUSED) :
    (s'.proc p).state ≠ .UNUSED := by
  cases step_effect h with
  | quiet _ _ hq =>
    have ht := hq.turn p
    generalize (s'.proc p).state = x, (s'.proc p).pid = i at ht ⊢
    cases ht with
    | keep => exact hp
    | wake _ => decide
    | leave c f _ _ _ hx => rcases hx with rfl | rfl | rfl <;> decide
    | reap _ hd' => simp [hd] at hd'
    | fail r a _ hd' => simp [hd] at hd'
    | born r a _ => decide
  | start c r hc hr => simpa [startSlice] using hp
  | skip c i hc => simpa using hp
  | dispatch c f hc hg =>
    by_cases hpf : p = f.p
    · subst hpf; simp [dispatch_life]
    · simpa [dispatch_proc_ne s c hpf] using hp
  | back c f hc => simpa using hp
  | finish c f hc hg => simpa using hp
  | claim c f np hc hl hn =>
    by_cases hpn : p = np
    · subst hpn; simp [claimSlot_proc_self]
    · simpa [claimSlot_proc_ne s hpn] using hp

/-- A pid changes when its process is reaped or created. -/
theorem step_pid (h : step l s = some s') (p : Slot) : (s'.proc p).pid = (s.proc p).pid ∨
    ((s.proc p).state = .ZOMBIE ∧ (s'.proc p).state = .UNUSED ∧ (s'.proc p).pid = 0) ∨
    ((s.proc p).state = .UNUSED ∧ (s'.proc p).state = .EMBRYO ∧
      (s'.proc p).pid = s.nextpid ∧ s'.nextpid = s.nextpid + 1) := by
  cases step_effect h with
  | quiet _ _ hq =>
    have ht := hq.turn p
    generalize (s'.proc p).state = x, (s'.proc p).pid = i at ht ⊢
    cases ht with
    | reap hz hd => exact .inr (.inl ⟨hz, rfl, rfl⟩)
    | _ => exact .inl rfl
  | start c r hc hr => exact .inl (by simp [startSlice])
  | skip c i hc => exact .inl (by simp)
  | dispatch c f hc hg =>
    left
    by_cases hpf : p = f.p
    · subst hpf; simp [dispatch_life]
    · simp [dispatch_proc_ne s c hpf]
  | back c f hc => exact .inl (by simp)
  | finish c f hc hg => exact .inl (by simp)
  | claim c f np hc hl hn =>
    by_cases hpn : p = np
    · subst hpn
      exact .inr (.inr ⟨findUnused_some hn, by simp [claimSlot_proc_self],
        by simp [claimSlot_proc_self], by simp [claimSlot_toMachine]⟩)
    · exact .inl (by simp [claimSlot_proc_ne s hpn])

theorem step_nextpid_le (h : step l s = some s') : s.nextpid ≤ s'.nextpid := by
  cases step_effect h with
  | quiet _ _ hq => exact hq.nextpid.ge
  | start c r hc hr => exact le_of_eq (by simp [startSlice])
  | skip c i hc => exact le_of_eq (by simp)
  | dispatch c f hc hg => exact le_rfl
  | back c f hc => exact le_rfl
  | finish c f hc hg => exact le_of_eq (by simp)
  | claim c f np hc hl hn => simp [claimSlot_toMachine]

/-- Pids are handed out in increasing order. -/
theorem Reached.pid_lt (h : Reached s) : 0 < s.nextpid ∧ ∀ p, (s.proc p).pid < s.nextpid := by
  refine Transition.Reachable.invariant
    (I := fun s : Kernel n => 0 < s.nextpid ∧ ∀ p, (s.proc p).pid < s.nextpid) h ⟨?_, ?_⟩ ?_
  · have hb : (boot n).nextpid = 2 := rfl
    rw [hb]
    decide
  · intro p
    have hb : (boot n).nextpid = 2 := rfl
    rw [hb]
    by_cases hp : p = 0
    · subst hp
      rw [boot_proc_zero]
      decide
    · rw [boot_proc_ne hp]
      exact (by decide : (0 : ℤ) < 2)
  · rintro s l s' ⟨hpos, hlt⟩ hs
    have hle := step_nextpid_le hs
    refine ⟨hpos.trans_le hle, fun p => ?_⟩
    rcases step_pid hs p with he | ⟨-, -, he⟩ | ⟨-, -, he, hnext⟩
    · rw [he]
      exact (hlt p).trans_le hle
    · rw [he]
      exact hpos.trans_le hle
    · rw [he, hnext]
      omega

/-! ## Quanta -/

/-- The quanta are what `userinit` made them. -/
theorem Reached.quantum (h : Reached s) (k : Level) : (s.q k).ticks = Kernel.quantum k := by
  refine Transition.Reachable.invariant
    (I := fun s : Kernel n => (s.q k).ticks = Kernel.quantum k) h ?_ ?_
  · have hq : (boot n).q = ((default : Kernel n).initQueues.addQueue 0 0).q :=
      claimSlot_q _ le_rfl
    rw [hq, addQueue_q_ticks]
    rfl
  · intro s l s' hi hs
    rw [← hi]
    cases step_effect hs with
    | quiet _ _ hq => rw [hq.q]
    | start c p hc hp => simp [startSlice]
    | skip c i hc => simp
    | dispatch c f hc hg => rfl
    | back c f hc => rfl
    | finish c f hc hg =>
      simp only [setCtl_q, sliceEnd, degrade, boost]
      split_ifs <;> simp
    | claim c f np hc hl hn =>
      simp only [setForking_q, claimSlot]
      split_ifs <;> simp

end Xv6Mlfq
