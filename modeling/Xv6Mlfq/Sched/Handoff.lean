import Xv6Mlfq.Proc.Effect
import Mathlib.Logic.Relation

/-!
# The hand-off of the lock and the CPU

`scheduler` acquires `ptable.lock`, a process it switches to releases it, a process
that leaves the CPU acquires it again and `scheduler` of the *same* CPU goes on with
it.  `View` is the part of the system this protocol is about, for an arbitrary set `P`
of processes and `C` of CPUs, and `Step` its moves.  `inv_step` is the argument that
no interleaving puts a process on two CPUs.

The kernel refines the protocol: `view` reads its state off the kernel, and
`step_refines` shows that a step of the kernel is a run of it.

## Main definitions

* `Phase` — what a CPU is doing: idle, in `scheduler` (with a process in hand or not),
  in a process, or just back from one.
* `Inv` — the invariant of the protocol.
* `view` — the abstraction function.
-/

namespace Xv6Mlfq
namespace Handoff

open Function (update)
open Kernel

/-- What a CPU is doing. -/
inductive Phase (P : Type*)
  | idle
  | sched (p : Option P)
  | running (p : P)
  | returned (p : P)

section Protocol

variable {P C : Type*}

/-- The process that is on the CPU in this phase. -/
def Phase.cur : Phase P → Option P
  | .idle | .sched _ => none
  | .running p | .returned p => some p

/-- The process that `scheduler` has in hand while it does not run. -/
def Phase.stopped : Phase P → Option P
  | .sched (some p) | .returned p => some p
  | _ => none

/-- Control is in `scheduler`, between `acquire` and `release`. -/
def Phase.inScheduler : Phase P → Prop
  | .sched _ | .returned _ => True
  | _ => False

attribute [grind] Phase.cur Phase.stopped Phase.inScheduler

theorem Phase.inScheduler_of_stopped {x : Phase P} {p : P} (h : x.stopped = some p) :
    x.inScheduler := by
  cases x with
  | sched y => trivial
  | returned r => trivial
  | idle => simp [Phase.stopped] at h
  | running r => simp [Phase.stopped] at h

/-- The state of the protocol; `forking p` is the slot that `p` is about to fill. -/
@[ext] structure View (P C : Type*) where
  st : P → ProcState
  forking : P → Option P
  lock : Option C
  cur : C → Option P
  phase : C → Phase P

variable [DecidableEq P] [DecidableEq C]

/-- The moves of the protocol. -/
inductive Step : View P C → View P C → Prop
  | acquire {v} (c : C) (hl : v.lock = none) (hc : v.phase c = .idle) :
      Step v { v with lock := some c, phase := update v.phase c (.sched none) }
  | pick {v} (c : C) (p : P) (hc : v.phase c = .sched none) (hp : v.st p = .RUNNABLE) :
      Step v { v with phase := update v.phase c (.sched (some p)) }
  | drop {v} (c : C) (p : P) (hc : v.phase c = .sched (some p)) :
      Step v { v with phase := update v.phase c (.sched none) }
  | release {v} (c : C) (hc : v.phase c = .sched none) :
      Step v { v with lock := none, phase := update v.phase c .idle }
  | dispatch {v} (c : C) (p : P) (hc : v.phase c = .sched (some p)) (hp : v.st p = .RUNNABLE) :
      Step v { v with
        st := update v.st p .RUNNING
        cur := update v.cur c (some p)
        phase := update v.phase c (.running p) }
  | letGo {v} (c : C) (p : P) (hc : v.phase c = .running p) (hl : v.lock = some c) :
      Step v { v with lock := none }
  | leave {v} (c : C) (p : P) (x : ProcState) (hc : v.phase c = .running p)
      (hl : v.lock = none ∨ v.lock = some c)
      (hx : x = .RUNNABLE ∨ x = .SLEEPING ∨ x = .ZOMBIE) :
      Step v { v with
        lock := some c
        st := update v.st p x
        phase := update v.phase c (.returned p) }
  | back {v} (c : C) (p : P) (hc : v.phase c = .returned p) :
      Step v { v with cur := update v.cur c none, phase := update v.phase c (.sched (some p)) }
  | wake {v} (st' : P → ProcState)
      (h : ∀ p, st' p = v.st p ∨ v.st p = .SLEEPING ∧ st' p = .RUNNABLE) :
      Step v { v with st := st' }
  | claim {v} (p np : P) (hp : v.forking p = none) (hnp : v.st np = .UNUSED) :
      Step v { v with st := update v.st np .EMBRYO, forking := update v.forking p (some np) }
  | settle {v} (p np : P) (x : ProcState) (hp : v.forking p = some np)
      (hx : x = .UNUSED ∨ x = .RUNNABLE) :
      Step v { v with st := update v.st np x, forking := update v.forking p none }
  | reap {v} (p : P) (hp : v.st p = .ZOMBIE)
      (hl : ∀ c, v.lock = some c → ¬ (v.phase c).inScheduler) :
      Step v { v with st := update v.st p .UNUSED }

/-- The invariant.  `held` and `owner` place the lock, `cur_eq` says what `c->proc` is;
`running`, `runs` and `apart` are the correspondence between `RUNNING` processes and the
CPUs that run them; the last three keep the other processes out of the way. -/
structure Inv {P C : Type*} (v : View P C) : Prop where
  held : ∀ c, (v.phase c).inScheduler → v.lock = some c
  owner : ∀ c, v.lock = some c → v.phase c ≠ .idle
  cur_eq : ∀ c, v.cur c = (v.phase c).cur
  running : ∀ c p, v.phase c = .running p → v.st p = .RUNNING
  runs : ∀ p, v.st p = .RUNNING → ∃ c, v.phase c = .running p
  apart : ∀ c c' p, v.phase c = .running p → v.phase c' = .running p → c = c'
  stopped : ∀ c p, (v.phase c).stopped = some p →
    v.st p = .RUNNABLE ∨ v.st p = .SLEEPING ∨ v.st p = .ZOMBIE
  embryo : ∀ p np, v.forking p = some np → v.st np = .EMBRYO
  fork_inj : ∀ p p' np, v.forking p = some np → v.forking p' = some np → p = p'

omit [DecidableEq P] in
theorem exists_running_update {phase : C → Phase P} {c₀ : C} {x : Phase P} {p : P}
    (h : ∃ c, phase c = .running p) (h₀ : phase c₀ ≠ .running p) :
    ∃ c, update phase c₀ x c = .running p := by
  obtain ⟨c, hc⟩ := h
  refine ⟨c, ?_⟩
  rw [Function.update_of_ne]
  · exact hc
  · rintro rfl
    exact h₀ hc

attribute [local grind cases] Inv

attribute [local grind =] Function.update_apply

/-- **Every move of the protocol keeps the invariant.** -/
theorem inv_step {v v' : View P C} (hv : Inv v) (h : Step v v') : Inv v' := by
  cases h with
  | dispatch c p hc hp =>
    -- nobody runs a `RUNNABLE` process, and the lock keeps the other CPUs out of `scheduler`
    have hno : ∀ c', v.phase c' ≠ .running p := fun c' hr => by simp [hv.running c' p hr] at hp
    have hlock : v.lock = some c := hv.held c (by simp [hc, Phase.inScheduler])
    constructor
    case running =>
      intro c' r hr
      by_cases hcc : c' = c
      · obtain rfl : p = r := by simpa [hcc] using hr
        exact Function.update_self ..
      · have hr : v.phase c' = .running r := by simpa [hcc] using hr
        have hrp : r ≠ p := fun h => hno c' (h ▸ hr)
        exact (Function.update_of_ne hrp _ _).trans (hv.running c' r hr)
    case runs =>
      intro r hr
      by_cases hrp : r = p
      · exact ⟨c, by simp [hrp]⟩
      · exact exists_running_update (hv.runs r (by simpa [hrp] using hr)) (by simp [hc])
    case apart =>
      intro c₁ c₂ r h₁ h₂
      by_cases h₁c : c₁ = c <;> by_cases h₂c : c₂ = c
      · exact h₁c.trans h₂c.symm
      · exact absurd (by grind) (hno c₂)
      · exact absurd (by grind) (hno c₁)
      · exact hv.apart c₁ c₂ r (by simpa [h₁c] using h₁) (by simpa [h₂c] using h₂)
    case stopped =>
      intro c' r hr
      have hcc : c' ≠ c := fun h => by simp [h, Phase.stopped] at hr
      have hin := Phase.inScheduler_of_stopped (by simpa [hcc] using hr)
      exact absurd (Option.some.inj (hlock.symm.trans (hv.held c' hin))) hcc.symm
    all_goals grind
  | leave c p x hc hl hx =>
    have hne : x ≠ .RUNNING := by rintro rfl; simp at hx
    constructor
    case running =>
      -- no other CPU runs the process
      intro c' r hr
      have hcc : c' ≠ c := fun h => by simp [h] at hr
      have hr : v.phase c' = .running r := by simpa [hcc] using hr
      have hrp : r ≠ p := fun h => hcc (hv.apart c' c p (h ▸ hr) hc)
      exact (Function.update_of_ne hrp _ _).trans (hv.running c' r hr)
    case runs =>
      intro r hr
      have hrp : r ≠ p := fun h => hne (by simpa [h] using hr)
      exact exists_running_update (hv.runs r (by simpa [hrp] using hr))
        (by simpa [hc] using hrp.symm)
    case stopped =>
      intro c' r hr
      by_cases hcc : c' = c
      · obtain rfl : p = r := by simpa [hcc, Phase.stopped] using hr
        simpa using hx
      · have hin := Phase.inScheduler_of_stopped (by simpa [hcc] using hr)
        grind
    all_goals grind
  | claim p np hp hnp =>
    -- the slot was `UNUSED`, so nobody else is about to fill it
    have hnew : ∀ {q r}, v.forking q = some r → r ≠ np := fun hq h => by
      simp [← h, hv.embryo _ _ hq] at hnp
    constructor
    case embryo =>
      intro q r hq
      by_cases hqp : q = p
      · obtain rfl : np = r := by simpa [hqp] using hq
        exact Function.update_self ..
      · have hq : v.forking q = some r := by simpa [hqp] using hq
        exact (Function.update_of_ne (hnew hq) _ _).trans (hv.embryo q r hq)
    all_goals grind
  | reap p hp hl =>
    constructor
    case stopped =>
      -- whoever has a process in hand has the lock
      intro c r hr
      have hin := Phase.inScheduler_of_stopped hr
      exact absurd hin (hl c (hv.held c hin))
    all_goals grind
  | acquire c hl hc | pick c p hc hp | drop c p hc | release c hc | back c p hc =>
    constructor
    case runs => exact fun r hr => exists_running_update (hv.runs r hr) (by simp [hc])
    all_goals grind
  | letGo | wake | settle =>
    constructor
    all_goals grind

end Protocol

/-! ## The kernel refines the protocol -/

variable {n : ℕ}

def phaseOf : Ctl → Phase Slot
  | .idle => .idle
  | .scan _ => .sched none
  | .slice f => .sched (some f.p)
  | .running f => .running f.p
  | .returned f => .returned f.p

/-- The part of the kernel the protocol speaks of. -/
def view (s : Kernel n) : View Slot (Fin n) where
  st := (fun x : Proc => x.state) ∘ s.proc
  forking := (fun x : Proc => x.forking.map Prod.snd) ∘ s.proc
  lock := s.lock
  cur := Cpu.proc ∘ s.cpu
  phase := (fun x : Cpu => phaseOf x.ctl) ∘ s.cpu

variable {s : Kernel n}

theorem view_phase {c : Fin n} {x : Ctl} (h : (s.cpu c).ctl = x) :
    (view s).phase c = phaseOf x := by
  simp [view, h]

theorem view_eq {t : Kernel n} (hk : t.lock = s.lock) (hc : t.cpu = s.cpu)
    (hl : ∀ p, (t.proc p).toLife = (s.proc p).toLife) : view t = view s := by
  apply View.ext
  · funext p; simp [view, hl]
  · funext p; simp [view, hl]
  · exact hk
  · simp [view, hc]
  · simp [view, hc]

@[simp] theorem view_setCtl (s : Kernel n) (c : Fin n) (x : Ctl) :
    view (s.setCtl c x) = { view s with phase := update (view s).phase c (phaseOf x) } := by
  apply View.ext
  · rfl
  · rfl
  · rfl
  · funext c'
    by_cases h : c' = c
    · subst h; simp [view]
    · simp [view, h]
  · simp [view, Function.comp_update]

@[simp] theorem view_setCur (s : Kernel n) (c : Fin n) (p : Option Slot) :
    view (s.setCur c p) = { view s with cur := update (view s).cur c p } := by
  apply View.ext
  · rfl
  · rfl
  · rfl
  · simp [view, Function.comp_update]
  · funext c'
    by_cases h : c' = c
    · subst h; simp [view]
    · simp [view, h]

@[simp] theorem view_setLock (s : Kernel n) (x : Option (Fin n)) :
    view (s.setLock x) = { view s with lock := x } := rfl

@[simp] theorem view_use (s : Kernel n) (us : List Use) : view (s.use us) = view s := rfl

/-- An update of one entry moves that process in the protocol. -/
theorem view_modify (s : Kernel n) (p : Slot) (f : Proc → Proc) :
    view (s.modify p f) = { view s with
      st := update (view s).st p (f (s.proc p)).state
      forking := update (view s).forking p ((f (s.proc p)).forking.map Prod.snd) } := by
  apply View.ext <;> simp [view, Function.comp_update]

/-- An update that keeps the state and the fork in progress is not seen. -/
theorem view_modify_eq {p : Slot} {f : Proc → Proc} (hs : (f (s.proc p)).state = (s.proc p).state)
    (hf : (f (s.proc p)).forking = (s.proc p).forking) : view (s.modify p f) = view s := by
  rw [view_modify, hs, hf]
  apply View.ext <;> simp [view]

theorem view_setForking_eq {p np : Slot} {a b : ForkStage}
    (h : (s.proc p).forking = some (a, np)) : view (s.setForking p (some (b, np))) = view s := by
  rw [setForking, view_modify]
  apply View.ext <;> simp [view, h]

theorem wakes_view_step {t : Kernel n} (h : s.Wakes t) : Step (view s) (view t) := by
  have hv : view t = { view s with st := (view t).st } := by
    apply View.ext
    · rfl
    · funext p; simp [view, h.forking]
    · simp [view, h.machine]
    · simp [view, h.machine]
    · simp [view, h.machine]
  rw [hv]
  exact .wake _ fun p => h.state p

@[simp] theorem view_setState (s : Kernel n) (p : Slot) (x : ProcState) :
    view (s.setState p x) = { view s with st := update (view s).st p x } := by
  rw [setState, view_modify]
  apply View.ext <;> simp [view]

@[simp] theorem view_setForking (s : Kernel n) (p : Slot) (x : Option (ForkStage × Slot)) :
    view (s.setForking p x) =
      { view s with forking := update (view s).forking p (x.map Prod.snd) } := by
  rw [setForking, view_modify]
  apply View.ext <;> simp [view]

/-- A process that leaves the CPU through `sched`. -/
theorem leave_sched {c : Fin n} {f : Frame} (hc : (s.cpu c).ctl = .running f)
    (hl : s.lock = none ∨ s.lock = some c) (g : Proc → Proc)
    (hf : (g (s.proc f.p)).forking = (s.proc f.p).forking)
    (hx : (g (s.proc f.p)).state = .RUNNABLE ∨ (g (s.proc f.p)).state = .SLEEPING ∨
      (g (s.proc f.p)).state = .ZOMBIE) :
    Step (view s) (view ((s.modify f.p g).sched c f)) := by
  have h := Step.leave (v := view s) c f.p (g (s.proc f.p)).state (view_phase hc) hl hx
  have hfork : update (view s).forking f.p ((g (s.proc f.p)).forking.map Prod.snd) =
      (view s).forking := by
    rw [hf]
    exact Function.update_eq_self _ _
  simpa [sched, view_modify, hfork, phaseOf] using h

theorem waitRound_refines {c : Fin n} {f : Frame}
    (hc : (s.cpu c).ctl = .running f) (hl : s.lock = none ∨ s.lock = some c) :
    Relation.ReflTransGen Step (view s) (view (s.waitRound c f)) := by
  have hphase : (view s).phase c = .running f.p := view_phase hc
  -- giving up the lock is a step when it is held, and none when it is not
  have letGo : ∀ v : View Slot (Fin n), v.phase = (view s).phase → v.lock = s.lock →
      Relation.ReflTransGen Step v { v with lock := none } := by
    intro v hp hv
    rcases hl with hl | hl
    · rw [← hl, ← hv]
    · exact .single (.letGo c f.p (by rw [hp, hphase]) (hv.trans hl))
  rcases s.waitRound_cases c f with ⟨z, hz, he⟩ | ⟨_, he⟩ | ⟨_, he⟩
  · have hreap : view (s.reap z) = { view s with st := update (view s).st z .UNUSED } := by
      rw [reap, view_modify]
      apply View.ext <;> simp [view]
    have hstep : Step (view s) (view (s.reap z)) := by
      rw [hreap]
      refine .reap z (zombieChild_some hz).2 fun c' hc' => ?_
      have : c' = c := by
        rcases hl with hl | hl
        · exact absurd (hl.symm.trans hc') (by simp)
        · exact Option.some.inj (hc'.symm.trans hl)
      subst this
      simp [hphase, Phase.inScheduler]
    rw [he, view_setLock]
    exact .head hstep (letGo _ (by rw [hreap]) (by rw [hreap]; rfl))
  · rw [he, view_setLock]
    exact letGo _ rfl rfl
  · rw [he]
    exact .single (leave_sched hc hl _ rfl (.inr (.inl rfl)))

/-- **Each step of the kernel is a run of the protocol.** -/
theorem step_refines {s' : Kernel n} {l : Label n} (h : step l s = some s') :
    Relation.ReflTransGen Step (view s) (view s') := by
  cases l with
  | acquire c =>
    obtain ⟨hl, hc, rfl⟩ := step_acquire h
    have := Step.acquire (v := view s) c hl (view_phase hc)
    exact .single (by simpa [phaseOf] using this)
  | scan c =>
    obtain ⟨i, hc, ⟨p, -, hr, rfl⟩ | ⟨-, rfl⟩ | ⟨-, rfl⟩⟩ := step_scan h
    · have hv : view s.returnProc.2 = view s := view_eq (by simp) (by simp) (by simp)
      have := Step.pick (v := view s) c p (view_phase hc) (returnProc_runnable hr)
      exact .single (by simpa [startSlice, hv, phaseOf] using this)
    · have hv : view s.returnProc.2 = view s := view_eq (by simp) (by simp) (by simp)
      have hsame : update (view s).phase c (.sched none) = (view s).phase := by
        rw [← show (view s).phase c = .sched none from view_phase hc]
        exact Function.update_eq_self _ _
      rw [view_setCtl, hv, phaseOf, hsame]
    · have := Step.release (v := view s) c (view_phase hc)
      exact .single (by simpa [phaseOf] using this)
  | loop c =>
    obtain ⟨f, hc, ⟨hg, rfl⟩ | ⟨-, rfl⟩⟩ := step_loop h
    · have := Step.dispatch (v := view s) c f.p (view_phase hc) hg.1
      have hv : view (s.dispatch c f) = { view s with
          st := update (view s).st f.p .RUNNING
          cur := update (view s).cur c (some f.p) } := by
        simp only [dispatch, view_modify, view_setCur, view_use]
        apply View.ext <;> simp [view]
      exact .single (by simpa [hv, phaseOf] using this)
    · have hv : view (s.sliceEnd f) = view s := view_eq (by simp) (by simp) (by simp)
      have := Step.drop (v := view s) c f.p (view_phase hc)
      exact .single (by simpa [hv, phaseOf] using this)
  | resume c =>
    obtain ⟨f, hc, hl, rfl | rfl | ⟨-, rfl⟩⟩ := step_resume h
    · exact .single (.letGo c f.p (view_phase hc) hl)
    · have hv : view (s.awake f.p) = view s := view_modify_eq rfl rfl
      rw [view_setLock, hv]
      exact .single (.letGo c f.p (view_phase hc) hl)
    · have hv : view (s.awake f.p) = view s := view_modify_eq rfl rfl
      rw [← hv]
      exact waitRound_refines (s := s.awake f.p) hc (.inr hl)
  | back c =>
    obtain ⟨f, hc, rfl⟩ := step_back h
    have := Step.back (v := view s) c f.p (view_phase hc)
    have hv : view (s.afterSwtch c f) = { view s with cur := update (view s).cur c none } := by
      rw [← view_setCur]
      exact view_eq rfl rfl (by simp)
    exact .single (by simpa [hv, phaseOf] using this)
  | yield c =>
    obtain ⟨f, hc, hl, rfl⟩ := step_yield h
    exact .single (leave_sched hc (.inl hl) _ rfl (.inl rfl))
  | sleep c chan =>
    obtain ⟨f, hc, hl, -, rfl⟩ := step_sleep h
    exact .single (leave_sched hc (.inl hl) _ rfl (.inr (.inl rfl)))
  | exit c =>
    obtain ⟨f, hc, hl, -, -, rfl⟩ := step_exit h
    obtain ⟨t, hw, he⟩ := s.exit_cases f.p
    rw [he]
    refine .head (wakes_view_step hw) (.single ?_)
    refine leave_sched (s := t) ?_ (.inl ?_) _ rfl (.inr (.inr rfl))
    · rw [hw.machine, hc]
    · rw [hw.machine, hl]
  | wait c =>
    obtain ⟨f, hc, hl, -, rfl⟩ := step_wait h
    exact waitRound_refines hc (.inl hl)
  | kill c pid =>
    obtain ⟨f, -, -, rfl⟩ := step_kill h
    exact .single (wakes_view_step (s.wakes_kill pid))
  | fault c =>
    obtain ⟨f, -, -, rfl⟩ := step_fault h
    exact .single (wakes_view_step (s.wakes_fault f.p))
  | forkAlloc c =>
    obtain ⟨f, hc, -, hf, ⟨-, rfl⟩ | ⟨np, hn, rfl⟩⟩ := step_forkAlloc h
    · exact .refl
    · have hv : view (s.claimSlot np) = { view s with st := update (view s).st np .EMBRYO } := by
        apply View.ext <;> simp only [view, claimSlot_toMachine]
        · funext r
          by_cases hr : r = np
          · subst hr; simp [claimSlot_proc_self]
          · simp [claimSlot_proc_ne, hr]
        · funext r
          by_cases hr : r = np
          · subst hr; simp [claimSlot_proc_self]
          · simp [claimSlot_proc_ne, hr]
      have := Step.claim (v := view s) f.p np (by simp [view, hf]) (findUnused_some hn)
      exact .single (by simpa [hv] using this)
  | forkStack c kalloc =>
    obtain ⟨f, np, -, -, hf, rfl⟩ := step_forkStack h
    cases kalloc with
    | true =>
      have hf' : ((s.giveStack np true).proc f.p).forking = some (.alloced, np) := by
        rw [← hf]
        by_cases hp : f.p = np
        · simp [hp]
        · simp [hp]
      rw [if_pos rfl, view_setForking_eq hf', giveStack_true, view_modify_eq rfl rfl]
    | false =>
      have := Step.settle (v := view s) f.p np .UNUSED (by simp [view, hf]) (.inl rfl)
      exact .single (by simpa using this)
  | forkCopy c setupkvm pages =>
    obtain ⟨f, np, -, -, hf, rfl⟩ := step_forkCopy h
    split_ifs
    · have hv : view (s.copyProc f.p np) = view s := view_modify_eq rfl rfl
      have hf' : ((s.copyProc f.p np).proc f.p).forking = some (.stacked, np) := by
        rw [← hf]
        by_cases hp : f.p = np
        · simp [copyProc, hp]
        · simp [copyProc, hp]
      rw [view_setForking_eq hf', hv]
    · have := Step.settle (v := view s) f.p np .UNUSED (by simp [view, hf]) (.inl rfl)
      exact .single (by simpa using this)
  | forkRun c =>
    obtain ⟨f, np, hc, -, hf, rfl⟩ := step_forkRun h
    have := Step.settle (v := view s) f.p np .RUNNABLE (by simp [view, hf]) (.inr rfl)
    exact .single (by simpa using this)
  | wakeup chan =>
    obtain ⟨-, rfl⟩ := step_wakeup h
    exact .single (wakes_view_step (s.wakes_wakeup1 _))
  | tick =>
    obtain ⟨-, rfl⟩ := step_tick h
    exact .refl

theorem inv_refines {v w : View Slot (Fin n)} (h : Relation.ReflTransGen Step v w)
    (hv : Inv v) : Inv w := by
  induction h with
  | refl => exact hv
  | tail _ hs ih => exact inv_step ih hs

theorem inv_boot : Inv (view (boot n)) where
  held c h := h.elim
  owner c h := nomatch h
  cur_eq c := rfl
  running c p h := nomatch h
  runs p h := by
    have := (boot_state p).symm.trans h
    split_ifs at this
  apart c c' p h := nomatch h
  stopped c p h := nomatch h
  embryo p np h := by simp [view, boot_forking] at h
  fork_inj p p' np h := by simp [view, boot_forking] at h

end Handoff

open Handoff

variable {s : Kernel n} {c : Fin n} {f : Frame}

theorem Reached.handoff (h : Reached s) : Inv (view s) :=
  Transition.Reachable.invariant (I := fun s => Inv (view s)) h inv_boot
    fun _ _ _ hi hs => inv_refines (step_refines hs) hi

/-! ## Slices and CPUs -/

/-- A CPU in the middle of a slice runs its process, or holds the lock while the process
is stopped. -/
theorem Reached.frame_cases (h : Reached s) (hf : (s.cpu c).ctl.frame = some f) :
    (s.cpu c).ctl = .running f ∧ (s.proc f.p).state = .RUNNING ∨
      s.lock = some c ∧ ((s.proc f.p).state = .RUNNABLE ∨ (s.proc f.p).state = .SLEEPING ∨
        (s.proc f.p).state = .ZOMBIE) := by
  have hi := h.handoff
  have stopped : ∀ {x : Ctl}, (s.cpu c).ctl = x → (phaseOf x).stopped = some f.p →
      s.lock = some c ∧ ((s.proc f.p).state = .RUNNABLE ∨ (s.proc f.p).state = .SLEEPING ∨
        (s.proc f.p).state = .ZOMBIE) := by
    intro x hc hx
    rw [← view_phase hc] at hx
    exact ⟨hi.held c (Phase.inScheduler_of_stopped hx), hi.stopped c f.p hx⟩
  cases hc : (s.cpu c).ctl with
  | idle => simp [hc, Ctl.frame] at hf
  | scan i => simp [hc, Ctl.frame] at hf
  | running g =>
    obtain rfl : g = f := by simpa [hc, Ctl.frame] using hf
    exact .inl ⟨rfl, hi.running c g.p (view_phase hc)⟩
  | slice g =>
    obtain rfl : g = f := by simpa [hc, Ctl.frame] using hf
    exact .inr (stopped hc rfl)
  | returned g =>
    obtain rfl : g = f := by simpa [hc, Ctl.frame] using hf
    exact .inr (stopped hc rfl)

/-- A CPU at the guard of the slice loop. -/
theorem Reached.slice_stopped (h : Reached s) (hc : (s.cpu c).ctl = .slice f) :
    s.lock = some c ∧ ((s.proc f.p).state = .RUNNABLE ∨ (s.proc f.p).state = .SLEEPING ∨
      (s.proc f.p).state = .ZOMBIE) := by
  rcases h.frame_cases (c := c) (f := f) (by rw [hc]; rfl) with ⟨hr, -⟩ | hst
  · rw [hc] at hr
    cases hr
  · exact hst

/-- The process of a slice has a slot that is in use. -/
theorem Reached.frame_used (h : Reached s)
    (hf : (s.cpu c).ctl.frame = some f) : (s.proc f.p).state ≠ .UNUSED := by
  rcases h.frame_cases hf with ⟨-, hs⟩ | ⟨-, hs | hs | hs⟩ <;> rw [hs] <;> decide

/-- No process is in two slices. -/
theorem Reached.frame_apart (h : Reached s) {c' : Fin n} {f' : Frame}
    (hf : (s.cpu c).ctl.frame = some f) (hf' : (s.cpu c').ctl.frame = some f')
    (hp : f.p = f'.p) : c = c' := by
  rcases h.frame_cases hf with ⟨hc, hr⟩ | ⟨hl, hr⟩ <;>
    rcases h.frame_cases hf' with ⟨hc', hr'⟩ | ⟨hl', hr'⟩
  · exact h.handoff.apart c c' f.p (view_phase hc) (hp ▸ view_phase hc')
  · rw [← hp, hr] at hr'
    simp at hr'
  · rw [hp, hr'] at hr
    simp at hr
  · exact Option.some.inj (hl.symm.trans hl')

/-! ## The life of a process -/

/-- The state diagram of a process, with its pid; `nextpid` is the pid of the next one. -/
inductive StateDiagram (nextpid : ℤ) : ProcState → ℤ → ProcState → ℤ → Prop
  | keep (x : ProcState) (i : ℤ) : StateDiagram nextpid x i x i
  | claim (i : ℤ) : StateDiagram nextpid .UNUSED i .EMBRYO nextpid
  | fail (i : ℤ) : StateDiagram nextpid .EMBRYO i .UNUSED i
  | born (i : ℤ) : StateDiagram nextpid .EMBRYO i .RUNNABLE i
  | dispatch (i : ℤ) : StateDiagram nextpid .RUNNABLE i .RUNNING i
  | leave (i : ℤ) (x : ProcState) (h : x = .RUNNABLE ∨ x = .SLEEPING ∨ x = .ZOMBIE) :
      StateDiagram nextpid .RUNNING i x i
  | wake (i : ℤ) : StateDiagram nextpid .SLEEPING i .RUNNABLE i
  | reap (i : ℤ) : StateDiagram nextpid .ZOMBIE i .UNUSED 0

theorem step_life {s' : Kernel n} {l : Label n} (hr : Reached s) (h : step l s = some s')
    (p : Slot) : StateDiagram s.nextpid (s.proc p).state (s.proc p).pid
      (s'.proc p).state (s'.proc p).pid := by
  cases step_effect h with
  | quiet _ _ hq =>
    have ht := hq.turn p
    generalize (s'.proc p).state = x, (s'.proc p).pid = i at ht ⊢
    cases ht with
    | keep => exact .keep _ _
    | wake hp => rw [hp]; exact .wake _
    | leave c f x hc hp hx =>
      subst hp
      have hst : (s.proc f.p).state = .RUNNING := hr.handoff.running c f.p (view_phase hc)
      rw [hst]
      exact .leave _ _ hx
    | reap hp hd => rw [hp]; exact .reap _
    | fail r a hf hd =>
      have hst : (s.proc p).state = .EMBRYO := hr.handoff.embryo r p (by simp [view, hf])
      rw [hst]
      exact .fail _
    | born r a hf =>
      have hst : (s.proc p).state = .EMBRYO := hr.handoff.embryo r p (by simp [view, hf])
      rw [hst]
      exact .born _
  | start c r hc hp => simpa [Kernel.startSlice] using StateDiagram.keep _ _
  | skip c i hc => simpa using StateDiagram.keep _ _
  | dispatch c f hc hg =>
    by_cases hpf : p = f.p
    · subst hpf
      simpa [Kernel.dispatch_life, hg.1] using StateDiagram.dispatch _
    · simpa [Kernel.dispatch_proc_ne s c hpf] using StateDiagram.keep _ _
  | back c f hc => simpa using StateDiagram.keep _ _
  | finish c f hc hg => simpa using StateDiagram.keep _ _
  | claim c f np hc hl hn =>
    by_cases hpn : p = np
    · subst hpn
      simpa [Kernel.claimSlot_proc_self, Kernel.findUnused_some hn] using StateDiagram.claim _
    · simpa [Kernel.claimSlot_proc_ne s hpn] using StateDiagram.keep _ _

/-- A step that hands out no pid creates no process. -/
theorem alive_of_nextpid_eq {s' : Kernel n} {l : Label n} (hr : Reached s)
    (h : step l s = some s') (hpid : s'.nextpid = s.nextpid) {p : Slot}
    (hp : (s'.proc p).state ≠ .UNUSED) : (s.proc p).state ≠ .UNUSED := by
  have hlife := step_life hr h p
  have hlt := (hr.next h).pid_lt.2 p
  generalize (s.proc p).state = x, (s.proc p).pid = i, (s'.proc p).state = y,
    (s'.proc p).pid = j at hlife hlt hp ⊢
  cases hlife with
  | keep => exact hp
  | claim => omega
  | fail | reap => exact absurd rfl hp
  | born | dispatch | leave | wake => decide

/-- A process that exists has a positive pid. -/
theorem Reached.pid_pos (h : Reached s) (p : Slot) :
    (s.proc p).state ≠ .UNUSED → 0 < (s.proc p).pid := by
  refine (Transition.Reachable.invariant
    (I := fun s => Reached s ∧ ((s.proc p).state ≠ .UNUSED → 0 < (s.proc p).pid)) h
    ⟨.refl _, fun hp => ?_⟩ ?_).2
  · obtain rfl := eq_zero_of_boot hp
    exact Int.one_pos
  · intro s l s' hi hs
    refine ⟨hi.1.next hs, ?_⟩
    have hlife := step_life hi.1 hs p
    have hpos := hi.2
    generalize (s.proc p).state = x, (s.proc p).pid = i, (s'.proc p).state = y,
      (s'.proc p).pid = j at hlife hpos ⊢
    cases hlife with
    | keep => exact hpos
    | claim => exact fun _ => hi.1.pid_lt.1
    | fail | reap => exact fun hne => absurd rfl hne
    | born | dispatch | leave | wake => exact fun _ => hpos (by decide)

/-! ## Running processes -/

/-- **Running processes and CPUs correspond.**  Whenever the lock is free the `RUNNING`
processes are exactly those on a CPU, each on one, and `scheduler` only ever switches to
a `RUNNABLE` process. -/
theorem running_iff_on_one_cpu (s : Kernel n) (h : Reached s) :
    (s.lock = none →
      (∀ p, (s.proc p).state = .RUNNING ↔ ∃! c, (s.cpu c).proc = some p) ∧
      ∀ p c c', (s.cpu c).proc = some p → (s.cpu c').proc = some p → c = c') ∧
    ∀ l s' c f, step l s = some s' → (s.cpu c).ctl ≠ .running f →
      (s'.cpu c).ctl = .running f → (s.proc f.p).state = .RUNNABLE := by
  have hi := h.handoff
  constructor
  · intro hl
    -- with the lock free no CPU is in `scheduler`, so a process on a CPU runs there
    have hon : ∀ c p, (s.cpu c).proc = some p → (view s).phase c = .running p := by
      intro c p hc
      have hcur := hi.cur_eq c
      rw [show (view s).cur c = some p from hc] at hcur
      cases hx : (view s).phase c with
      | idle => rw [hx] at hcur; cases hcur
      | sched y => rw [hx] at hcur; cases hcur
      | running r => rw [hx] at hcur; cases hcur; rfl
      | returned r => exact absurd (hi.held c (by rw [hx]; trivial)) (by simp [view, hl])
    have hone : ∀ p c c', (s.cpu c).proc = some p → (s.cpu c').proc = some p → c = c' :=
      fun p c c' hc hc' => hi.apart c c' p (hon c p hc) (hon c' p hc')
    refine ⟨fun p => ⟨fun hp => ?_, fun ⟨c, hc, _⟩ => hi.running c p (hon c p hc)⟩, hone⟩
    obtain ⟨c, hc⟩ := hi.runs p hp
    have hcp : (s.cpu c).proc = some p := (hi.cur_eq c).trans (by rw [hc]; rfl)
    exact ⟨c, hcp, fun c' hc' => hone p c' c hc' hcp⟩
  · intro l s' c f hs hc hc'
    rcases step_ctl hs c with he | hn
    · exact absurd (he ▸ hc') hc
    · rw [hc'] at hn
      cases hx : (s.cpu c).ctl <;> rw [hx] at hn <;> cases hn
      case dispatch hg => exact hg.1

theorem running_iff_on_one_cpu_switched : ∃ s : Kernel 2,
    Reached s ∧ s.lock = none ∧ ∃! c, (s.cpu c).proc = some 0 := by
  obtain ⟨s, hx, hlock, hrun⟩ := exists_run [.acquire 1, .scan 1, .loop 1, .resume 1]
    (fun s : Kernel 2 => s.lock = none ∧ (s.proc 0).state = .RUNNING) (by decide +kernel)
  exact ⟨s, ⟨_, hx⟩, hlock, (((running_iff_on_one_cpu s ⟨_, hx⟩).1 hlock).1 0).mp hrun⟩

end Xv6Mlfq
