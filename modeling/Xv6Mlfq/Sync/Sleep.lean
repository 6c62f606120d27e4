import Xv6Mlfq.Lib.Monitor
import Xv6Mlfq.Life.Families

/-!
# `sleep` and `wakeup` under a lock

The kernel of `Scheduler` makes one step of `sleep`, because all of it happens under
`ptable.lock`.  Here `sleep(chan, lk)` is cut where the locks change hands: it takes
`ptable.lock` while it holds `lk`, releases `lk`, sets `chan` and the state, and after `sched`
has returned it releases `ptable.lock` and takes `lk` again.  Any number of processes run

    acquire(lk); while(!cond) sleep(chan, lk); ...; release(lk)

in the kernel, next to everything else that the kernel does, and any number of wakers — processes
or interrupt handlers — run

    acquire(lk); cond = true; wakeup(chan); release(lk)

`lk` is any spinlock but `ptable.lock`.  A process that holds it runs with interrupts off, so the
timer does not take the CPU from it.

## Main definitions

* `Sync`, `syncStep` — the system.
* `Sync.monitor` — the abstraction to the protocol of `Monitor`.

## Main results

* `sleep_pieces` — the pieces of `sleep` together are the kernel's `sleep`.
* `sync_refines` — every step is a move of the protocol, or none.
-/

namespace Xv6Mlfq

open Function (update update_self update_of_ne)
open Kernel

variable {n : ℕ}

/-! ## What a step does to a process that does not make it -/

/-- The process that makes the step. -/
def Kernel.actor (s : Kernel n) (l : Label n) : Option Slot :=
  let run (c : Fin n) : Option Slot :=
    match (s.cpu c).ctl with
    | .running f => some f.p
    | _ => none
  match l with
  | .resume c | .yield c | .sleep c _ | .exit c | .wait c | .kill c _ | .fault c => run c
  | .forkAlloc c | .forkStack c _ | .forkCopy c _ _ | .forkRun c => run c
  | _ => none

/-- A process that was not put to sleep and does not sleep on another channel, and that will not
come back to `wait` unless it was going to. -/
structure Kernel.Sleeper (s s' : Kernel n) (p : Slot) : Prop where
  state : (s'.proc p).state = .SLEEPING → (s.proc p).state = .SLEEPING
  chan : (s'.proc p).state = .SLEEPING → (s'.proc p).chan = (s.proc p).chan
  wait : (s'.proc p).context = .wait → (s.proc p).context = .wait

variable {s s' : Kernel n} {p : Slot}

theorem Kernel.sleeper_of_life (h : (s'.proc p).toLife = (s.proc p).toLife) : Sleeper s s' p := by
  constructor <;> simp [h]

/-- A process that does not sleep afterwards. -/
theorem Kernel.sleeper_of_ne (h : (s'.proc p).state ≠ .SLEEPING)
    (hw : (s'.proc p).context = .wait → (s.proc p).context = .wait) : Sleeper s s' p :=
  ⟨fun hs => absurd hs h, fun hs => absurd hs h, hw⟩

theorem Kernel.sleeper_of_mayWake {x : ProcState}
    (h : MayWake (s.proc p).state x) (hs : (s'.proc p).state = x)
    (hc : (s'.proc p).chan = (s.proc p).chan) (hw : (s'.proc p).context = (s.proc p).context) :
    Sleeper s s' p := by
  refine ⟨fun hs' => ?_, fun _ => hc, fun h' => hw ▸ h'⟩
  rw [← hs, hs'] at h
  generalize (s.proc p).state = y at h ⊢
  cases h
  rfl

theorem Kernel.sleeper_exit {cur r : Slot} (hi : s.initproc = some r)
    (hne : cur ≠ r) (h : p ≠ cur) : Sleeper s (s.exit cur) p := by
  let a : Kernel n := s.modify cur fun x => { x with ofile := fun _ => none, cwd := none }
  have ha : Abandons cur (List.finRange NPROC) (a.wakeup1 ((a.proc cur).parent.map .proc)) _ :=
    foldl_abandon _ fun he => hne (Option.some.inj (hi.symm.trans he)).symm
  obtain ⟨x, hx, hl⟩ := ha.life p
  obtain ⟨y, hy, hl'⟩ := a.life_wakeup1 ((a.proc cur).parent.map .proc) p
  have hap : (a.proc p).toLife = (s.proc p).toLife := by simp [a, h]
  have hexit : ((s.exit cur).proc p).toLife =
      (((List.finRange NPROC).foldl (abandon cur)
        (a.wakeup1 ((a.proc cur).parent.map .proc))).proc p).toLife := by
    rw [Kernel.exit, modify_proc, update_of_ne h]
  rw [hl'] at hx
  refine sleeper_of_mayWake (x := x) ?_ ?_ ?_ ?_
  · rw [← hap]
    exact hy.trans hx
  · rw [hexit, hl]
  · rw [hexit, hl]
    rw [hl', hap]
  · rw [hexit, hl]
    rw [hl', hap]

/-- A round of `wait`, seen by another process. -/
theorem Kernel.sleeper_waitRound (c : Fin n) {f : Frame}
    (h : p ≠ f.p) : Sleeper s (s.waitRound c f) p := by
  rcases s.waitRound_cases c f with ⟨z, -, he⟩ | ⟨-, he⟩ | ⟨-, he⟩ <;> rw [he]
  · by_cases hz : p = z
    · subst hz
      exact sleeper_of_ne (by simp [reap]) (by simp [reap])
    · exact sleeper_of_life (by simp [reap, hz])
  · exact sleeper_of_life rfl
  · exact sleeper_of_life (by simp [Kernel.sched, h])

theorem Kernel.sleeper_kill (s : Kernel n) (pid : ℤ) (p : Slot) : Sleeper s (s.kill pid).2 p := by
  simp only [Kernel.kill]
  split
  case h_1 => exact sleeper_of_life rfl
  case h_2 q hq =>
    by_cases hp : p = q
    · subst hp
      refine sleeper_of_ne ?_ (by simp)
      by_cases hs : (s.proc p).state = .SLEEPING
      · simp [hs]
      · simp [hs]
    · exact sleeper_of_life (by simp [hp])

/-- **Only its own step puts a process to sleep or changes the channel it sleeps on.** -/
theorem step_sleeper {l : Label n} {r : Slot} (hi : s.initproc = some r)
    (h : step l s = some s') (hp : s.actor l ≠ some p) : Sleeper s s' p := by
  have hne : ∀ {c : Fin n} {f : Frame}, (s.cpu c).ctl = .running f →
      (match (s.cpu c).ctl with | .running f => some f.p | _ => none) ≠ some p → p ≠ f.p := by
    intro c f hc hn he
    rw [hc] at hn
    exact hn (by rw [he])
  cases l with
  | acquire c =>
    obtain ⟨-, -, rfl⟩ := step_acquire h
    exact sleeper_of_life rfl
  | scan c =>
    obtain ⟨i, -, ⟨q, -, -, rfl⟩ | ⟨-, rfl⟩ | ⟨-, rfl⟩⟩ := step_scan h
    · exact sleeper_of_life (by simp [startSlice])
    · exact sleeper_of_life (by simp)
    · exact sleeper_of_life rfl
  | loop c =>
    obtain ⟨f, -, ⟨-, rfl⟩ | ⟨-, rfl⟩⟩ := step_loop h
    · by_cases hpf : p = f.p
      · subst hpf
        exact sleeper_of_ne (by simp [dispatch_life]) (by simp [dispatch_life])
      · exact sleeper_of_life (by simp [dispatch_proc_ne s c hpf])
    · exact sleeper_of_life (by simp)
  | resume c =>
    obtain ⟨f, hc, -, rfl | rfl | ⟨-, rfl⟩⟩ := step_resume h
    · exact sleeper_of_life rfl
    · exact sleeper_of_life (by simp [awake, hne hc hp])
    · have hw := (s.awake f.p).sleeper_waitRound c (hne hc hp)
      have ha : ((s.awake f.p).proc p).toLife = (s.proc p).toLife := by simp [awake, hne hc hp]
      exact ⟨fun hs => ha ▸ hw.state hs, fun hs => by rw [hw.chan hs, ha],
        fun hs => ha ▸ hw.wait hs⟩
  | back c =>
    obtain ⟨f, -, rfl⟩ := step_back h
    exact sleeper_of_life (by simp)
  | yield c =>
    obtain ⟨f, hc, -, rfl⟩ := step_yield h
    exact sleeper_of_life (by simp [Kernel.sched, Kernel.yield, hne hc hp])
  | sleep c chan =>
    obtain ⟨f, hc, -, -, rfl⟩ := step_sleep h
    exact sleeper_of_life (by simp [Kernel.sched, Kernel.sleep, hne hc hp])
  | exit c =>
    obtain ⟨f, hc, -, -, hinit, rfl⟩ := step_exit h
    have hfr : f.p ≠ r := by
      rintro rfl
      exact hinit hi
    have hx := sleeper_exit hi hfr (hne hc hp)
    exact ⟨hx.state, hx.chan, hx.wait⟩
  | wait c =>
    obtain ⟨f, hc, -, -, rfl⟩ := step_wait h
    exact sleeper_waitRound c (hne hc hp)
  | kill c pid =>
    obtain ⟨f, -, -, rfl⟩ := step_kill h
    exact s.sleeper_kill pid p
  | fault c =>
    obtain ⟨f, hc, -, rfl⟩ := step_fault h
    exact sleeper_of_life (by simp [fault, hne hc hp])
  | forkAlloc c =>
    obtain ⟨f, hc, -, -, ⟨-, rfl⟩ | ⟨np, -, rfl⟩⟩ := step_forkAlloc h
    · exact sleeper_of_life rfl
    · by_cases hpn : p = np
      · subst hpn
        exact sleeper_of_ne (by simp [claimSlot_proc_self])
          (by simp [setForking, hne hc hp, claimSlot_proc_self])
      · exact sleeper_of_life (by
          simp [setForking, hne hc hp, claimSlot_proc_ne s hpn])
  | forkStack c kalloc =>
    obtain ⟨f, np, hc, -, -, rfl⟩ := step_forkStack h
    by_cases hpn : p = np
    · subst hpn
      cases kalloc with
      | true =>
        exact ⟨by simp, by simp [setForking, hne hc hp], by simp [setForking, hne hc hp]⟩
      | false =>
        exact sleeper_of_ne (by simp [setState]) (by simp [setForking, setState, hne hc hp])
    · exact sleeper_of_life (by cases kalloc <;> simp [setForking, setState, hne hc hp, hpn])
  | forkCopy c setupkvm pages =>
    obtain ⟨f, np, hc, -, -, rfl⟩ := step_forkCopy h
    split_ifs
    · by_cases hpn : p = np
      · subst hpn
        exact sleeper_of_mayWake (.keep _) (by simp [copyProc])
          (by simp [setForking, copyProc, hne hc hp]) (by simp [setForking, copyProc, hne hc hp])
      · exact sleeper_of_life (by simp [setForking, copyProc, hne hc hp, hpn])
    · by_cases hpn : p = np
      · subst hpn
        exact sleeper_of_ne (by simp [setState]) (by simp [setForking, setState, hne hc hp])
      · exact sleeper_of_life (by simp [setForking, setState, hne hc hp, hpn])
  | forkRun c =>
    obtain ⟨f, np, hc, -, -, rfl⟩ := step_forkRun h
    by_cases hpn : p = np
    · subst hpn
      exact sleeper_of_ne (by simp [setState]) (by simp [setForking, setState, hne hc hp])
    · exact sleeper_of_life (by simp [setForking, setState, hne hc hp, hpn])
  | wakeup chan =>
    obtain ⟨-, rfl⟩ := step_wakeup h
    obtain ⟨x, hx, hl⟩ := s.life_wakeup1 (some (.addr chan)) p
    exact sleeper_of_mayWake hx (by rw [hl]) (by rw [hl]) (by rw [hl])
  | tick =>
    obtain ⟨-, rfl⟩ := step_tick h
    exact sleeper_of_life rfl

@[simp] theorem Kernel.setForking_chan (s : Kernel n) (p q : Slot) (x : Option (ForkStage × Slot)) :
    ((s.setForking p x).proc q).chan = (s.proc q).chan := by
  by_cases h : q = p
  · subst h; simp [setForking]
  · simp [setForking, h]

/-- While a process holds `ptable.lock`, only the few steps that do not need it are possible, and
they leave the process and its CPU alone. -/
theorem step_holder {l : Label n} {c : Fin n} {f : Frame}
    (hv : Handoff.Inv (Handoff.view s)) (hc : (s.cpu c).ctl = .running f)
    (hl : s.lock = some c) (h : step l s = some s') (hne : l ≠ .resume c) :
    (s'.cpu c).ctl = .running f ∧ s'.lock = some c ∧ (s'.proc f.p).chan = (s.proc f.p).chan := by
  have hlock : s.lock ≠ none := by simp [hl]
  -- no CPU is in `scheduler`
  have hout : ∀ {d : Fin n} {x : Ctl}, (s.cpu d).ctl = x → (Handoff.phaseOf x).inScheduler →
      False := by
    intro d x hd hx
    rw [← Handoff.view_phase hd] at hx
    obtain rfl : c = d := Option.some.inj (hl.symm.trans (hv.held d hx))
    rw [Handoff.view_phase hc] at hx
    exact hx
  cases l with
  | acquire d => exact absurd (step_acquire h).1 hlock
  | scan d =>
    obtain ⟨i, hd, -⟩ := step_scan h
    exact (hout hd trivial).elim
  | loop d =>
    obtain ⟨g, hd, -⟩ := step_loop h
    exact (hout hd trivial).elim
  | back d =>
    obtain ⟨g, hd, -⟩ := step_back h
    exact (hout hd trivial).elim
  | resume d =>
    obtain ⟨g, -, hd, -⟩ := step_resume h
    obtain rfl : c = d := Option.some.inj (hl.symm.trans hd)
    exact absurd rfl hne
  | yield d =>
    obtain ⟨g, -, hn, -⟩ := step_yield h
    exact absurd hn hlock
  | sleep d chan =>
    obtain ⟨g, -, hn, -⟩ := step_sleep h
    exact absurd hn hlock
  | exit d =>
    obtain ⟨g, -, hn, -⟩ := step_exit h
    exact absurd hn hlock
  | wait d =>
    obtain ⟨g, -, hn, -⟩ := step_wait h
    exact absurd hn hlock
  | kill d pid =>
    obtain ⟨g, -, hn, -⟩ := step_kill h
    exact absurd hn hlock
  | fault d =>
    obtain ⟨g, -, -, rfl⟩ := step_fault h
    exact ⟨hc, hl, by rw [fault_life]⟩
  | forkAlloc d =>
    obtain ⟨g, -, hn, -⟩ := step_forkAlloc h
    exact absurd hn hlock
  | forkStack d kalloc =>
    obtain ⟨g, np, -, -, -, rfl⟩ := step_forkStack h
    have hchan : ((s.giveStack np kalloc).proc f.p).chan = (s.proc f.p).chan := by
      by_cases hp : f.p = np
      · cases kalloc <;> simp [setState, hp]
      · cases kalloc <;> simp [setState, hp]
    refine ⟨?_, ?_, by rw [setForking_chan, hchan]⟩
    · cases kalloc <;> exact hc
    · cases kalloc <;> exact hl
  | forkCopy d setupkvm pages =>
    obtain ⟨g, np, -, -, -, rfl⟩ := step_forkCopy h
    split_ifs
    · refine ⟨hc, hl, ?_⟩
      by_cases hp : f.p = np
      · simp [copyProc, hp]
      · simp [copyProc, hp]
    · refine ⟨hc, hl, ?_⟩
      by_cases hp : f.p = np
      · simp [setState, hp]
      · simp [setState, hp]
  | forkRun d =>
    obtain ⟨g, np, -, hn, -⟩ := step_forkRun h
    exact absurd hn hlock
  | wakeup chan => exact absurd (step_wakeup h).1 hlock
  | tick =>
    obtain ⟨-, rfl⟩ := step_tick h
    exact ⟨hc, hl, rfl⟩

/-! ## The system -/

/-- Where a process is in `acquire(lk); while(!cond) sleep(chan, lk); ...; release(lk)`: not in it;
at the test of the loop; at the call of `sleep`; in `sleep`, having taken `ptable.lock`, having
released `lk`, having set `chan`, and in `sched`; before it takes `lk` again; after the loop. -/
inductive Place
  | out | test | call | locked | dropped | chanSet | sched | relock | body
  deriving DecidableEq, Repr

/-- The kernel, the lock, what the lock protects, and where everybody is. -/
structure Sync (n : ℕ) (ω δ : Type) where
  kernel : Kernel n
  lk : Option (Slot ⊕ ω)
  data : δ
  place : Slot → Place
  waker : ω → Monitor.Signal

/-- The moves.  A move of a sleeper is made by the process of a CPU. -/
inductive SyncLabel (n : ℕ) (ω δ : Type)
  /-- Any other step of the kernel. -/
  | kernel (l : Label n)
  /-- `acquire(lk)` -/
  | enter (c : Fin n)
  /-- the guard of the loop -/
  | test (c : Fin n)
  /-- `sleep`: `acquire(&ptable.lock)` -/
  | lockTable (c : Fin n)
  /-- `sleep`: `release(lk)` -/
  | dropLk (c : Fin n)
  /-- `sleep`: `p->chan = chan` -/
  | setChan (c : Fin n)
  /-- `sleep`: `p->state = SLEEPING; sched()` -/
  | doze (c : Fin n)
  /-- `sleep`: `acquire(lk)` -/
  | relock (c : Fin n)
  /-- what the process does after the loop -/
  | work (c : Fin n) (d : δ)
  /-- `release(lk)` -/
  | leave (c : Fin n)
  /-- a waker: `acquire(lk)` -/
  | wakerAcquire (w : ω)
  /-- a waker: `cond = true` -/
  | wakerSet (w : ω) (d : δ)
  /-- a waker: `wakeup(chan)` -/
  | wakerWakeup (w : ω)
  /-- a waker: `release(lk)` -/
  | wakerRelease (w : ω)

variable {ω δ : Type}

namespace Sync

/-- Which kernel steps a process may make where it is: anything outside; while it waits for `lk`
it can lose the CPU and get it back; and `sched` returns to `sleep`. -/
def mayMake (x : Place) : Label n → Bool
  | .yield _ => x = .out || x = .relock
  | .resume _ => x = .out || x = .relock || x = .sched
  | _ => x = .out

def permits (s : Sync n ω δ) (l : Label n) : Bool :=
  (s.kernel.actor l).all fun p => mayMake (s.place p) l

/-- Where the processes are after a kernel step: `sched` has returned to `sleep`, which has
cleared `chan` and released `ptable.lock`. -/
def placeAfter (s : Sync n ω δ) (l : Label n) : Slot → Place :=
  match l, s.kernel.actor l with
  | .resume _, some p => if s.place p = .sched then update s.place p .relock else s.place
  | _, _ => s.place

/-- A process outside `sched` makes a step at the place `x`. -/
def sleeper (s : Sync n ω δ) (c : Fin n) (x : Place) (go : Slot → Option (Sync n ω δ)) :
    Option (Sync n ω δ) :=
  match s.kernel.current c with
  | some f => if s.place f.p = x then go f.p else none
  | none => none

/-- A process in `sleep`, which holds `ptable.lock`, makes a step at the place `x`. -/
def inSleep (s : Sync n ω δ) (c : Fin n) (x : Place) (go : Frame → Sync n ω δ) :
    Option (Sync n ω δ) :=
  match (s.kernel.cpu c).ctl with
  | .running f =>
    if s.kernel.lock = some c ∧ s.place f.p = x then some (go f) else none
  | _ => none

end Sync

/-- One move, for the channel `chan` and the condition `cond`. -/
def syncStep [DecidableEq ω] (chan : ℕ) (cond : δ → Bool) :
    SyncLabel n ω δ → Sync n ω δ → Option (Sync n ω δ)
  | .kernel l, s =>
    if s.permits l then
      (step l s.kernel).map fun k => { s with kernel := k, place := s.placeAfter l }
    else none
  | .enter c, s => s.sleeper c .out fun p =>
    if s.lk = none ∧ (s.kernel.proc p).forking = none then
      some { s with lk := some (.inl p), place := update s.place p .test }
    else none
  | .test c, s => s.sleeper c .test fun p =>
    some { s with place := update s.place p (if cond s.data then .body else .call) }
  | .lockTable c, s => s.sleeper c .call fun p =>
    if s.kernel.lock = none then
      some { s with kernel := s.kernel.setLock (some c), place := update s.place p .locked }
    else none
  | .dropLk c, s => s.inSleep c .locked fun f =>
    { s with lk := none, place := update s.place f.p .dropped }
  | .setChan c, s => s.inSleep c .dropped fun f =>
    { s with
      kernel := s.kernel.modify f.p fun x => { x with chan := some (.addr chan) }
      place := update s.place f.p .chanSet }
  | .doze c, s => s.inSleep c .chanSet fun f =>
    { s with
      kernel := (s.kernel.modify f.p fun x => { x with
        state := .SLEEPING, context := .sleep }).sched c f
      place := update s.place f.p .sched }
  | .relock c, s => s.sleeper c .relock fun p =>
    if s.lk = none then
      some { s with lk := some (.inl p), place := update s.place p .test }
    else none
  | .work c d, s => s.sleeper c .body fun _ => some { s with data := d }
  | .leave c, s => s.sleeper c .body fun p =>
    some { s with lk := none, place := update s.place p .out }
  | .wakerAcquire w, s =>
    if s.lk = none ∧ s.waker w = .idle then
      some { s with lk := some (.inr w), waker := update s.waker w .locked }
    else none
  | .wakerSet w d, s =>
    if s.waker w = .locked ∧ cond d then
      some { s with data := d, waker := update s.waker w .set }
    else none
  | .wakerWakeup w, s =>
    if s.waker w = .set then
      (step (.wakeup chan) s.kernel).map fun k =>
        { s with kernel := k, waker := update s.waker w .done }
    else none
  | .wakerRelease w, s =>
    if s.waker w = .done then
      some { s with lk := none, waker := update s.waker w .idle }
    else none

/-- The kernel has just booted, nobody has the lock. -/
def syncBoot (n : ℕ) (ω : Type) (d : δ) : Sync n ω δ :=
  { kernel := boot n, lk := none, data := d, place := fun _ => .out, waker := fun _ => .idle }

namespace Sync

/-! ## What a move can do -/

variable {s s' : Sync n ω δ} {c : Fin n} {x : Place} {l : Label n} {p : Slot} {k : Kernel n}
  {chan : ℕ} {cond : δ → Bool}

theorem sleeper_eq_some {go : Slot → Option (Sync n ω δ)} (h : s.sleeper c x go = some s') :
    ∃ f, (s.kernel.cpu c).ctl = .running f ∧ s.kernel.lock ≠ some c ∧ s.place f.p = x ∧
      go f.p = some s' := by
  simp only [sleeper] at h
  split at h
  case h_1 f hf =>
    split_ifs at h with hx
    exact ⟨f, (current_eq_some hf).1, (current_eq_some hf).2, hx, h⟩
  case h_2 => cases h

theorem inSleep_eq_some {go : Frame → Sync n ω δ} (h : s.inSleep c x go = some s') :
    ∃ f, (s.kernel.cpu c).ctl = .running f ∧ s.kernel.lock = some c ∧ s.place f.p = x ∧
      go f = s' := by
  simp only [inSleep] at h
  split at h
  case h_1 f hf =>
    split_ifs at h with hx
    exact ⟨f, hf, hx.1, hx.2, Option.some.inj h⟩
  case h_2 => cases h

theorem permits_iff :
    s.permits l = true ↔ ∀ p, s.kernel.actor l = some p → mayMake (s.place p) l = true := by
  simp only [permits]
  cases s.kernel.actor l with
  | none => simp
  | some p => simp

/-- A process moves in a kernel step only when `sched` returns to its `sleep`. -/
theorem placeAfter_cases (s : Sync n ω δ) (l : Label n) (p : Slot) :
    s.placeAfter l p = s.place p ∨
      s.placeAfter l p = .relock ∧ s.place p = .sched ∧ s.kernel.actor l = some p := by
  cases l with
  | resume c =>
    simp only [placeAfter]
    cases ha : s.kernel.actor (.resume c) with
    | none => exact .inl rfl
    | some q =>
      by_cases hs : s.place q = .sched
      · by_cases hpq : p = q
        · subst hpq
          exact .inr ⟨by simp [hs], hs, rfl⟩
        · exact .inl (by simp [hs, hpq])
      · exact .inl (by simp [hs])
  | _ => exact .inl rfl

/-- A process in `sched` that makes a step has returned from it. -/
theorem actor_ne_of_sched (hp : s.permits l = true)
    (hs : s.place p = .sched) (ha : s.placeAfter l p = .sched) : s.kernel.actor l ≠ some p := by
  intro he
  have hm := permits_iff.mp hp p he
  rw [hs] at hm
  cases l with
  | resume c => simp [placeAfter, he, hs] at ha
  | _ => simp [mayMake] at hm

section Inversion

variable [DecidableEq ω] {chan : ℕ} {cond : δ → Bool} {s s' : Sync n ω δ} {c : Fin n} {w : ω}

theorem step_kernel {l : Label n} (h : syncStep chan cond (.kernel l) s = some s') :
    s.permits l = true ∧ ∃ k, step l s.kernel = some k ∧
      s' = { s with kernel := k, place := s.placeAfter l } := by
  simp only [syncStep] at h
  split_ifs at h with hp
  obtain ⟨k, hk, rfl⟩ := Option.map_eq_some_iff.mp h
  exact ⟨hp, k, hk, rfl⟩

theorem step_enter (h : syncStep chan cond (.enter c) s = some s') :
    ∃ f, (s.kernel.cpu c).ctl = .running f ∧ s.place f.p = .out ∧ s.lk = none ∧
      s' = { s with lk := some (.inl f.p), place := update s.place f.p .test } := by
  simp only [syncStep] at h
  obtain ⟨f, hc, -, hx, h⟩ := sleeper_eq_some h
  split_ifs at h with hl
  exact ⟨f, hc, hx, hl.1, (Option.some.inj h).symm⟩

theorem step_test (h : syncStep chan cond (.test c) s = some s') :
    ∃ f : Frame, s.place f.p = .test ∧
      s' = { s with place := update s.place f.p (if cond s.data then .body else .call) } := by
  simp only [syncStep] at h
  obtain ⟨f, -, -, hx, h⟩ := sleeper_eq_some h
  exact ⟨f, hx, (Option.some.inj h).symm⟩

theorem step_lockTable (h : syncStep chan cond (.lockTable c) s = some s') :
    ∃ f, (s.kernel.cpu c).ctl = .running f ∧ s.kernel.lock = none ∧ s.place f.p = .call ∧
      s' = { s with
        kernel := s.kernel.setLock (some c), place := update s.place f.p .locked } := by
  simp only [syncStep] at h
  obtain ⟨f, hc, -, hx, h⟩ := sleeper_eq_some h
  split_ifs at h with hl
  exact ⟨f, hc, hl, hx, (Option.some.inj h).symm⟩

theorem step_dropLk (h : syncStep chan cond (.dropLk c) s = some s') :
    ∃ f, (s.kernel.cpu c).ctl = .running f ∧ s.kernel.lock = some c ∧ s.place f.p = .locked ∧
      s' = { s with lk := none, place := update s.place f.p .dropped } := by
  simp only [syncStep] at h
  obtain ⟨f, hc, hl, hx, rfl⟩ := inSleep_eq_some h
  exact ⟨f, hc, hl, hx, rfl⟩

theorem step_setChan (h : syncStep chan cond (.setChan c) s = some s') :
    ∃ f, (s.kernel.cpu c).ctl = .running f ∧ s.kernel.lock = some c ∧ s.place f.p = .dropped ∧
      s' = { s with
        kernel := s.kernel.modify f.p fun x => { x with chan := some (.addr chan) }
        place := update s.place f.p .chanSet } := by
  simp only [syncStep] at h
  obtain ⟨f, hc, hl, hx, rfl⟩ := inSleep_eq_some h
  exact ⟨f, hc, hl, hx, rfl⟩

theorem step_doze (h : syncStep chan cond (.doze c) s = some s') :
    ∃ f, (s.kernel.cpu c).ctl = .running f ∧ s.kernel.lock = some c ∧ s.place f.p = .chanSet ∧
      s' = { s with
        kernel := (s.kernel.modify f.p fun x => { x with
          state := .SLEEPING, context := .sleep }).sched c f
        place := update s.place f.p .sched } := by
  simp only [syncStep] at h
  obtain ⟨f, hc, hl, hx, rfl⟩ := inSleep_eq_some h
  exact ⟨f, hc, hl, hx, rfl⟩

theorem step_relock (h : syncStep chan cond (.relock c) s = some s') :
    ∃ f : Frame, s.place f.p = .relock ∧ s.lk = none ∧
      s' = { s with lk := some (.inl f.p), place := update s.place f.p .test } := by
  simp only [syncStep] at h
  obtain ⟨f, -, -, hx, h⟩ := sleeper_eq_some h
  split_ifs at h with hl
  exact ⟨f, hx, hl, (Option.some.inj h).symm⟩

theorem step_work {d : δ} (h : syncStep chan cond (.work c d) s = some s') :
    ∃ f, s.kernel.current c = some f ∧ s.place f.p = .body ∧ s' = { s with data := d } := by
  simp only [syncStep, sleeper] at h
  split at h
  case h_1 f hf =>
    split_ifs at h with hx
    exact ⟨f, hf, hx, (Option.some.inj h).symm⟩
  case h_2 => cases h

theorem step_leave (h : syncStep chan cond (.leave c) s = some s') :
    ∃ f : Frame, s.place f.p = .body ∧
      s' = { s with lk := none, place := update s.place f.p .out } := by
  simp only [syncStep] at h
  obtain ⟨f, -, -, hx, h⟩ := sleeper_eq_some h
  exact ⟨f, hx, (Option.some.inj h).symm⟩

theorem step_wakerAcquire (h : syncStep chan cond (.wakerAcquire w) s = some s') :
    s.lk = none ∧ s.waker w = .idle ∧
      s' = { s with lk := some (.inr w), waker := update s.waker w .locked } := by
  simp only [syncStep] at h
  split_ifs at h with hw
  exact ⟨hw.1, hw.2, (Option.some.inj h).symm⟩

theorem step_wakerSet {d : δ} (h : syncStep chan cond (.wakerSet w d) s = some s') :
    s.waker w = .locked ∧ cond d = true ∧
      s' = { s with data := d, waker := update s.waker w .set } := by
  simp only [syncStep] at h
  split_ifs at h with hw
  exact ⟨hw.1, hw.2, (Option.some.inj h).symm⟩

theorem step_wakerWakeup (h : syncStep chan cond (.wakerWakeup w) s = some s') :
    s.waker w = .set ∧ ∃ k, step (.wakeup chan) s.kernel = some k ∧
      s' = { s with kernel := k, waker := update s.waker w .done } := by
  simp only [syncStep] at h
  split_ifs at h with hw
  obtain ⟨k, hk, rfl⟩ := Option.map_eq_some_iff.mp h
  exact ⟨hw, k, hk, rfl⟩

theorem step_wakerRelease (h : syncStep chan cond (.wakerRelease w) s = some s') :
    s.waker w = .done ∧ s' = { s with lk := none, waker := update s.waker w .idle } := by
  simp only [syncStep] at h
  split_ifs at h with hw
  exact ⟨hw, (Option.some.inj h).symm⟩

/-- **The pieces of `sleep` together are the kernel's `sleep`.** -/
theorem sleep_pieces {t : Sync n ω δ} {f : Frame} (hc : (s.kernel.cpu c).ctl = .running f)
    (hf : (s.kernel.proc f.p).forking = none)
    (h : Transition.exec (syncStep chan cond) [.lockTable c, .dropLk c, .setChan c, .doze c] s =
      some t) : step (.sleep c chan) s.kernel = some t.kernel := by
  obtain ⟨s₁, h₁, h⟩ := Transition.exec_cons_some.mp h
  obtain ⟨s₂, h₂, h⟩ := Transition.exec_cons_some.mp h
  obtain ⟨s₃, h₃, h⟩ := Transition.exec_cons_some.mp h
  obtain ⟨s₄, h₄, h⟩ := Transition.exec_cons_some.mp h
  cases h
  obtain ⟨f₁, hc₁, hl, -, rfl⟩ := step_lockTable h₁
  obtain ⟨f₂, hc₂, -, -, rfl⟩ := step_dropLk h₂
  obtain ⟨f₃, hc₃, -, -, rfl⟩ := step_setChan h₃
  obtain ⟨f₄, hc₄, -, -, rfl⟩ := step_doze h₄
  obtain rfl : f = f₃ := Ctl.running.inj (hc.symm.trans hc₃)
  obtain rfl : f = f₄ := Ctl.running.inj (hc.symm.trans hc₄)
  simp [step, syscall, current, hc, hl, hf, Kernel.sleep, Kernel.sched, Kernel.modify,
    setLock, setCtl]

end Inversion

/-! ## The abstraction -/

/-- Where a process is in the protocol: it sleeps while its state is `SLEEPING`. -/
def phaseAt (st : ProcState) : Place → Monitor.Phase
  | .out => .out
  | .test => .test
  | .call => .found
  | .locked => .both
  | .dropped | .chanSet => .going
  | .sched => if st = .SLEEPING then .asleep else .roused
  | .relock => .roused
  | .body => .body

def phase (s : Sync n ω δ) (p : Slot) : Monitor.Phase := phaseAt (s.kernel.proc p).state (s.place p)

def monitor (s : Sync n ω δ) : Monitor.State Slot ω δ where
  lock := s.lk
  data := s.data
  phase := s.phase
  waker := s.waker

/-- The entry of a process fits its place in the code: it sleeps in `sched` only, on `chan`; in
`sleep`, before it calls `sched`, it holds `ptable.lock`; and it comes back to `sleep`. -/
structure Fits (chan : ℕ) (k : Kernel n) (p : Slot) (x : Place) : Prop where
  awake : x ≠ .out → x ≠ .sched → (k.proc p).state ≠ .SLEEPING
  holder : x = .locked ∨ x = .dropped ∨ x = .chanSet →
    ∃ c f, (k.cpu c).ctl = .running f ∧ f.p = p ∧ k.lock = some c
  chanSet : x = .chanSet → (k.proc p).chan = some (.addr chan)
  asleep : x = .sched → (k.proc p).state = .SLEEPING → (k.proc p).chan = some (.addr chan)
  context : x = .sched ∨ x = .relock → (k.proc p).context ≠ .wait

theorem fits_out (chan : ℕ) (k : Kernel n) (p : Slot) : Fits chan k p .out := by
  constructor <;> simp

/-- The invariant of the kernel side. -/
structure Inv (chan : ℕ) (s : Sync n ω δ) : Prop where
  handoff : Handoff.Inv (Handoff.view s.kernel)
  initproc : s.kernel.initproc = some 0
  fits : ∀ p, Fits chan s.kernel p (s.place p)

/-! ### The invariant is kept -/

theorem running_awake {f : Frame}
    (hv : Handoff.Inv (Handoff.view k)) (hc : (k.cpu c).ctl = .running f) :
    (k.proc f.p).state ≠ .SLEEPING := by
  have hs : (k.proc f.p).state = .RUNNING := hv.running c f.p (Handoff.view_phase hc)
  rw [hs]
  decide

/-- A kernel step that another process makes, or none. -/
theorem Fits.other {k' : Kernel n}
    (hF : Fits chan k p x) (hv : Handoff.Inv (Handoff.view k)) (hi : k.initproc = some 0)
    (h : step l k = some k') (ha : k.actor l ≠ some p) : Fits chan k' p x := by
  have hsl := step_sleeper hi h ha
  have hheld : ∀ {c f}, (k.cpu c).ctl = .running f → f.p = p → k.lock = some c →
      (k'.cpu c).ctl = .running f ∧ k'.lock = some c ∧ (k'.proc f.p).chan = (k.proc f.p).chan := by
    intro c f hc hp hl
    refine step_holder hv hc hl h ?_
    rintro rfl
    exact ha (by simp [actor, hc, hp])
  constructor
  case awake => exact fun ho hs h' => hF.awake ho hs (hsl.state h')
  case holder =>
    intro hx
    obtain ⟨c, f, hc, hp, hl⟩ := hF.holder hx
    obtain ⟨hc', hl', -⟩ := hheld hc hp hl
    exact ⟨c, f, hc', hp, hl'⟩
  case chanSet =>
    intro hx
    obtain ⟨c, f, hc, rfl, hl⟩ := hF.holder (.inr (.inr hx))
    rw [(hheld hc rfl hl).2.2]
    exact hF.chanSet hx
  case asleep => exact fun hx hs => (hsl.chan hs).trans (hF.asleep hx (hsl.state hs))
  case context => exact fun hx hw => hF.context hx (hsl.wait hw)

/-- `sched` has returned, to `sleep` or to `yield`. -/
theorem Fits.resume {k' : Kernel n}
    (hF : Fits chan k p x) (hv : Handoff.Inv (Handoff.view k)) (h : step (.resume c) k = some k')
    (ha : k.actor (.resume c) = some p) (hx : x = .sched ∨ x = .relock) :
    Fits chan k' p .relock := by
  obtain ⟨f, hc, -, hk⟩ := step_resume h
  obtain rfl : f.p = p := by simpa [actor, hc] using ha
  have hs := running_awake hv hc
  have hw := hF.context hx
  rcases hk with rfl | rfl | ⟨hwait, rfl⟩
  · constructor <;> simp [hs, hw]
  · constructor <;> simp [Kernel.awake, hs, hw]
  · exact absurd hwait hw

/-- A kernel step, for the process that makes it. -/
theorem Fits.self (hI : Inv chan s) (hp : s.permits l = true) (h : step l s.kernel = some k)
    (ha : s.kernel.actor l = some p) : Fits chan k p (s.placeAfter l p) := by
  have hF := hI.fits p
  have hm := permits_iff.mp hp p ha
  by_cases hout : s.place p = .out
  · have hafter : s.placeAfter l p = .out := by
      rcases s.placeAfter_cases l p with he | ⟨-, hs, -⟩
      · exact he.trans hout
      · rw [hout] at hs
        cases hs
    rw [hafter]
    exact fits_out chan k p
  cases l with
  | resume c =>
    have hx : s.place p = .sched ∨ s.place p = .relock := by
      simpa [mayMake, hout, or_comm] using hm
    have hafter : s.placeAfter (.resume c) p = .relock := by
      rcases hx with hx | hx
      · simp [placeAfter, ha, hx]
      · simp [placeAfter, ha, hx]
    rw [hafter]
    exact hF.resume hI.handoff h ha hx
  | yield c =>
    have hx : s.place p = .relock := by simpa [mayMake, hout] using hm
    obtain ⟨f, hc, -, rfl⟩ := step_yield h
    obtain rfl : f.p = p := by simpa [actor, hc] using ha
    rw [show s.placeAfter (.yield c) f.p = .relock from hx]
    constructor <;> simp [Kernel.sched, Kernel.yield]
  | _ => simp [mayMake, hout] at hm

theorem Inv.kernel (hI : Inv chan s) (hp : s.permits l = true) (h : step l s.kernel = some k) :
    Inv chan { s with kernel := k, place := s.placeAfter l } where
  handoff := Handoff.inv_refines (Handoff.step_refines h) hI.handoff
  initproc := (step_initproc h).trans hI.initproc
  fits p := by
    by_cases ha : s.kernel.actor l = some p
    · exact Fits.self hI hp h ha
    · have hsame : s.placeAfter l p = s.place p := by
        rcases s.placeAfter_cases l p with he | ⟨-, -, he⟩
        · exact he
        · exact absurd he ha
      show Fits chan k p (s.placeAfter l p)
      rw [hsame]
      exact (hI.fits p).other hI.handoff hI.initproc h ha

/-- A step of another process that leaves the entry alone. -/
theorem Fits.of_proc {k' : Kernel n} (hF : Fits chan k p x) (hp : k'.proc p = k.proc p)
    (hh : ∀ c f, (k.cpu c).ctl = .running f → f.p = p → k.lock = some c →
      (k'.cpu c).ctl = .running f ∧ k'.lock = some c) : Fits chan k' p x := by
  obtain ⟨h₁, h₂, h₃, h₄, h₅⟩ := hF
  constructor
  case holder =>
    intro hx
    obtain ⟨c, f, hc, hfp, hl⟩ := h₂ hx
    obtain ⟨hc', hl'⟩ := hh c f hc hfp hl
    exact ⟨c, f, hc', hfp, hl'⟩
  all_goals rw [hp]
  all_goals assumption

/-- The process `p` moves to `x`. -/
theorem Inv.move (hI : Inv chan s)
    (hplace : s'.place = update s.place p x) (hv : Handoff.Inv (Handoff.view s'.kernel))
    (hi : s'.kernel.initproc = s.kernel.initproc) (hself : Fits chan s'.kernel p x)
    (hrest : ∀ q, q ≠ p → Fits chan s.kernel q (s.place q) → Fits chan s'.kernel q (s.place q)) :
    Inv chan s' where
  handoff := hv
  initproc := hi.trans hI.initproc
  fits q := by
    by_cases hq : q = p
    · subst hq
      rw [hplace, update_self]
      exact hself
    · rw [hplace, update_of_ne hq]
      exact hrest q hq (hI.fits q)

/-- A process takes `ptable.lock`, which is free: no CPU is in `scheduler`. -/
theorem handoff_setLock {f : Frame}
    (hv : Handoff.Inv (Handoff.view k)) (hc : (k.cpu c).ctl = .running f) (hl : k.lock = none) :
    Handoff.Inv (Handoff.view (k.setLock (some c))) := by
  refine { hv with held := fun d hd => ?_, owner := fun d hd => ?_ }
  · exact absurd (hl.symm.trans (hv.held d hd)) (by simp)
  · obtain rfl : c = d := Option.some.inj hd
    rw [Handoff.view_setLock, Handoff.view_phase hc]
    simp [Handoff.phaseOf]

/-- **Every move keeps the invariant.** -/
theorem Inv.step [DecidableEq ω]
    {l : SyncLabel n ω δ} (hI : Inv chan s) (h : syncStep chan cond l s = some s') :
    Inv chan s' := by
  have hv := hI.handoff
  -- the moves that the kernel has no part in
  have stay : ∀ {p : Slot} {x : Place} {s' : Sync n ω δ}, s'.kernel = s.kernel →
      s'.place = update s.place p x → Fits chan s.kernel p x → Inv chan s' := by
    intro p x s' hk hplace hF
    refine hI.move hplace ?_ ?_ ?_ ?_ <;> rw [hk]
    · exact hv
    · exact hF
    · exact fun _ _ h => h
  cases l with
  | kernel l =>
    obtain ⟨hp, k, hk, rfl⟩ := step_kernel h
    exact hI.kernel hp hk
  | enter c =>
    obtain ⟨f, hc, -, -, rfl⟩ := step_enter h
    have hs := running_awake hv hc
    exact stay rfl rfl ⟨fun _ _ => hs, by simp, by simp, by simp, by simp⟩
  | test c =>
    obtain ⟨f, hx, rfl⟩ := step_test h
    have hs := (hI.fits f.p).awake (by simp [hx]) (by simp [hx])
    refine stay rfl rfl ?_
    split_ifs
    · exact ⟨fun _ _ => hs, by simp, by simp, by simp, by simp⟩
    · exact ⟨fun _ _ => hs, by simp, by simp, by simp, by simp⟩
  | lockTable c =>
    obtain ⟨f, hc, hl, -, rfl⟩ := step_lockTable h
    have hs := running_awake hv hc
    refine hI.move rfl (handoff_setLock hv hc hl) rfl ?_ fun q hq hF => ?_
    · exact ⟨fun _ _ => hs, fun _ => ⟨c, f, hc, rfl, rfl⟩, by simp, by simp, by simp⟩
    · refine hF.of_proc rfl fun d g _ _ hd => ?_
      exact absurd (hl.symm.trans hd) (by simp)
  | dropLk c =>
    obtain ⟨f, hc, hl, -, rfl⟩ := step_dropLk h
    have hs := running_awake hv hc
    exact stay rfl rfl ⟨fun _ _ => hs, fun _ => ⟨c, f, hc, rfl, hl⟩, by simp, by simp, by simp⟩
  | setChan c =>
    obtain ⟨f, hc, hl, -, rfl⟩ := step_setChan h
    have hs := running_awake hv hc
    refine hI.move rfl ?_ rfl ?_ fun q hq hF => ?_
    · rw [Handoff.view_modify_eq rfl rfl]
      exact hv
    · exact ⟨fun _ _ => by simpa using hs, fun _ => ⟨c, f, hc, rfl, hl⟩, by simp, by simp, by simp⟩
    · exact hF.of_proc (by simp [hq]) fun d g hd _ hld => ⟨hd, hld⟩
  | doze c =>
    obtain ⟨f, hc, hl, hx, rfl⟩ := step_doze h
    have hchan := (hI.fits f.p).chanSet hx
    refine hI.move rfl ?_ rfl ?_ fun q hq hF => ?_
    · exact Handoff.inv_step hv (Handoff.leave_sched hc (.inr hl) _ rfl (.inr (.inl rfl)))
    · constructor <;> simp [Kernel.sched, hchan]
    · -- only one process holds `ptable.lock`
      refine hF.of_proc (by simp [Kernel.sched, hq]) fun d g hd hgq hld => ?_
      obtain rfl : c = d := Option.some.inj (hl.symm.trans hld)
      obtain rfl : g = f := Ctl.running.inj (hd.symm.trans hc)
      exact absurd hgq.symm hq
  | relock c =>
    obtain ⟨f, hx, -, rfl⟩ := step_relock h
    have hs := (hI.fits f.p).awake (by simp [hx]) (by simp [hx])
    exact stay rfl rfl ⟨fun _ _ => hs, by simp, by simp, by simp, by simp⟩
  | work c d =>
    obtain ⟨f, -, -, rfl⟩ := step_work h
    exact ⟨hv, hI.initproc, hI.fits⟩
  | leave c =>
    obtain ⟨f, -, rfl⟩ := step_leave h
    exact stay rfl rfl (fits_out chan _ _)
  | wakerAcquire w =>
    obtain ⟨-, -, rfl⟩ := step_wakerAcquire h
    exact ⟨hv, hI.initproc, hI.fits⟩
  | wakerSet w d =>
    obtain ⟨-, -, rfl⟩ := step_wakerSet h
    exact ⟨hv, hI.initproc, hI.fits⟩
  | wakerWakeup w =>
    obtain ⟨-, k, hk, rfl⟩ := step_wakerWakeup h
    have hI' := hI.kernel (l := .wakeup chan) rfl hk
    exact ⟨hI'.handoff, hI'.initproc, hI'.fits⟩
  | wakerRelease w =>
    obtain ⟨-, rfl⟩ := step_wakerRelease h
    exact ⟨hv, hI.initproc, hI.fits⟩

/-! ## Every move is a move of the protocol -/

/-- A kernel step wakes sleepers at most, in the protocol. -/
theorem rouses_kernel {r : Slot}
    (hi : s.kernel.initproc = some r) (hp : s.permits l = true) (h : step l s.kernel = some k) :
    Monitor.Rouses s.phase
      ({ s with kernel := k, place := s.placeAfter l } : Sync n ω δ).phase := by
  intro p
  rcases s.placeAfter_cases l p with hsame | ⟨hafter, hsched, -⟩
  · by_cases hs : s.place p = .sched
    · have hk := (step_sleeper hi h (actor_ne_of_sched hp hs (hsame.trans hs))).state
      simp only [phase, phaseAt, hsame, hs]
      split_ifs with h₁ h₂ h₂
      · exact .inl rfl
      · exact absurd (hk h₁) h₂
      · exact .inr (by simp)
      · exact .inl rfl
    · refine .inl ?_
      simp only [phase, hsame]
      cases hx : s.place p with
      | sched => exact absurd hx hs
      | _ => rfl
  · simp only [phase, phaseAt, hafter, hsched]
    split_ifs
    · exact .inr (by simp)
    · exact .inl rfl

theorem phase_eq (h : s.place p = x) : s.monitor.phase p = phaseAt (s.kernel.proc p).state x := by
  rw [← h]
  rfl

theorem phase_asleep (h : s.phase p = .asleep) :
    s.place p = .sched ∧ (s.kernel.proc p).state = .SLEEPING := by
  rw [phase] at h
  cases hx : s.place p with
  | sched =>
    rw [hx, phaseAt] at h
    split_ifs at h with hs
    exact ⟨rfl, hs⟩
  | _ => rw [hx] at h; cases h

/-- When `ptable.lock` is free, no process is in `sleep` before `sched`. -/
theorem nobody_holds (hI : Inv chan s) (hl : s.kernel.lock = none)
    (p : Slot) : s.monitor.phase p ≠ .both ∧ s.monitor.phase p ≠ .going := by
  have hno : ¬ (s.place p = .locked ∨ s.place p = .dropped ∨ s.place p = .chanSet) := by
    intro hx
    obtain ⟨c, -, -, -, hc⟩ := (hI.fits p).holder hx
    exact absurd (hl.symm.trans hc) (by simp)
  show phaseAt _ (s.place p) ≠ .both ∧ phaseAt _ (s.place p) ≠ .going
  cases hx : s.place p with
  | locked => exact absurd (.inl hx) hno
  | dropped => exact absurd (.inr (.inl hx)) hno
  | chanSet => exact absurd (.inr (.inr hx)) hno
  | sched => rw [phaseAt]; split_ifs <;> exact ⟨nofun, nofun⟩
  | _ => exact ⟨nofun, nofun⟩

/-- `wakeup` wakes everybody in `sched`. -/
theorem wakeup1_awake (hF : Fits chan k p x)
    (hx : x = .sched) : ((k.wakeup1 (some (.addr chan))).proc p).state ≠ .SLEEPING := by
  simp only [wakeup1]
  split_ifs with h
  · simp
  · exact fun hs => h ⟨hs, hF.asleep hx hs⟩

/-- The process `p` moves to `x`, and the states of the others stay. -/
theorem monitor_step [DecidableEq ω] (hplace : s'.place = update s.place p x)
    (hstate : ∀ q, q ≠ p → (s'.kernel.proc q).state = (s.kernel.proc q).state)
    (h : Monitor.Step cond s.monitor
      ⟨s'.lk, s'.data, update s.phase p (phaseAt (s'.kernel.proc p).state x), s'.waker⟩) :
    Monitor.Step cond s.monitor s'.monitor := by
  have hphase : s'.phase = update s.phase p (phaseAt (s'.kernel.proc p).state x) := by
    funext q
    by_cases hq : q = p
    · subst hq
      rw [update_self, phase, hplace, update_self]
    · rw [update_of_ne hq, phase, hplace, update_of_ne hq, hstate q hq]
      rfl
  rw [← hphase] at h
  exact h

/-- **Every move of the system is a move of the protocol.** -/
theorem sync_refines [DecidableEq ω]
    {l : SyncLabel n ω δ} (hI : Inv chan s) (h : syncStep chan cond l s = some s') :
    Monitor.Step cond s.monitor s'.monitor := by
  cases l with
  | kernel l =>
    obtain ⟨hp, k, hk, rfl⟩ := step_kernel h
    exact .rouse _ (rouses_kernel hI.initproc hp hk)
  | enter c =>
    obtain ⟨f, -, hx, hl, rfl⟩ := step_enter h
    exact monitor_step rfl (fun _ _ => rfl) (.enter f.p (phase_eq hx) hl)
  | test c =>
    obtain ⟨f, hx, rfl⟩ := step_test h
    cases hc : cond s.data with
    | true => exact monitor_step rfl (fun _ _ => rfl) (.pass f.p (phase_eq hx) hc)
    | false => exact monitor_step rfl (fun _ _ => rfl) (.find f.p (phase_eq hx) hc)
  | lockTable c =>
    obtain ⟨f, -, -, hx, rfl⟩ := step_lockTable h
    exact monitor_step rfl (fun _ _ => rfl) (.claim f.p (phase_eq hx))
  | dropLk c =>
    obtain ⟨f, -, -, hx, rfl⟩ := step_dropLk h
    exact monitor_step rfl (fun _ _ => rfl) (.drop f.p (phase_eq hx))
  | setChan c =>
    -- the protocol does not see the channel
    obtain ⟨f, -, -, hx, rfl⟩ := step_setChan h
    refine monitor_step rfl (fun q hq => by simp [hq]) (.rouse _ fun q => .inl ?_)
    rw [show phaseAt _ .chanSet = s.phase f.p from (phase_eq hx).symm, Function.update_eq_self]
    rfl
  | doze c =>
    obtain ⟨f, -, -, hx, rfl⟩ := step_doze h
    refine monitor_step rfl (fun q hq => by simp [Kernel.sched, hq]) ?_
    have hdoze : Monitor.Step cond s.monitor _ := .doze f.p (phase_eq hx)
    simpa [phaseAt, Kernel.sched, monitor] using hdoze
  | relock c =>
    obtain ⟨f, hx, hl, rfl⟩ := step_relock h
    exact monitor_step rfl (fun _ _ => rfl) (.relock f.p (phase_eq hx) hl)
  | work c d =>
    obtain ⟨f, -, hx, rfl⟩ := step_work h
    exact .work f.p d (phase_eq hx)
  | leave c =>
    obtain ⟨f, hx, rfl⟩ := step_leave h
    exact monitor_step rfl (fun _ _ => rfl) (.leave f.p (phase_eq hx))
  | wakerAcquire w =>
    obtain ⟨hl, hw, rfl⟩ := step_wakerAcquire h
    exact .acquire w hw hl
  | wakerSet w d =>
    obtain ⟨hw, hc, rfl⟩ := step_wakerSet h
    exact .set w d hw hc
  | wakerWakeup w =>
    obtain ⟨hw, k, hk, rfl⟩ := step_wakerWakeup h
    refine .signal w _ hw (nobody_holds hI (step_wakeup hk).1)
      (rouses_kernel (l := .wakeup chan) hI.initproc rfl hk) fun p hp => ?_
    obtain ⟨hx, hs⟩ := phase_asleep hp
    obtain ⟨-, rfl⟩ := step_wakeup hk
    exact wakeup1_awake (hI.fits p) hx hs
  | wakerRelease w =>
    obtain ⟨hw, rfl⟩ := step_wakerRelease h
    exact .release w hw

/-! ## Reachable states -/

theorem inv_boot (chan : ℕ) (d : δ) : Inv chan (syncBoot n ω d) where
  handoff := Handoff.inv_boot
  initproc := rfl
  fits := fits_out chan _

theorem monitor_inv_boot (cond : δ → Bool) (d : δ) :
    Monitor.Inv cond (syncBoot n ω d).monitor where
  sleeper p hp := by cases hp
  waker w hw := absurd rfl hw
  unmet p hp := by rcases hp with hp | hp <;> cases hp
  body p hp := by cases hp
  done w hw := by cases hw
  met _ := .inr fun p => ⟨nofun, nofun⟩

theorem inv_of_reachable [DecidableEq ω] {d : δ}
    (h : Transition.Reachable (syncStep chan cond) (syncBoot n ω d) s) :
    Inv chan s ∧ Monitor.Inv cond s.monitor := by
  refine h.invariant (I := fun s => Inv chan s ∧ Monitor.Inv cond s.monitor)
    ⟨inv_boot chan d, monitor_inv_boot cond d⟩ ?_
  rintro s l s' ⟨hI, hM⟩ hs
  exact ⟨hI.step hs, hM.step (sync_refines hI hs)⟩

/-- When the condition holds and no waker is between making it hold and the end of its `wakeup`,
no process in the code is asleep. -/
theorem not_sleeping (hI : Inv chan s)
    (hM : Monitor.Inv cond s.monitor) (hc : cond s.data = true) (hw : ∀ w, s.waker w ≠ .set)
    (hp : s.place p ≠ .out) : (s.kernel.proc p).state ≠ .SLEEPING := by
  by_cases hx : s.place p = .sched
  · intro hs
    apply hM.not_asleep hc hw p
    rw [phase_eq hx, hs]
    rfl
  · exact (hI.fits p).awake hp hx

end Sync
end Xv6Mlfq
