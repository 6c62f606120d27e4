import Mathlib.Data.Finset.Card
import Mathlib.Data.Int.Notation
import Mathlib.Logic.Relation
import Mathlib.Tactic.Common

/-!
# Spin locks, interrupts and context switches

`spinlock.c` on any number of CPUs.  `ncli` and `intena` belong to the CPU, but a thread may give up
its CPU in `sched`, with `ptable.lock` held, and go on on another one.  An interrupt may come
wherever the flag `IF` is set: also in `pushcli`, between `readeflags` and `cli`.  What the callers
owe is in `Step`: they acquire locks that they do not hold and release locks that they do, call
`sched` with `ptable.lock` only, and return from handlers with none.

## Main results

* `spinlock_safe` — locks exclude, with interrupts off, and no check panics.
* `interrupts_restored` — outside critical sections the flag is the one that was there before.
-/

namespace Xv6Mlfq.Spin

open Function (update update_apply comp_update forall_update_iff)
open Relation (ReflTransGen)

/-- Where code is in `acquire`: `out` of it, before `cli`, or before `xchg` -/
inductive Pc (L : Type)
  | out
  | pushcli (lk : L) (eflags : Bool)
  | xchg (lk : L)

/-- Code that an interrupt has suspended, with `IF` set, and the flag with which it was entered -/
structure Frame (L : Type) where
  entry : Bool
  pc : Pc L

/-- A `struct cpu`, and the thread that it runs.  `entry` and `held` are history variables. -/
structure Cpu (L T : Type) where
  IF : Bool
  ncli : ℤ
  intena : Bool
  /-- The process whose thread runs; `none` for the scheduler -/
  proc : Option T
  pc : Pc L
  entry : Bool
  /-- What the running code has interrupted -/
  stack : List (Frame L)
  /-- The locks that have been acquired and not released -/
  held : Finset L

/-- A thread has never run, is run by a CPU, or is in `sched`, with its local variable `intena`. -/
inductive Thread (L : Type)
  | fresh
  | run
  | off (intena entry : Bool) (stack : List (Frame L))

structure Sys (C L T : Type) where
  locked : L → Bool
  /-- `lk->cpu` -/
  lkcpu : L → Option C
  cpu : C → Cpu L T
  thread : T → Thread L
  panic : Option String

variable {C L T : Type}

namespace Cpu

/-- `pushcli`, after `readeflags` -/
def pushcli (k : Cpu L T) (eflags : Bool) : Cpu L T :=
  { k with IF := false, intena := if k.ncli = 0 then eflags else k.intena, ncli := k.ncli + 1 }

def popcli (k : Cpu L T) : Except String (Cpu L T) :=
  if k.IF then .error "popcli - interruptible"
  else if k.ncli - 1 < 0 then .error "popcli"
  else .ok { k with ncli := k.ncli - 1, IF := k.ncli - 1 = 0 ∧ k.intena = true }

/-- The hardware clears `IF` when it calls a handler. -/
def intr (k : Cpu L T) : Cpu L T :=
  { k with IF := false, pc := .out, entry := false, stack := ⟨k.entry, k.pc⟩ :: k.stack }

end Cpu

section Step

variable [DecidableEq C] [DecidableEq L] [DecidableEq T]

namespace Sys

variable (s : Sys C L T) (c : C)

def set (k : Cpu L T) : Sys C L T := { s with cpu := update s.cpu c k }

/-- Go on unless a function has panicked. -/
def checked {α : Type} (r : Except String α) (f : α → Sys C L T) : Sys C L T :=
  match r with
  | .error msg => { s with panic := some msg }
  | .ok a => f a

def holding (k : Cpu L T) (lk : L) : Except String (Bool × Cpu L T) :=
  (k.pushcli k.IF).popcli.map fun k => (s.locked lk && s.lkcpu lk = some c, k)

/-- `acquire`, after `readeflags`, up to `xchg`; and a round of its loop -/
def next : Option (Sys C L T) :=
  match (s.cpu c).pc with
  | .out => none
  | .pushcli lk eflags => some <|
      s.checked (s.holding c ((s.cpu c).pushcli eflags) lk) fun (r, k) =>
        if r then { s with panic := some "acquire" } else s.set c { k with pc := .xchg lk }
  | .xchg lk =>
    if s.locked lk then some s
    else some { s.set c { s.cpu c with pc := .out, held := insert lk (s.cpu c).held } with
      locked := update s.locked lk true, lkcpu := update s.lkcpu lk (some c) }

def release (lk : L) : Sys C L T :=
  s.checked (s.holding c (s.cpu c) lk) fun (r, k) =>
    if ¬ r then { s with panic := some "release" }
    else s.checked k.popcli fun k => { s.set c { k with held := k.held.erase lk } with
      lkcpu := update s.lkcpu lk none, locked := update s.locked lk false }

/-- `sched`, up to and with `swtch`.  The scheduler goes on with the `intena` of the process. -/
def sched (ptable : L) (t : T) : Sys C L T :=
  s.checked (s.holding c (s.cpu c) ptable) fun (r, k) =>
    if ¬ r then { s with panic := some "sched ptable.lock" }
    else if k.ncli ≠ 1 then { s with panic := some "sched locks" }
    else if k.IF then { s with panic := some "sched interruptible" }
    else { s.set c { k with proc := none, entry := k.intena, stack := [] } with
      thread := update s.thread t (.off k.intena k.entry k.stack) }

/-- `swtch` in `scheduler`.  A new thread begins in `forkret`, which returns to user space. -/
def swtch (t : T) : Option (Sys C L T) :=
  let run (k : Cpu L T) : Sys C L T :=
    { s.set c { k with proc := some t } with thread := update s.thread t .run }
  match s.thread t with
  | .fresh => some (run { s.cpu c with entry := (s.cpu c).intena, stack := [⟨true, .out⟩] })
  | .run => none
  | .off intena entry stack => some (run { s.cpu c with intena, entry, stack })

end Sys

/-- A step of one CPU, and what its code owes -/
inductive Step (ptable : L) (s : Sys C L T) : Sys C L T → Prop
  | acquire (c) (lk) (hpc : (s.cpu c).pc = .out) (hlk : lk ∉ (s.cpu c).held) :
      Step ptable s (s.set c { s.cpu c with pc := .pushcli lk (s.cpu c).IF })
  | next (c) {s'} (h : s.next c = some s') : Step ptable s s'
  | release (c) (lk) (hpc : (s.cpu c).pc = .out) (hlk : lk ∈ (s.cpu c).held) :
      Step ptable s (s.release c lk)
  | intr (c) (hIF : (s.cpu c).IF = true) : Step ptable s (s.set c (s.cpu c).intr)
  | iret (c) {f fs} (hpc : (s.cpu c).pc = .out) (hheld : (s.cpu c).held = ∅)
      (hstack : (s.cpu c).stack = f :: fs) :
      Step ptable s (s.set c { s.cpu c with IF := true, pc := f.pc, entry := f.entry, stack := fs })
  | sti (c) (hpc : (s.cpu c).pc = .out) (hheld : (s.cpu c).held = ∅) (hproc : (s.cpu c).proc = none)
      (hstack : (s.cpu c).stack = []) :
      Step ptable s (s.set c { s.cpu c with IF := true, entry := true })
  | sched (c) {t} (hpc : (s.cpu c).pc = .out) (hheld : (s.cpu c).held = {ptable})
      (hproc : (s.cpu c).proc = some t) : Step ptable s (s.sched c ptable t)
  | swtch (c) (t) {s'} (hpc : (s.cpu c).pc = .out)
      (hheld : (s.cpu c).held = {ptable}) (hproc : (s.cpu c).proc = none)
      (hstack : (s.cpu c).stack = []) (h : s.swtch c t = some s') : Step ptable s s'

end Step

/-- Every CPU enters `scheduler` with interrupts off. -/
def start : Sys C L T where
  locked _ := false
  lkcpu _ := none
  cpu _ := ⟨false, 0, false, none, .out, false, [], ∅⟩
  thread _ := .fresh
  panic := none

/-! ## One CPU -/

/-- How often `pushcli` is ahead of the locks -/
@[simp] def Pc.pushed : Pc L → ℕ
  | .out | .pushcli _ _ => 0
  | .xchg _ => 1

/-- Interrupted code had interrupts on, and so was in no critical section; a process itself has them
on. -/
def Code (own : Prop) (entry : Bool) (stack : List (Frame L)) : Prop :=
  (own → stack = [] → entry = true) ∧
    ∀ f ∈ stack, f.entry = true ∧ (f.pc = .out ∨ ∃ lk, f.pc = .pushcli lk true)

/-- `sched` has kept the flag for its thread. -/
def Thread.Ok : Thread L → Prop
  | .off intena entry stack => intena = entry ∧ Code True entry stack
  | _ => True

structure Cpu.Ok (k : Cpu L T) : Prop where
  count : k.ncli = k.held.card + k.pc.pushed
  inside : 0 < k.ncli → k.IF = false ∧ k.intena = k.entry
  outside : k.ncli = 0 → k.IF = k.entry
  flags : ∀ lk e, k.pc = .pushcli lk e → e = k.IF ∧ lk ∉ k.held
  code : Code (k.proc ≠ none) k.entry k.stack

theorem Cpu.popcli_eq {k : Cpu L T} (hIF : k.IF = false) (hpos : 0 < k.ncli) :
    k.popcli = .ok { k with ncli := k.ncli - 1, IF := k.ncli - 1 = 0 ∧ k.intena = true } := by
  have hlt : ¬ k.ncli - 1 < 0 := by omega
  rw [popcli, hIF, if_neg Bool.false_ne_true, if_neg hlt]

namespace Cpu.Ok

variable {k : Cpu L T} {lk : L}

theorem ncli_zero (h : k.Ok) (hpc : k.pc = .out) (hheld : k.held = ∅) : k.ncli = 0 := by
  simpa [hpc, hheld] using h.count

theorem ncli_pos (h : k.Ok) (hheld : k.held ≠ ∅) : 0 < k.ncli := by
  have hcard := Finset.card_pos.mpr (Finset.nonempty_iff_ne_empty.mpr hheld)
  have hcount := h.count
  omega

/-- `pushcli` has the right flags, whatever has come after it has read them. -/
theorem pushcli {e : Bool} (h : k.Ok) (hpc : k.pc = .pushcli lk e) :
    Cpu.Ok { k.pushcli e with pc := .xchg lk } := by
  have hcount := h.count
  rw [hpc] at hcount
  refine ⟨by simp [Cpu.pushcli, hcount], fun _ => ⟨rfl, ?_⟩, ?_, by simp, h.code⟩
  · rcases eq_or_ne k.ncli 0 with h0 | h0
    · simp [Cpu.pushcli, h0, (h.flags lk e hpc).1, h.outside h0]
    · simp [Cpu.pushcli, h0, (h.inside (by omega)).2]
  · intro h0
    simp only [Cpu.pushcli] at h0
    omega

/-- A context switch, with `ptable.lock` held -/
theorem switch (h : k.Ok) (hpos : 0 < k.ncli) {intena entry : Bool} {stack : List (Frame L)}
    {proc : Option T} (hi : intena = entry) (hcode : Code (proc ≠ none) entry stack) :
    Cpu.Ok { k with intena, entry, stack, proc } :=
  ⟨h.count, fun _ => ⟨(h.inside hpos).1, hi⟩, fun h0 => absurd h0 hpos.ne', h.flags, hcode⟩

variable [DecidableEq L]

theorem lock (h : k.Ok) (hpc : k.pc = .xchg lk) (hlk : lk ∉ k.held) :
    Cpu.Ok { k with pc := .out, held := insert lk k.held } := by
  refine ⟨?_, h.inside, h.outside, by simp, h.code⟩
  rw [Finset.card_insert_of_notMem hlk, h.count, hpc]
  simp

theorem popcli (h : k.Ok) (hpc : k.pc = .out) (hlk : lk ∈ k.held) :
    Cpu.Ok { k with
      ncli := k.ncli - 1, IF := k.ncli - 1 = 0 ∧ k.intena = true, held := k.held.erase lk } := by
  have hintena := (h.inside (h.ncli_pos (Finset.ne_empty_of_mem hlk))).2
  refine ⟨?_, ?_, ?_, by simp [hpc], h.code⟩
  · have hcard := Finset.card_erase_add_one hlk
    have hcount := h.count
    simp only [hpc, Pc.pushed] at hcount ⊢
    omega
  · intro hpos
    simp [hintena, (show k.ncli - 1 ≠ 0 from hpos.ne')]
  · intro h0
    simp [hintena, (show k.ncli - 1 = 0 from h0)]

end Cpu.Ok

/-! ## The system -/

structure Inv (s : Sys C L T) : Prop where
  panic : s.panic = none
  cpu : ∀ c, (s.cpu c).Ok
  thread : ∀ t, (s.thread t).Ok
  locked : s.locked = Option.isSome ∘ s.lkcpu
  lkcpu : ∀ c lk, s.lkcpu lk = some c ↔ lk ∈ (s.cpu c).held

theorem inv_start : Inv (start : Sys C L T) where
  panic := rfl
  cpu _ := by constructor <;> simp [start, Code]
  thread _ := trivial
  locked := rfl
  lkcpu := by simp [start]

namespace Inv

variable {s s' : Sys C L T} {c : C} {k : Cpu L T} {lk : L}

theorem setThread [DecidableEq T] (h : Inv s) (t : T) {x : Thread L} (hx : x.Ok) :
    Inv { s with thread := update s.thread t x } :=
  { h with
    thread := (forall_update_iff s.thread fun _ x => x.Ok).mpr ⟨hx, fun t' _ => h.thread t'⟩ }

variable [DecidableEq C]

theorem step (h : Inv s) (hk : k.Ok) {locked : L → Bool} {lkcpu : L → Option C}
    (hlocked : locked = Option.isSome ∘ lkcpu)
    (hlkcpu : ∀ c' lk, lkcpu lk = some c' ↔ lk ∈ (update s.cpu c k c').held) :
    Inv { s with cpu := update s.cpu c k, locked, lkcpu } :=
  ⟨h.panic, (forall_update_iff s.cpu fun _ k => k.Ok).mpr ⟨hk, fun c' _ => h.cpu c'⟩, h.thread,
    hlocked, hlkcpu⟩

/-- A step that changes no lock -/
theorem set (h : Inv s) (hk : k.Ok) (hheld : k.held = (s.cpu c).held) : Inv (s.set c k) := by
  refine h.step hk h.locked fun c' lk => ?_
  rw [h.lkcpu, update_apply]
  split_ifs with hc
  · rw [hc, hheld]
  · rfl

/-- Interrupts come and return outside critical sections. -/
theorem quiet (h : Inv s) (h0 : (s.cpu c).ncli = 0) {b : Bool} {pc : Pc L} {stack : List (Frame L)}
    (hpc : pc = .out ∨ ∃ lk, pc = .pushcli lk b) (hcode : Code ((s.cpu c).proc ≠ none) b stack) :
    Inv (s.set c { s.cpu c with IF := b, pc, entry := b, stack }) := by
  have hcount := (h.cpu c).count
  have hheld : (s.cpu c).held = ∅ := Finset.card_eq_zero.mp (by omega)
  refine h.set ⟨?_, fun hpos => absurd h0 hpos.ne', fun _ => rfl, ?_, hcode⟩ rfl
  · rcases hpc with rfl | ⟨lk, rfl⟩ <;> simp [h0, hheld]
  · rcases hpc with rfl | ⟨lk, rfl⟩ <;> simp [hheld]

theorem intr (h : Inv s) (hIF : (s.cpu c).IF = true) : Inv (s.set c (s.cpu c).intr) := by
  have hk := h.cpu c
  have hcount := hk.count
  have h0 : (s.cpu c).ncli = 0 := by
    by_contra hne
    simpa [hIF] using hk.inside (by omega)
  refine h.quiet h0 (.inl rfl) ⟨by simp,
    List.forall_mem_cons.mpr ⟨⟨hk.outside h0 ▸ hIF, ?_⟩, hk.code.2⟩⟩
  cases hpc : (s.cpu c).pc with
  | out => exact .inl rfl
  | pushcli lk e => exact .inr ⟨lk, by rw [(hk.flags lk e hpc).1, hIF]⟩
  | xchg lk =>
    rw [hpc, Pc.pushed] at hcount
    omega

variable [DecidableEq L]

/-- In a critical section `holding` changes nothing. -/
theorem holding_eq (h : Inv s) (hIF : k.IF = false) (hpos : 0 < k.ncli)
    (hheld : k.held = (s.cpu c).held) : s.holding c k lk = .ok (decide (lk ∈ k.held), k) := by
  have hr : (s.locked lk && s.lkcpu lk = some c) = decide (lk ∈ k.held) := by
    rw [hheld, h.locked]
    by_cases hin : s.lkcpu lk = some c <;> simp [hin, ← h.lkcpu]
  rw [Sys.holding, Cpu.popcli_eq rfl (by simp only [Cpu.pushcli]; omega), hr]
  cases k
  simp_all [Cpu.pushcli, Except.map, hpos.ne']

theorem next (h : Inv s) (hs : s.next c = some s') : Inv s' := by
  have hk := h.cpu c
  unfold Sys.next at hs
  split at hs
  case h_1 => cases hs
  case h_2 lk e hpc =>
    have hcount := hk.count
    have hpos : 0 < ((s.cpu c).pushcli e).ncli := by simp only [Cpu.pushcli]; omega
    rw [h.holding_eq rfl hpos rfl] at hs
    simp only [Sys.checked, Cpu.pushcli, (hk.flags lk e hpc).2] at hs
    cases hs
    exact h.set (hk.pushcli hpc) rfl
  case h_3 lk hpc =>
    split_ifs at hs with hlocked
    · exact Option.some.inj hs ▸ h
    · cases hs
      have hnone : s.lkcpu lk = none := by simpa [h.locked] using hlocked
      have hlk : lk ∉ (s.cpu c).held := by rw [← h.lkcpu, hnone]; simp
      refine h.step (hk.lock hpc hlk) (by rw [comp_update, ← h.locked]; rfl) fun c' lk' => ?_
      have hlkcpu := h.lkcpu c' lk'
      grind

theorem release (h : Inv s) (hpc : (s.cpu c).pc = .out) (hlk : lk ∈ (s.cpu c).held) :
    Inv (s.release c lk) := by
  have hpos := (h.cpu c).ncli_pos (Finset.ne_empty_of_mem hlk)
  have hIF := ((h.cpu c).inside hpos).1
  simp only [Sys.release, h.holding_eq hIF hpos rfl, hlk, Sys.checked, Cpu.popcli_eq hIF hpos,
    decide_true, not_true_eq_false, if_false]
  refine h.step ((h.cpu c).popcli hpc hlk) (by rw [comp_update, ← h.locked]; rfl) fun c' lk' => ?_
  have hlkcpu := h.lkcpu c' lk'
  have howner := (h.lkcpu c lk).mpr hlk
  simp only [update_apply]
  grind

variable [DecidableEq T]

theorem sched {t : T} {ptable : L} (h : Inv s) (hproc : (s.cpu c).proc = some t)
    (hpc : (s.cpu c).pc = .out) (hheld : (s.cpu c).held = {ptable}) : Inv (s.sched c ptable t) := by
  have hk := h.cpu c
  have hlk : ptable ∈ (s.cpu c).held := by simp [hheld]
  have hpos := hk.ncli_pos (Finset.ne_empty_of_mem hlk)
  have hncli : (s.cpu c).ncli = 1 := by simpa [hpc, hheld] using hk.count
  obtain ⟨hIF, hintena⟩ := hk.inside hpos
  simp only [Sys.sched, h.holding_eq hIF hpos rfl, Sys.checked]
  rw [if_neg (by simp [hlk]), if_neg (by simp [hncli]), if_neg (by simp [hIF])]
  refine (h.set (hk.switch hpos rfl ?_) rfl).setThread t ⟨hintena, fun _ => ?_, hk.code.2⟩
  · simp [Code]
  · exact hk.code.1 (by simp [hproc])

theorem of_step {ptable : L} (h : Inv s) (hs : Step ptable s s') : Inv s' := by
  cases hs with
  | acquire c lk hpc hlk =>
    have hk := h.cpu c
    refine h.set ⟨by simpa [hpc] using hk.count, hk.inside, hk.outside, ?_, hk.code⟩ rfl
    rintro _ _ ⟨⟩
    exact ⟨rfl, hlk⟩
  | next c hs => exact h.next hs
  | release c lk hpc hlk => exact h.release hpc hlk
  | intr c hIF => exact h.intr hIF
  | iret c hpc hheld hstack =>
    have hcode := (h.cpu c).code.2
    rw [hstack] at hcode
    obtain ⟨⟨hentry, hf⟩, hfs⟩ := List.forall_mem_cons.mp hcode
    rw [hentry]
    exact h.quiet ((h.cpu c).ncli_zero hpc hheld) hf ⟨fun _ _ => rfl, hfs⟩
  | sti c hpc hheld =>
    exact h.quiet ((h.cpu c).ncli_zero hpc hheld) (.inl hpc) ⟨fun _ _ => rfl, (h.cpu c).code.2⟩
  | sched c hpc hheld hproc => exact h.sched hproc hpc hheld
  | swtch c t hpc hheld _ _ hs =>
    have hpos := (h.cpu c).ncli_pos (by simp [hheld])
    unfold Sys.swtch at hs
    split at hs <;> cases hs
    · refine (h.set ((h.cpu c).switch hpos rfl ?_) rfl).setThread t trivial
      simp [Code]
    · next ht =>
      have hok := h.thread t
      rw [ht] at hok
      obtain ⟨hi, hcode⟩ := hok
      exact (h.set ((h.cpu c).switch hpos hi ⟨fun _ => hcode.1 trivial, hcode.2⟩)
        rfl).setThread t trivial

end Inv

section Results

variable [DecidableEq C] [DecidableEq L] [DecidableEq T] {ptable : L} {s : Sys C L T}

theorem inv_of_run (h : ReflTransGen (Step ptable) start s) : Inv s := by
  induction h with
  | refl => exact inv_start
  | tail _ hs ih => exact ih.of_step hs

/-- **Spin locks work.**  No two CPUs hold a lock, a CPU that holds one has interrupts off, and
`acquire`, `release`, `popcli` and `sched` do not panic. -/
theorem spinlock_safe (h : ReflTransGen (Step ptable) start s) :
    s.panic = none ∧ (∀ c, (s.cpu c).held ≠ ∅ → (s.cpu c).IF = false) ∧
      ∀ c c' lk, lk ∈ (s.cpu c).held → lk ∈ (s.cpu c').held → c = c' := by
  have hi := inv_of_run h
  refine ⟨hi.panic, fun c hne => ((hi.cpu c).inside ((hi.cpu c).ncli_pos hne)).1, ?_⟩
  intro c c' lk hc hc'
  have heq := (hi.lkcpu c lk).mpr hc
  rw [(hi.lkcpu c' lk).mpr hc'] at heq
  exact (Option.some.inj heq).symm

theorem spinlock_safe_held : ∃ s : Sys Bool Bool Unit,
    s.panic = none ∧ (s.cpu true).held = {true} ∧ (s.cpu true).IF = false := by
  have hs : ReflTransGen (Step false) (start : Sys Bool Bool Unit) _ :=
    ((ReflTransGen.single (.acquire true true rfl (by decide))).tail (.next true rfl)).tail
      (.next true rfl)
  exact ⟨_, (spinlock_safe hs).1, by decide, (spinlock_safe hs).2.1 true (by decide)⟩

/-- **Interrupts are restored.**  A process that holds no lock has the flag with which its code was
entered, on whatever CPUs it has run; outside handlers it has interrupts on. -/
theorem interrupts_restored (h : ReflTransGen (Step ptable) start s) {c : C} {t : T}
    (hproc : (s.cpu c).proc = some t) (hpc : (s.cpu c).pc = .out) (hheld : (s.cpu c).held = ∅) :
    (s.cpu c).ncli = 0 ∧ (s.cpu c).IF = (s.cpu c).entry ∧
    ((s.cpu c).stack = [] → (s.cpu c).IF = true) := by
  have hk := (inv_of_run h).cpu c
  have h0 := hk.ncli_zero hpc hheld
  refine ⟨h0, hk.outside h0, fun hstack => ?_⟩
  rw [hk.outside h0]
  exact hk.code.1 (by simp [hproc]) hstack

/-- A process has returned from `forkret`. -/
theorem interrupts_restored_forkret : ∃ s : Sys Bool Bool Unit,
    (s.cpu true).proc = some () ∧ (s.cpu true).IF = true := by
  have hs : ReflTransGen (Step false) (start : Sys Bool Bool Unit) _ :=
    (((((ReflTransGen.single (.acquire true false rfl (by decide))).tail (.next true rfl)).tail
      (.next true rfl)).tail (.swtch true () rfl rfl rfl rfl rfl)).tail
      (.release true false rfl (by decide))).tail (.iret true rfl rfl rfl)
  exact ⟨_, rfl, (interrupts_restored hs rfl rfl rfl).2.2 rfl⟩

end Results

end Xv6Mlfq.Spin
