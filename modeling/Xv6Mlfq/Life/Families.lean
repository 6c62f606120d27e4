import Xv6Mlfq.Lib.Family
import Xv6Mlfq.Sched.Handoff

/-!
# The families of the process table

The kernel refines the protocol of `Family`: `Kernel.table` reads the family off the process
table, `Kernel.act` names the move that a step makes, and `step_refines_family` shows that it
makes this move.  A process is `waiting` when it sleeps in `wait`, on its own address.

The one function that needs an induction is `exit`, which passes its children to init one after
the other and wakes init for those that are dead (`foldl_abandon`).

## Main definitions

* `Kernel.table`, `Kernel.act` — the abstraction of a state and of a step.
* `Kernel.Kin` — the invariants of the family, in a reachable state.
-/

namespace Xv6Mlfq

open Function (update update_self update_of_ne)
open Family (Status Table Act Roused)

variable {n : ℕ}

/-! ## The abstraction -/

/-- What a slot is used for. -/
def Life.status (x : Life) (p : Slot) : Status :=
  match x.state with
  | .UNUSED => .free
  | .EMBRYO => .unborn
  | .SLEEPING => if x.chan = some (.proc p) then .waiting else .live
  | .RUNNABLE | .RUNNING => .live
  | .ZOMBIE => .dead

variable {x : Life} {p : Slot} {s : Kernel n}

theorem Life.status_eq_free : x.status p = .free ↔ x.state = .UNUSED := by
  simp only [Life.status]
  cases hx : x.state <;> simp
  split_ifs <;> simp

theorem Life.status_eq_dead : x.status p = .dead ↔ x.state = .ZOMBIE := by
  simp only [Life.status]
  cases hx : x.state <;> simp
  split_ifs <;> simp

theorem Life.status_eq_waiting :
    x.status p = .waiting ↔ x.state = .SLEEPING ∧ x.chan = some (.proc p) := by
  simp only [Life.status]
  cases hx : x.state <;> simp

theorem Life.status_alive : x.status p = .live ∨ x.status p = .waiting ↔
    x.state = .SLEEPING ∨ x.state = .RUNNABLE ∨ x.state = .RUNNING := by
  simp only [Life.status]
  cases hx : x.state <;> simp
  exact (em _).symm

/-- The slot a `fork` has taken, and whether it has its parent. -/
def Life.making (x : Life) : Option (Bool × Slot) := x.forking.map fun a => (a.1 = .copied, a.2)

namespace Kernel

/-- The family in the process table. -/
def table (s : Kernel n) : Table Slot where
  status p := (s.proc p).toLife.status p
  parent p := (s.proc p).parent
  pid p := (s.proc p).pid
  marked p := (s.proc p).killed
  making p := (s.proc p).toLife.making
  next := s.nextpid
  root := s.initproc.getD 0

/-- The move of a round of `wait`. -/
def waitAct (s : Kernel n) (q : Slot) : Act Slot :=
  match s.zombieChild q with
  | some z => .reap q z
  | none =>
    if (∀ p, (s.proc p).parent ≠ some q) ∨ (s.proc q).killed then .rest else .wait q

/-- The move of a step of a `fork` that has taken the slot `np`. -/
def forkAct (s : Kernel n) (c : Fin n) (a : Slot → Slot → Act Slot) : Act Slot :=
  match s.current c with
  | some f =>
    match (s.proc f.p).forking with
    | some (_, np) => a f.p np
    | none => .rest
  | none => .rest

/-- The move that a step makes. -/
def act (s : Kernel n) : Label n → Act Slot
  | .exit c => match s.current c with
      | some f => .exit f.p
      | none => .rest
  | .wait c => match s.current c with
      | some f => s.waitAct f.p
      | none => .rest
  | .resume c => match (s.cpu c).ctl with
      | .running f => if (s.proc f.p).context = .wait then s.waitAct f.p else .rest
      | _ => .rest
  | .kill _ pid => match (List.finRange NPROC).find? fun p => (s.proc p).pid = pid with
      | some p => .mark p
      | none => .rest
  | .fault c => match s.current c with
      | some f => .mark f.p
      | none => .rest
  | .forkAlloc c => match s.current c, s.findUnused with
      | some f, some np => .claim f.p np
      | _, _ => .rest
  | .forkStack c kalloc => if kalloc then .rest else s.forkAct c .fail
  | .forkCopy c setupkvm pages =>
    if copyuvm setupkvm pages then s.forkAct c .adopt else s.forkAct c .fail
  | .forkRun c => s.forkAct c .bear
  | _ => .rest

/-! ## What the kernel's updates do to the family -/

variable {s t : Kernel n} {p cur : Slot}

theorem table_congr (hl : ∀ p, (t.proc p).toLife = (s.proc p).toLife)
    (hn : t.nextpid = s.nextpid) (hi : t.initproc = s.initproc) : t.table = s.table := by
  apply Table.ext
  · funext p; simp [table, hl]
  · funext p; simp [table, hl]
  · funext p; simp [table, hl]
  · funext p; simp [table, hl]
  · funext p; simp [table, hl]
  · exact hn
  · simp [table, hi]

@[simp] theorem table_setLock (s : Kernel n) (x : Option (Fin n)) :
    (s.setLock x).table = s.table := rfl

@[simp] theorem table_setCtl (s : Kernel n) (c : Fin n) (x : Ctl) :
    (s.setCtl c x).table = s.table := rfl

@[simp] theorem table_sched (s : Kernel n) (c : Fin n) (f : Frame) :
    (s.sched c f).table = s.table := rfl

/-- One entry has changed, and `nextpid` may have. -/
theorem table_update {x : Life} (hself : (t.proc p).toLife = x)
    (hne : ∀ r, r ≠ p → (t.proc r).toLife = (s.proc r).toLife) (hi : t.initproc = s.initproc) :
    t.table = { s.table with
      status := update s.table.status p (x.status p)
      parent := update s.table.parent p x.parent
      pid := update s.table.pid p x.pid
      marked := update s.table.marked p x.killed
      making := update s.table.making p x.making
      next := t.nextpid } := by
  have hat : ∀ {β : Type} (g : Slot → Life → β) (r : Slot), g r (t.proc r).toLife =
      update (fun r => g r (s.proc r).toLife) p (g p x) r := by
    intro β g r
    by_cases hr : r = p
    · subst hr
      rw [update_self, hself]
    · rw [update_of_ne hr, hne r hr]
  apply Table.ext
  · exact funext (hat fun r y => y.status r)
  · exact funext (hat fun _ y => y.parent)
  · exact funext (hat fun _ y => y.pid)
  · exact funext (hat fun _ y => y.killed)
  · exact funext (hat fun _ y => y.making)
  · rfl
  · simp [table, hi]

theorem table_modify (s : Kernel n) (p : Slot) (f : Proc → Proc) :
    (s.modify p f).table = { s.table with
      status := update s.table.status p ((f (s.proc p)).toLife.status p)
      parent := update s.table.parent p (f (s.proc p)).parent
      pid := update s.table.pid p (f (s.proc p)).pid
      marked := update s.table.marked p (f (s.proc p)).killed
      making := update s.table.making p (f (s.proc p)).toLife.making } :=
  table_update (by simp) (fun r hr => by simp [hr]) rfl

/-- An update of one entry that the family does not see. -/
theorem table_modify_eq {f : Proc → Proc}
    (hs : (f (s.proc p)).toLife.status p = (s.proc p).toLife.status p)
    (hpar : (f (s.proc p)).parent = (s.proc p).parent) (hpid : (f (s.proc p)).pid = (s.proc p).pid)
    (hk : (f (s.proc p)).killed = (s.proc p).killed)
    (hm : (f (s.proc p)).toLife.making = (s.proc p).toLife.making) :
    (s.modify p f).table = s.table := by
  rw [table_modify, hs, hpar, hpid, hk, hm]
  simp [table]

theorem table_setForking (s : Kernel n) (p : Slot) (x : Option (ForkStage × Slot)) :
    (s.setForking p x).table = { s.table with
      making := update s.table.making p (x.map fun a => (a.1 = .copied, a.2)) } := by
  rw [setForking, table_modify]
  simp [table, Life.status, Life.making]

theorem table_setState (s : Kernel n) (p : Slot) (x : ProcState) :
    (s.setState p x).table = { s.table with
      status := update s.table.status p ({ (s.proc p).toLife with state := x }.status p) } := by
  rw [setState, table_modify]
  simp [table, Life.making]

/-! Leaving the CPU for `sleep` or the timer, and coming back, are not seen. -/

theorem table_dispatch (c : Fin n) {f : Frame}
    (h : (s.proc f.p).state = .RUNNABLE) : (s.dispatch c f).table = s.table := by
  have hstatus : ({ (s.proc f.p).toLife with state := .RUNNING } : Life).status f.p =
      s.table.status f.p := by
    simp [table, Life.status, h]
  refine (table_update (s := s) (s.dispatch_life c f)
    (fun r hr => by rw [dispatch_proc_ne s c hr]) rfl).trans ?_
  rw [hstatus]
  simp [table, Life.making, dispatch]

theorem table_yield (h : (s.proc p).state = .RUNNING) : (s.yield p).table = s.table := by
  unfold yield
  exact table_modify_eq (by simp [Life.status, h]) rfl rfl rfl rfl

theorem table_sleep (chan : ℕ) (h : (s.proc p).state = .RUNNING) :
    (s.sleep p chan).table = s.table := by
  unfold sleep
  exact table_modify_eq (by simp [Life.status, h]) rfl rfl rfl rfl

theorem table_awake (h : (s.proc p).state = .RUNNING) : (s.awake p).table = s.table := by
  unfold awake
  exact table_modify_eq (by simp [Life.status, h]) rfl rfl rfl rfl

theorem waitAct_awake (s : Kernel n) (p q : Slot) : (s.awake p).waitAct q = s.waitAct q := by
  have h : ∀ r, ((s.awake p).proc r).parent = (s.proc r).parent ∧
      ((s.awake p).proc r).killed = (s.proc r).killed := by
    intro r
    by_cases hr : r = p
    · subst hr; simp [awake]
    · simp [awake, hr]
  simp only [waitAct, zombieChild_awake, h]

/-! The pieces of `fork`, `wait` and `kill`. -/

theorem table_claimSlot (s : Kernel n) (p : Slot) : (s.claimSlot p).table = { s.table with
    status := update s.table.status p .unborn
    pid := update s.table.pid p s.nextpid
    next := s.nextpid + 1 } := by
  refine (table_update (s := s) (congrArg Proc.toLife (s.claimSlot_proc_self p))
    (fun r hr => by rw [claimSlot_proc_ne s hr]) (by rw [claimSlot_toMachine])).trans ?_
  rw [claimSlot_toMachine]
  simp [table, Life.status, Life.making]

theorem table_copyProc (s : Kernel n) (cur np : Slot) : (s.copyProc cur np).table =
    { s.table with parent := update s.table.parent np (some cur) } := by
  simp only [copyProc, table_modify]
  simp [table, Life.status, Life.making]

theorem table_reap (s : Kernel n) (p : Slot) : (s.reap p).table = { s.table with
    status := update s.table.status p .free
    pid := update s.table.pid p 0
    parent := update s.table.parent p none
    marked := update s.table.marked p false } := by
  rw [reap, table_modify]
  simp [table, Life.status, Life.making]

theorem table_kill {pid : ℤ}
    (h : (List.finRange NPROC).find? (fun p => (s.proc p).pid = pid) = some p) :
    (s.kill pid).2.table = { s.table with
      status := update s.table.status p
        (if s.table.status p = .waiting then .live else s.table.status p)
      marked := update s.table.marked p true } := by
  have hstatus : ({ (s.proc p).toLife with
      killed := true
      state := if (s.proc p).state = .SLEEPING then .RUNNABLE else (s.proc p).state } :
        Life).status p =
      if s.table.status p = .waiting then .live else s.table.status p := by
    by_cases hsl : (s.proc p).state = .SLEEPING
    · by_cases hc : (s.proc p).chan = some (.proc p)
      · simp [table, Life.status, hsl, hc]
      · simp [table, Life.status, hsl, hc]
    · have hw : s.table.status p ≠ .waiting := fun hw => hsl (Life.status_eq_waiting.mp hw).1
      rw [if_neg hw, if_neg hsl]
      rfl
  simp only [kill, h, table_modify]
  rw [← hstatus]
  simp [table, Life.making]

theorem table_fault (h : (s.proc p).state = .RUNNING) : (s.fault p).table = { s.table with
      status := update s.table.status p
        (if s.table.status p = .waiting then .live else s.table.status p)
      marked := update s.table.marked p true } := by
  have hlive : s.table.status p = .live := by simp [table, Life.status, h]
  rw [fault, table_modify, if_neg (by rw [hlive]; decide), hlive]
  simp [table, Life.status, Life.making, h]

/-! ## Waking -/

/-- What becomes of the state of a process that may be woken. -/
inductive MayWake : ProcState → ProcState → Prop
  | keep (x : ProcState) : MayWake x x
  | wake : MayWake .SLEEPING .RUNNABLE

theorem MayWake.trans {x y z : ProcState} (h₁ : MayWake x y) (h₂ : MayWake y z) : MayWake x z := by
  cases h₁ with
  | keep => exact h₂
  | wake => cases h₂; exact .wake

theorem MayWake.zombie {x : ProcState} (h : MayWake .ZOMBIE x) : x = .ZOMBIE := by
  cases h
  rfl

/-- A process that may be woken does not begin to wait. -/
theorem MayWake.status {a b : Life} (h : MayWake a.state b.state)
    (hc : b.chan = a.chan) : b.status p = a.status p ∨ a.status p = .waiting ∧
    b.status p = .live := by
  simp only [Life.status, hc]
  generalize a.state = x, b.state = y at h
  cases h with
  | keep => exact .inl rfl
  | wake =>
    by_cases hw : a.chan = some (.proc p)
    · simp [hw]
    · simp [hw]

theorem life_wakeup1 (s : Kernel n) (chan : Option Chan) (p : Slot) :
    ∃ x, MayWake (s.proc p).state x ∧
      ((s.wakeup1 chan).proc p).toLife = { (s.proc p).toLife with state := x } := by
  simp only [wakeup1]
  split_ifs with h
  · exact ⟨.RUNNABLE, h.1 ▸ .wake, rfl⟩
  · exact ⟨_, .keep _, rfl⟩

theorem roused_wakeup1 (s : Kernel n) (chan : Option Chan) :
    Roused s.table (s.wakeup1 chan).table := by
  refine ⟨fun p => ?_, fun p => ?_, fun p => ?_, fun p => ?_, fun p => ?_, rfl, rfl⟩ <;>
    obtain ⟨x, hx, hl⟩ := s.life_wakeup1 chan p
  · exact MayWake.status (by rw [hl]; exact hx) (by rw [hl])
  all_goals simp [table, Life.making, hl]

/-- Who is woken by `wakeup1` does not sleep in `wait` any more. -/
theorem status_wakeup1 (s : Kernel n) (r : Slot) :
    (s.wakeup1 (some (.proc r))).table.status r ≠ .waiting := by
  simp only [table, wakeup1]
  split_ifs with h
  · simp [Life.status]
  · exact fun hw => h (Life.status_eq_waiting.mp hw)

/-! ## Passing children to init -/

/-- The children of `cur` among `ps` are init's, and some sleepers have been woken, among them
init if it got a dead child. -/
structure Abandons (cur : Slot) (ps : List Slot) (s t : Kernel n) : Prop where
  nextpid : t.nextpid = s.nextpid
  initproc : t.initproc = s.initproc
  life : ∀ p, ∃ x, MayWake (s.proc p).state x ∧ (t.proc p).toLife = { (s.proc p).toLife with
    state := x
    parent := if p ∈ ps ∧ (s.proc p).parent = some cur then s.initproc else (s.proc p).parent }
  woken : ∀ r, s.initproc = some r →
    (∃ p ∈ ps, (s.proc p).parent = some cur ∧ (s.proc p).state = .ZOMBIE) →
    t.table.status r ≠ .waiting

theorem Abandons.status {ps : List Slot} (h : Abandons cur ps s t)
    (p : Slot) : t.table.status p = s.table.status p ∨
      s.table.status p = .waiting ∧ t.table.status p = .live := by
  obtain ⟨x, hx, he⟩ := h.life p
  exact MayWake.status (by rw [he]; exact hx) (by rw [he])

theorem abandons_nil (cur : Slot) (s : Kernel n) : Abandons cur [] s s where
  nextpid := rfl
  initproc := rfl
  life p := ⟨_, .keep _, by simp⟩
  woken r _ h := by simp at h

/-- One child. -/
theorem abandons_abandon (cur : Slot) (s : Kernel n) (p : Slot) :
    Abandons cur [p] s (abandon cur s p) := by
  by_cases hp : (s.proc p).parent = some cur
  · -- the entry with its new parent, before init is woken
    have hmod : ∀ r, ((s.modify p fun x => { x with parent := s.initproc }).proc r).toLife =
        { (s.proc r).toLife with
          parent := if r ∈ [p] ∧ (s.proc r).parent = some cur then s.initproc
            else (s.proc r).parent } := by
      intro r
      by_cases hr : r = p
      · subst hr
        simp [hp]
      · simp [hr]
    by_cases hz : (s.proc p).state = .ZOMBIE
    · have he : abandon cur s p = (s.modify p fun x => { x with parent := s.initproc }).wakeup1
          (s.initproc.map .proc) := by
        simp [abandon, hp, hz]
      rw [he]
      refine ⟨rfl, rfl, fun r => ?_, fun r hr _ => ?_⟩
      · obtain ⟨x, hx, hl⟩ := (s.modify p fun x => { x with parent := s.initproc }).life_wakeup1
          (s.initproc.map .proc) r
        rw [hmod r] at hx hl
        exact ⟨x, hx, hl⟩
      · rw [hr]
        exact status_wakeup1 _ r
    · have he : abandon cur s p = s.modify p fun x => { x with parent := s.initproc } := by
        simp [abandon, hp, hz]
      rw [he]
      refine ⟨rfl, rfl, fun r => ⟨_, .keep _, hmod r⟩, fun r _ hdead => ?_⟩
      obtain ⟨q, hq, -, hzq⟩ := hdead
      rw [List.mem_singleton] at hq
      exact absurd (hq ▸ hzq) hz
  · have he : abandon cur s p = s := by simp [abandon, hp]
    rw [he]
    refine ⟨rfl, rfl, fun r => ⟨_, .keep _, ?_⟩, fun r _ hdead => ?_⟩
    · by_cases hr : r = p
      · subst hr
        simp [hp]
      · simp [hr]
    · obtain ⟨q, hq, hpar, -⟩ := hdead
      rw [List.mem_singleton] at hq
      exact absurd (hq ▸ hpar) hp

theorem Abandons.cons {ps : List Slot} {u : Kernel n}
    (hinit : s.initproc ≠ some cur) (h₁ : Abandons cur [p] s t) (h₂ : Abandons cur ps t u) :
    Abandons cur (p :: ps) s u where
  nextpid := h₂.nextpid.trans h₁.nextpid
  initproc := h₂.initproc.trans h₁.initproc
  life r := by
    obtain ⟨x, hx, hl₁⟩ := h₁.life r
    obtain ⟨y, hy, hl₂⟩ := h₂.life r
    have hst : (t.proc r).state = x := by rw [hl₁]
    refine ⟨y, hx.trans (hst ▸ hy), ?_⟩
    rw [hl₂, hl₁, h₁.initproc]
    by_cases hpar : (s.proc r).parent = some cur
    · by_cases hr : r = p
      · subst hr
        simp [hpar, hinit]
      · simp [hr, hpar]
    · simp [hpar]
  woken r hr hdead := by
    obtain ⟨q, hq, hpar, hz⟩ := hdead
    by_cases hqp : q = p
    · -- init was woken for the first child, and nobody goes to sleep afterwards
      have hw := h₁.woken r hr ⟨q, by simp [hqp], hpar, hz⟩
      rcases h₂.status r with he | ⟨hw', -⟩
      · rwa [he]
      · exact absurd hw' hw
    · obtain ⟨x, hx, hl⟩ := h₁.life q
      rw [hz] at hx
      refine h₂.woken r (h₁.initproc.trans hr)
        ⟨q, (List.mem_cons.mp hq).resolve_left hqp, ?_, ?_⟩
      · rw [hl]
        simpa [hqp] using hpar
      · rw [hl]
        exact hx.zombie

/-- The loop of `exit`. -/
theorem foldl_abandon (ps : List Slot)
    (hinit : s.initproc ≠ some cur) : Abandons cur ps s (ps.foldl (abandon cur) s) := by
  induction ps generalizing s with
  | nil => exact abandons_nil cur s
  | cons p ps ih =>
    have h₁ := abandons_abandon cur s p
    exact h₁.cons hinit (ih (h₁.initproc ▸ hinit))

/-- After the loop, `exit` buries the current process. -/
theorem Abandons.table_zombie {r : Slot} (hi : s.initproc = some r)
    (h : Abandons cur (List.finRange NPROC) s t) :
    (t.modify cur fun x => { x with state := .ZOMBIE, context := .exit }).table =
      ({ s.table with status := t.table.status } : Table Slot).bury cur := by
  -- `modify` writes the state; everything else is that of `t`
  have hmod : (t.modify cur fun x => { x with state := .ZOMBIE, context := .exit }).table =
      { t.table with status := update t.table.status cur .dead } := by
    rw [table_modify]
    simp [table, Life.status, Life.making]
  rw [hmod]
  apply Table.ext
  · rfl
  · funext p
    obtain ⟨x, -, hl⟩ := h.life p
    simp [table, Table.bury, hl, hi]
  · funext p
    obtain ⟨x, -, hl⟩ := h.life p
    simp [table, Table.bury, hl]
  · funext p
    obtain ⟨x, -, hl⟩ := h.life p
    simp [table, Table.bury, hl]
  · funext p
    obtain ⟨x, -, hl⟩ := h.life p
    simp [table, Table.bury, Life.making, hl]
  · exact h.nextpid
  · simp [table, Table.bury, h.initproc]

/-- `exit` in two steps: the parent is woken, and the children are passed to init. -/
theorem exit_abandons {r : Slot} (hi : s.initproc = some r) (hne : cur ≠ r) :
    ∃ a t : Kernel n, Roused s.table a.table ∧ a.initproc = some r ∧
      (∀ q, (s.proc cur).parent = some q → a.table.status q ≠ .waiting) ∧
      Abandons cur (List.finRange NPROC) a t ∧
      s.exit cur = t.modify cur fun x => { x with state := .ZOMBIE, context := .exit } := by
  refine ⟨(s.modify cur fun x => { x with ofile := fun _ => none, cwd := none }).wakeup1
    ((s.proc cur).parent.map .proc), _, ?_, hi, ?_, foldl_abandon _ ?_, ?_⟩
  · rw [← table_modify_eq (s := s) (p := cur)
      (f := fun x => { x with ofile := fun _ => none, cwd := none }) rfl rfl rfl rfl rfl]
    exact roused_wakeup1 _ _
  · intro q hq
    rw [hq]
    exact status_wakeup1 _ q
  · exact fun h => hne (Option.some.inj (hi.symm.trans h)).symm
  · simp [exit]

/-- `exit` makes the move of the same name. -/
theorem exit_refines {r : Slot} (hi : s.initproc = some r) (hne : cur ≠ r)
    (hrun : (s.proc cur).state = .RUNNING) (hfork : (s.proc cur).forking = none) :
    Family.Step s.table (.exit cur) (s.exit cur).table := by
  obtain ⟨a, t, ha, hia, hpar, ht, he⟩ := exit_abandons hi hne
  rw [he, ht.table_zombie hia]
  have hroot : s.table.root = r := by simp [table, hi]
  -- nobody who was woken before the loop goes to sleep in it
  have hwoken : ∀ q, a.table.status q ≠ .waiting → t.table.status q ≠ .waiting := by
    intro q hq
    rcases ht.status q with he | ⟨hw, -⟩
    · rwa [he]
    · exact absurd hw hq
  refine .exit ?_ ?_ ?_ ⟨?_, ha.parent, ha.pid, ha.marked, ha.making, ha.next, ha.root⟩ ?_ ?_
  · simp [table, Life.status, hrun]
  · rw [hroot]
    exact hne
  · simp [table, Life.making, hfork]
  · intro p
    rcases ht.status p with he | ⟨hw, hl⟩
    · rw [show (_ : Table Slot).status p = a.table.status p from he]
      exact ha.status p
    · rcases ha.status p with he | ⟨-, hl'⟩
      · exact .inr ⟨he ▸ hw, hl⟩
      · rw [hl'] at hw
        cases hw
  · intro q hq
    exact hwoken q (hpar q hq)
  · rintro ⟨p, hp, hd⟩
    rw [hroot]
    refine ht.woken r hia ⟨p, List.mem_finRange p, (ha.parent p).trans hp, ?_⟩
    rcases ha.status p with he | ⟨hw, -⟩
    · exact Life.status_eq_dead.mp (he.trans hd)
    · rw [hd] at hw
      cases hw

/-! ## Every step is a move -/

/-- The step leaves `initproc` alone. -/
theorem waitRound_initproc (s : Kernel n) (c : Fin n) (f : Frame) :
    (s.waitRound c f).initproc = s.initproc := by
  rcases s.waitRound_cases c f with ⟨z, -, he⟩ | ⟨-, he⟩ | ⟨-, he⟩ <;> rw [he] <;> rfl

end Kernel

open Kernel

theorem step_initproc {s' : Kernel n} {l : Label n} (h : step l s = some s') :
    s'.initproc = s.initproc := by
  cases l with
  | acquire c => obtain ⟨-, -, rfl⟩ := step_acquire h; rfl
  | scan c =>
    obtain ⟨i, -, ⟨p, -, -, rfl⟩ | ⟨-, rfl⟩ | ⟨-, rfl⟩⟩ := step_scan h
    · simp [startSlice]
    · simp
    · rfl
  | loop c =>
    obtain ⟨f, -, ⟨-, rfl⟩ | ⟨-, rfl⟩⟩ := step_loop h
    · rfl
    · simp
  | resume c =>
    obtain ⟨f, -, -, rfl | rfl | ⟨-, rfl⟩⟩ := step_resume h
    · rfl
    · rfl
    · exact waitRound_initproc _ c f
  | back c => obtain ⟨f, -, rfl⟩ := step_back h; rfl
  | yield c => obtain ⟨f, -, -, rfl⟩ := step_yield h; rfl
  | sleep c chan => obtain ⟨f, -, -, -, rfl⟩ := step_sleep h; rfl
  | exit c =>
    obtain ⟨f, -, -, -, -, rfl⟩ := step_exit h
    obtain ⟨t, hw, he⟩ := s.exit_cases f.p
    rw [he]
    simp [Kernel.sched, hw.machine]
  | wait c =>
    obtain ⟨f, -, -, -, rfl⟩ := step_wait h
    exact waitRound_initproc s c f
  | kill c pid =>
    obtain ⟨f, -, -, rfl⟩ := step_kill h
    rw [(s.wakes_kill pid).machine]
  | fault c => obtain ⟨f, -, -, rfl⟩ := step_fault h; rfl
  | forkAlloc c =>
    obtain ⟨f, -, -, -, ⟨-, rfl⟩ | ⟨np, -, rfl⟩⟩ := step_forkAlloc h
    · rfl
    · simp [claimSlot_toMachine]
  | forkStack c kalloc =>
    obtain ⟨f, np, -, -, -, rfl⟩ := step_forkStack h
    cases kalloc <;> rfl
  | forkCopy c setupkvm pages =>
    obtain ⟨f, np, -, -, -, rfl⟩ := step_forkCopy h
    split_ifs <;> rfl
  | forkRun c => obtain ⟨f, np, -, -, -, rfl⟩ := step_forkRun h; rfl
  | wakeup chan => obtain ⟨-, rfl⟩ := step_wakeup h; rfl
  | tick => obtain ⟨-, rfl⟩ := step_tick h; rfl

theorem Reached.initproc (h : Reached s) : s.initproc = some 0 :=
  Transition.Reachable.invariant (I := fun s : Kernel n => s.initproc = some 0) h rfl
    fun _ _ _ hi hs => (step_initproc hs).trans hi

/-- A round of `wait` makes the move `waitAct`. -/
theorem Kernel.waitRound_refines {c : Fin n} {f : Frame} (hrun : (s.proc f.p).state = .RUNNING) :
    Family.Step s.table (s.waitAct f.p) (s.waitRound c f).table := by
  have hlive : s.table.status f.p = .live := by simp [table, Life.status, hrun]
  simp only [waitRound, Kernel.wait, waitAct]
  cases hz : s.zombieChild f.p with
  | some z =>
    have hzombie := zombieChild_some hz
    have h := Family.Step.reap (T := s.table) (q := f.p) (p := z) hlive hzombie.1
      (Life.status_eq_dead.mpr hzombie.2)
    simpa [table_reap] using h
  | none =>
    have hnone : ∀ r, s.table.parent r = some f.p → s.table.status r ≠ .dead := by
      intro r hr hd
      have := List.find?_eq_none.mp hz r (List.mem_finRange r)
      exact this (by simpa using ⟨hr, Life.status_eq_dead.mp hd⟩)
    split_ifs with hk
    · exact .rest (.refl _)
    · have h := Family.Step.wait hlive hnone
      have he : (s.modify f.p fun x => { x with
          chan := some (.proc f.p), state := .SLEEPING, context := .wait }).table =
          { s.table with status := update s.table.status f.p .waiting } := by
        rw [table_modify]
        simp [table, Life.status, Life.making]
      simpa [he] using h

/-- A step of a `fork` that has taken a slot. -/
theorem Kernel.forkAct_eq {c : Fin n} {f : Frame} {st : ForkStage} {np : Slot}
    (hc : (s.cpu c).ctl = .running f) (hl : s.lock ≠ some c)
    (hf : (s.proc f.p).forking = some (st, np)) (a : Slot → Slot → Act Slot) :
    s.forkAct c a = a f.p np := by
  simp [forkAct, current, hc, hl, hf]

/-- **Every step of the kernel is a move of the family.** -/
theorem step_refines_family {s' : Kernel n} {l : Label n} (hr : Reached s)
    (h : step l s = some s') : Family.Step s.table (s.act l) s'.table := by
  have hrun : ∀ {c f}, (s.cpu c).ctl = .running f → (s.proc f.p).state = .RUNNING :=
    fun hc => hr.handoff.running _ _ (Handoff.view_phase hc)
  have hrest : ∀ {t : Kernel n}, t.table = s.table → Family.Step s.table .rest t.table :=
    fun he => he ▸ .rest (.refl _)
  cases l with
  | acquire c =>
    obtain ⟨-, -, rfl⟩ := step_acquire h
    exact hrest rfl
  | scan c =>
    obtain ⟨i, -, ⟨p, -, -, rfl⟩ | ⟨-, rfl⟩ | ⟨-, rfl⟩⟩ := step_scan h
    · exact hrest (table_congr (by simp [startSlice]) (by simp [startSlice])
        (by simp [startSlice]))
    · exact hrest (table_congr (by simp) (by simp) (by simp))
    · exact hrest rfl
  | loop c =>
    obtain ⟨f, -, ⟨hg, rfl⟩ | ⟨-, rfl⟩⟩ := step_loop h
    · exact hrest (table_dispatch c hg.1)
    · exact hrest (table_congr (by simp) (by simp) (by simp))
  | resume c =>
    obtain ⟨f, hc, hl, hs⟩ := step_resume h
    by_cases hx : (s.proc f.p).context = .wait
    · have hact : s.act (.resume c) = (s.awake f.p).waitAct f.p := by
        simp [act, hc, hx, waitAct_awake]
      have he : s' = (s.awake f.p).waitRound c f := by
        simpa [step, hc, hl, hx] using h.symm
      rw [hact, he, ← table_awake (hrun hc)]
      exact waitRound_refines (by simpa [awake] using hrun hc)
    · have hact : s.act (.resume c) = .rest := by simp [act, hc, hx]
      rw [hact]
      rcases hs with rfl | rfl | ⟨hw, -⟩
      · exact hrest rfl
      · exact hrest (table_awake (hrun hc))
      · exact absurd hw hx
  | back c =>
    obtain ⟨f, -, rfl⟩ := step_back h
    exact hrest (table_congr (by simp) rfl rfl)
  | yield c =>
    obtain ⟨f, hc, -, rfl⟩ := step_yield h
    exact hrest (table_yield (hrun hc))
  | sleep c chan =>
    obtain ⟨f, hc, -, -, rfl⟩ := step_sleep h
    exact hrest (table_sleep chan (hrun hc))
  | exit c =>
    obtain ⟨f, hc, hl, hf, hi, rfl⟩ := step_exit h
    have hact : s.act (.exit c) = .exit f.p := by simp [act, current, hc, hl]
    rw [hact, table_sched]
    refine exit_refines hr.initproc ?_ (hrun hc) hf
    intro he
    exact hi (he ▸ hr.initproc)
  | wait c =>
    obtain ⟨f, hc, hl, -, rfl⟩ := step_wait h
    have hact : s.act (.wait c) = s.waitAct f.p := by simp [act, current, hc, hl]
    rw [hact]
    exact waitRound_refines (hrun hc)
  | kill c pid =>
    obtain ⟨f, -, -, rfl⟩ := step_kill h
    cases hp : (List.finRange NPROC).find? fun p => (s.proc p).pid = pid with
    | some p =>
      have hact : s.act (.kill c pid) = .mark p := by simp only [act, hp]
      rw [hact, table_kill hp]
      exact .mark p
    | none =>
      have hact : s.act (.kill c pid) = .rest := by simp only [act, hp]
      have hk : (s.kill pid).2 = s := by simp only [Kernel.kill, hp]
      rw [hact, hk]
      exact hrest rfl
  | fault c =>
    obtain ⟨f, hc, hl, rfl⟩ := step_fault h
    have hact : s.act (.fault c) = .mark f.p := by simp [act, current, hc, hl]
    rw [hact, table_fault (hrun hc)]
    exact .mark f.p
  | forkAlloc c =>
    obtain ⟨f, hc, hl, hf, ⟨hn, rfl⟩ | ⟨np, hn, rfl⟩⟩ := step_forkAlloc h
    · have hact : s'.act (.forkAlloc c) = .rest := by simp [act, hn]
      rw [hact]
      exact hrest rfl
    · have hact : s.act (.forkAlloc c) = .claim f.p np := by simp [act, current, hc, hl, hn]
      rw [hact, table_setForking, table_claimSlot]
      refine .claim ?_ ?_ (Life.status_eq_free.mpr (findUnused_some hn))
      · simp [table, Life.status, hrun hc]
      · simp [table, Life.making, hf]
  | forkStack c kalloc =>
    obtain ⟨f, np, hc, hl, hf, rfl⟩ := step_forkStack h
    have hm : s.table.making f.p = some (false, np) := by simp [table, Life.making, hf]
    cases kalloc with
    | true =>
      refine hrest ?_
      rw [table_setForking, giveStack_true, table_modify_eq rfl rfl rfl rfl rfl]
      apply Table.ext <;> simp [← hm]
    | false =>
      have hact : s.act (.forkStack c false) = .fail f.p np := forkAct_eq hc hl hf _
      rw [hact, table_setForking, giveStack_false, table_setState]
      exact .fail hm
  | forkCopy c setupkvm pages =>
    obtain ⟨f, np, hc, hl, hf, rfl⟩ := step_forkCopy h
    have hm : s.table.making f.p = some (false, np) := by simp [table, Life.making, hf]
    by_cases hcopy : copyuvm setupkvm pages = true
    · have hact : s.act (.forkCopy c setupkvm pages) = .adopt f.p np := by
        simp only [act, if_pos hcopy]
        exact forkAct_eq hc hl hf _
      rw [hact, if_pos hcopy, table_setForking, table_copyProc]
      exact .adopt hm
    · have hact : s.act (.forkCopy c setupkvm pages) = .fail f.p np := by
        simp only [act, if_neg hcopy]
        exact forkAct_eq hc hl hf _
      rw [hact, if_neg hcopy, table_setForking, table_setState]
      exact .fail hm
  | forkRun c =>
    obtain ⟨f, np, hc, hl, hf, rfl⟩ := step_forkRun h
    have hm : s.table.making f.p = some (true, np) := by simp [table, Life.making, hf]
    have hact : s.act (.forkRun c) = .bear f.p np := forkAct_eq hc (by simp [hl]) hf _
    rw [hact, table_setForking, table_setState]
    exact .bear hm
  | wakeup chan =>
    obtain ⟨-, rfl⟩ := step_wakeup h
    exact .rest (roused_wakeup1 _ _)
  | tick =>
    obtain ⟨-, rfl⟩ := step_tick h
    exact hrest rfl

/-! ## The invariants of the family -/

theorem table_boot_status (p : Slot) :
    (boot n).table.status p = if p = 0 then .live else .free := by
  by_cases hp : p = 0
  · subst hp
    rfl
  · rw [if_neg hp]
    exact Life.status_eq_free.mpr (by rw [boot_state, if_neg hp])

theorem table_boot_parent (p : Slot) : (boot n).table.parent p = none := by
  by_cases hp : p = 0
  · subst hp
    rfl
  · exact congrArg (fun x : Proc => x.parent) (boot_proc_ne hp)

theorem table_boot_making (p : Slot) : (boot n).table.making p = none := by
  simp [table, Life.making, boot_forking]

theorem table_boot_pid (p : Slot) : (boot n).table.pid p = if p = 0 then 1 else 0 := by
  by_cases hp : p = 0
  · subst hp
    rfl
  · rw [if_neg hp]
    exact congrArg (fun x : Proc => x.pid) (boot_proc_ne hp)

theorem closed_boot : (boot n).table.Closed where
  root_alive := .inl (table_boot_status 0)
  root_parent := table_boot_parent _
  parent_alive p q h := by simp [table_boot_parent] at h
  has_parent p hp h := by
    have hne : p ≠ 0 := hp
    simp [Table.alive, table_boot_status, hne] at h
  no_parent p _ := table_boot_parent p
  maker q b p h := by simp [table_boot_making] at h
  maker_unique q q' b b' p h := by simp [table_boot_making] at h
  irrefl p h := by simp [table_boot_parent] at h
  served p q _ h := by simp [table_boot_parent] at h

theorem named_boot : (boot n).table.Named where
  next_pos := (by decide : (0 : ℤ) < 2)
  pid_lt p := by
    have hnext : (boot n).table.next = 2 := rfl
    rw [table_boot_pid, hnext]
    split_ifs <;> decide
  pid_pos p hp := by
    by_cases h : p = 0
    · simp [table_boot_pid, h]
    · simp [table_boot_status, h] at hp
  pid_inj p q hp hpq := by
    simp only [table_boot_pid] at hp hpq
    split_ifs at hp hpq with h h' <;> simp_all

/-- The two invariants hold together, in every reachable state. -/
theorem Reached.kin (h : Reached s) : s.table.Closed ∧ s.table.Named := by
  refine (Transition.Reachable.invariant
    (I := fun s => Reached s ∧ s.table.Closed ∧ s.table.Named) h
    ⟨.refl _, closed_boot, named_boot⟩ ?_).2
  rintro s l s' ⟨hr, hC, hN⟩ hs
  have hstep := step_refines_family hr hs
  exact ⟨hr.next hs, Family.closed_step hC hstep, Family.named_step hN hC hstep⟩

end Xv6Mlfq
