import Xv6Mlfq.Lib.LockedCode
import Xv6Mlfq.Lib.LinkedQueue
import Mathlib.Data.List.Nodup

/-!
# The queue of disk requests

`ide.c`: `iderw` puts a buffer at the end of `idequeue` and waits until the disk is done with it;
`ideintr` takes the first buffer off the queue and starts the disk on the next one.  Both run under
`idelock`.  The walk to the end of the queue is one step for each buffer.

The disk raises one interrupt for each command, without an error; a handler takes the interrupt
and then waits for `idelock`.  A process may lock and unlock buffers and set the flags of those it
has locked, and calls `iderw` for a buffer that it has locked and that is to be read or written
(else `iderw` panics).  The blocks are on the disk, so that `idestart` does not panic.

## Main definitions

* `Driver` — `idequeue`, the buffers and the disk, with what was asked for, started and completed.
* `Code`, `act` — the code of the two functions.

## Main results

* `requests_served` — every request is served once, in order, before `iderw` returns.
-/

namespace Xv6Mlfq.Ide

open Function (update update_self update_of_ne)
open LockedCode (Act Label State Outline Holds)
open LinkedQueue (Chain)
open Transition (Reachable exec)

/-- The disk: it has no command; it works on one; it has raised the interrupt; the handler `p` has
taken the interrupt. -/
inductive Disk (P B : Type)
  | idle
  | busy (b : B)
  | raised (b : B)
  | taken (b : B) (p : P)

/-- The command that was started last and whose interrupt has not been handled. -/
def Disk.command {P B : Type} : Disk P B → Option B
  | .idle => none
  | .busy b | .raised b | .taken b _ => some b

structure Driver (P B : Type) where
  idequeue : Option B
  qnext : B → Option B
  /-- `B_VALID` -/
  valid : B → Bool
  /-- `B_DIRTY` -/
  dirty : B → Bool
  /-- who has `b->lock` -/
  holder : B → Option P
  disk : Disk P B
  /-- History: the queue, and the buffers that `iderw` was called with, that were appended to the
  queue, that were started, and that were taken off it. -/
  queue : List B
  calls : List B
  appended : List B
  started : List B
  completed : List B
  /-- History: the process that is in `iderw` with a buffer. -/
  waiter : B → Option P
  /-- History: the buffer whose flags `ideintr` is about to set. -/
  handling : Option B

inductive Call (B : Type)
  | lock (b : B)
  | unlock (b : B)
  | setFlags (b : B) (valid dirty : Bool)
  | iderw (b : B)
  | ideintr

/-- Where a process is. -/
inductive Code (B : Type)
  | rw (b : B)
  /-- the loop to the end of the queue; `pp` is `&idequeue` or `&x->qnext` -/
  | append (b : B) (pp : Option B)
  /-- start the disk if necessary -/
  | check (b : B)
  | wait (b : B)
  | intr
  | intrData (b : B)
  | intrWake (b : B)
  | intrNext
  | intrRet
  deriving DecidableEq

variable {P B : Type} [DecidableEq P] [DecidableEq B]

/-- `(b->flags & (B_VALID|B_DIRTY)) == B_VALID` -/
def Driver.done (d : Driver P B) (b : B) : Bool := d.valid b && !d.dirty b

def Driver.idestart (d : Driver P B) (b : B) : Driver P B :=
  { d with disk := .busy b, started := d.started ++ [b] }

/-- `*pp` -/
def Driver.deref (d : Driver P B) : Option B → Option B
  | none => d.idequeue
  | some x => d.qnext x

/-- `*pp = b` -/
def Driver.link (d : Driver P B) (pp : Option B) (b : B) : Driver P B :=
  let d' := { d with queue := d.queue ++ [b], appended := d.appended ++ [b] }
  match pp with
  | none => { d' with idequeue := some b }
  | some x => { d' with qnext := update d.qnext x (some b) }

/-- `idequeue = b->qnext` -/
def Driver.unlink (d : Driver P B) (b : B) : Driver P B :=
  { d with
    idequeue := d.qnext b
    disk := .idle
    queue := d.queue.tail
    completed := d.completed ++ [b]
    handling := some b }

/-- `b->flags |= B_VALID; b->flags &= ~B_DIRTY` -/
def Driver.finish (d : Driver P B) (b : B) : Driver P B :=
  { d with
    valid := update d.valid b true
    dirty := update d.dirty b false
    handling := none }

/-- What a process does next, with `idelock`. -/
def act (_ : P) (k : Code B) (_ : Bool) (d : Driver P B) : Act (Code B) B (Driver P B) Unit :=
  match k with
  | .rw b => .goto (.append b none) { d with qnext := update d.qnext b none }
  | .append b pp =>
    match d.deref pp with
    | some x => .goto (.append b (some x)) d
    | none => .goto (.check b) (d.link pp b)
  | .check b => .goto (.wait b) (if d.idequeue = some b then d.idestart b else d)
  | .wait b =>
    if d.done b then .ret () { d with waiter := update d.waiter b none } else .sleep b (.wait b)
  | .intr =>
    match d.idequeue with
    | none => .ret () d
    | some b => .goto (.intrData b) (d.unlink b)
  | .intrData b => .goto (.intrWake b) (d.finish b)
  | .intrWake b => .wake b .intrNext
  | .intrNext => .goto .intrRet (match d.idequeue with | some b => d.idestart b | none => d)
  | .intrRet => .ret () d

/-- A call, up to `acquire(&idelock)`. -/
def start (p : P) (l : Call B) (d : Driver P B) : Option (Option (Code B) × Driver P B) :=
  match l with
  | .lock b =>
    if d.holder b = none then some (none, { d with holder := update d.holder b (some p) })
    else none
  | .unlock b =>
    if d.holder b = some p then some (none, { d with holder := update d.holder b none })
    else none
  | .setFlags b valid dirty =>
    if d.holder b = some p then
      some (none, { d with valid := update d.valid b valid, dirty := update d.dirty b dirty })
    else none
  | .iderw b =>
    if d.holder b = some p ∧ d.done b = false then
      some (some (.rw b),
        { d with waiter := update d.waiter b (some p), calls := d.calls ++ [b] })
    else none
  | .ideintr =>
    match d.disk with
    | .raised b => some (some .intr, { d with disk := .taken b p })
    | _ => none

/-- The disk is done with its command and raises the interrupt. -/
def raise (d : Driver P B) : Option (Driver P B) :=
  match d.disk with
  | .busy b => some { d with disk := .raised b }
  | _ => none

def code : LockedCode.Code P (Call B) Unit (Code B) B (Driver P B) Unit where
  start := start
  act := act
  env _ := raise

abbrev ideStep : Label P (Call B) Unit → State P (Code B) B (Driver P B) →
    Option (State P (Code B) B (Driver P B)) := code.step

/-- After boot the queue is empty and no buffer is in use. -/
def boot : State P (Code B) B (Driver P B) where
  data :=
    { idequeue := none
      qnext := fun _ => none
      valid := fun _ => false
      dirty := fun _ => false
      holder := fun _ => none
      disk := .idle
      queue := []
      calls := []
      appended := []
      started := []
      completed := []
      waiter := fun _ => none
      handling := none }
  lock := none
  table := none
  place _ := .idle
  killed _ := false

/-! ## Assertions -/

section Assertions

omit [DecidableEq P]

/-- So many calls of `iderw` with this buffer have not appended it yet. -/
def Asked (b : B) (n : Nat) (d : Driver P B) : Prop := d.calls.count b = d.appended.count b + n

/-- The assertion of all times. -/
structure Steady (d : Driver P B) : Prop where
  chain : Chain d.qnext d.idequeue d.queue
  nodup : d.queue.Nodup
  books : d.appended = d.completed ++ d.queue
  queued : ∀ {b}, b ∈ d.queue → (∃ p, d.waiter b = some p) ∧ d.done b = false
  handled : ∀ {b}, d.handling = some b →
    (∃ p, d.waiter b = some p) ∧ d.done b = false ∧ b ∉ d.queue
  owner : ∀ {b p}, d.waiter b = some p → d.holder b = some p
  settled : ∀ {b}, d.waiter b = none → Asked b 0 d
  starts : d.started = d.completed ++ d.disk.command.toList
  head : ∀ {b}, d.disk.command = some b → d.queue.head? = some b

/-- The assertion while `idelock` is free. -/
structure Free (d : Driver P B) : Prop where
  busy : d.queue ≠ [] → d.disk.command ≠ none
  handling : d.handling = none

/-- The process is in `iderw` with this buffer and no other. -/
def Busy (p : P) (b : B) (d : Driver P B) : Prop := ∀ c, d.waiter c = some p ↔ c = b

/-- The process is not in `iderw`. -/
def Out (p : P) (d : Driver P B) : Prop := ∀ c, d.waiter c ≠ some p

/-- A buffer that is not in the queue yet. -/
structure Fresh (b : B) (d : Driver P B) : Prop where
  notMem : b ∉ d.queue
  undone : d.done b = false
  handling : d.handling ≠ some b
  asked : Asked b 1 d

/-- The assertion of a process with `idelock`. -/
def Inside (p : P) (k : Code B) (d : Driver P B) : Prop :=
  match k with
  | .rw b => Busy p b d ∧ Fresh b d ∧ Free d
  | .append b pp =>
    Busy p b d ∧ Fresh b d ∧ Free d ∧ d.qnext b = none ∧ ∀ x, pp = some x → x ∈ d.queue
  | .check b =>
    Busy p b d ∧ Asked b 0 d ∧ d.handling = none ∧
      (d.queue = [b] ∧ d.disk.command = none ∨
        d.queue.head? ≠ some b ∧ d.disk.command ≠ none)
  | .wait b => Busy p b d ∧ Asked b 0 d ∧ Free d
  | .intr => Out p d ∧ d.handling = none ∧ ∃ b, d.disk = .taken b p
  | .intrData b => Out p d ∧ d.disk = .idle ∧ d.handling = some b
  | .intrWake _ | .intrNext => Out p d ∧ d.disk = .idle ∧ d.handling = none
  | .intrRet => Out p d ∧ Free d

/-- The assertion of a process without `idelock`. -/
def Outside (p : P) (o : Option (Code B)) (d : Driver P B) : Prop :=
  match o with
  | none => Out p d
  | some (.rw b) => Busy p b d ∧ Fresh b d
  | some (.wait b) => Busy p b d ∧ Asked b 0 d
  | some .intr => Out p d ∧ ∃ b, d.disk = .taken b p
  | some _ => False

/-- A change that the process `q` does not mind while it is without `idelock`. -/
structure Keeps (q : P) (d d' : Driver P B) : Prop where
  waiter : ∀ b, d'.waiter b = some q ↔ d.waiter b = some q
  fresh : ∀ {b}, d.waiter b = some q → Fresh b d → Fresh b d'
  taken : ∀ {b}, d.disk = .taken b q → d'.disk = .taken b q
  asked : ∀ {b}, d.waiter b = some q → Asked b 0 d → Asked b 0 d'

theorem Keeps.refl (q : P) (d : Driver P B) : Keeps q d d :=
  ⟨fun _ => Iff.rfl, fun _ => id, id, fun _ => id⟩

variable {q : P} {d d' : Driver P B}

theorem Keeps.busy {b : B} (h : Keeps q d d') (hb : Busy q b d) : Busy q b d' :=
  fun c => (h.waiter c).trans (hb c)

theorem Keeps.out (h : Keeps q d d') (hb : Out q d) : Out q d' :=
  fun c hc => hb c ((h.waiter c).mp hc)

theorem Keeps.outside {o : Option (Code B)} (h : Keeps q d d')
    (ho : Outside q o d) : Outside q o d' := by
  match o, ho with
  | none, ho => exact h.out ho
  | some (.rw b), ⟨hb, hf⟩ => exact ⟨h.busy hb, h.fresh ((hb b).mpr rfl) hf⟩
  | some (.wait b), ⟨hb, ha⟩ => exact ⟨h.busy hb, h.asked ((hb b).mpr rfl) ha⟩
  | some .intr, ⟨hout, b, hd⟩ => exact ⟨h.out hout, b, h.taken hd⟩

/-- What the others see only with `idelock` is unchanged. -/
structure Same (d d' : Driver P B) : Prop where
  idequeue : d'.idequeue = d.idequeue
  qnext : d'.qnext = d.qnext
  queue : d'.queue = d.queue
  handling : d'.handling = d.handling
  command : d'.disk.command = d.disk.command

omit [DecidableEq B] in
theorem Disk.eq_idle {x : Disk P B} : x.command = none ↔ x = .idle := by
  cases x <;> simp [Disk.command]

omit [DecidableEq B] in
theorem Same.free (h : Same d d') (hf : Free d) : Free d' := by
  refine ⟨fun hq => ?_, h.handling.trans hf.handling⟩
  rw [h.command]
  exact hf.busy (h.queue ▸ hq)

omit [DecidableEq B] in
theorem Same.idle (h : Same d d') (hd : d.disk = .idle) : d'.disk = .idle := by
  rw [← Disk.eq_idle, h.command, hd]
  rfl

theorem Keeps.inside {k : Code B} (h : Keeps q d d') (hs : Same d d')
    (hA : Inside q k d) : Inside q k d' := by
  cases k with
  | rw b =>
    obtain ⟨hb, hf, hfree⟩ := hA
    exact ⟨h.busy hb, h.fresh ((hb b).mpr rfl) hf, hs.free hfree⟩
  | append b pp =>
    obtain ⟨hb, hf, hfree, hn, hpp⟩ := hA
    refine ⟨h.busy hb, h.fresh ((hb b).mpr rfl) hf, hs.free hfree, ?_, ?_⟩
    · rw [hs.qnext, hn]
    · rw [hs.queue]
      exact hpp
  | check b =>
    obtain ⟨hb, ha, hh, hc⟩ := hA
    refine ⟨h.busy hb, h.asked ((hb b).mpr rfl) ha, hs.handling.trans hh, ?_⟩
    rw [hs.queue, hs.command]
    exact hc
  | wait b =>
    obtain ⟨hb, ha, hfree⟩ := hA
    exact ⟨h.busy hb, h.asked ((hb b).mpr rfl) ha, hs.free hfree⟩
  | intr =>
    obtain ⟨hout, hh, b, hb⟩ := hA
    exact ⟨h.out hout, hs.handling.trans hh, b, h.taken hb⟩
  | intrData b =>
    obtain ⟨hout, hd, hh⟩ := hA
    exact ⟨h.out hout, hs.idle hd, hs.handling.trans hh⟩
  | intrWake b =>
    obtain ⟨hout, hd, hh⟩ := hA
    exact ⟨h.out hout, hs.idle hd, hs.handling.trans hh⟩
  | intrNext =>
    obtain ⟨hout, hd, hh⟩ := hA
    exact ⟨h.out hout, hs.idle hd, hs.handling.trans hh⟩
  | intrRet => exact ⟨h.out hA.1, hs.free hA.2⟩

/-- Nobody is in `iderw` with a buffer that a process outside has locked. -/
theorem Steady.waiter_eq_none {p : P} {b : B} (h : Steady d) (hout : Out p d)
    (hb : d.holder b = some p) : d.waiter b = none := by
  cases hw : d.waiter b with
  | none => rfl
  | some q =>
    have hq := h.owner hw
    rw [hb] at hq
    cases hq
    exact absurd hw (hout b)

/-- So the disk has nothing to do with it. -/
theorem Steady.untouched {b : B} (h : Steady d) (hb : d.waiter b = none) :
    b ∉ d.queue ∧ d.handling ≠ some b := by
  refine ⟨fun hm => ?_, fun hh => ?_⟩
  · obtain ⟨⟨p, hp⟩, -⟩ := h.queued hm
    rw [hb] at hp
    cases hp
  · obtain ⟨⟨p, hp⟩, -⟩ := h.handled hh
    rw [hb] at hp
    cases hp

end Assertions

/-! ## What calls do before they take `idelock` -/

/-- A call outside `idelock`. -/
structure Starts (p : P) (d : Driver P B) (o : Option (Code B)) (d' : Driver P B) : Prop where
  steady : Steady d'
  keeps : ∀ q, q ≠ p → Keeps q d d'
  same : Same d d'
  outside : Outside p o d'

variable {p : P} {d d' : Driver P B} {b : B}

omit [DecidableEq P] in
theorem starts_lock (h : Steady d) (hout : Out p d) (hb : d.holder b = none) :
    Starts p d none { d with holder := update d.holder b (some p) } where
  steady := by
    refine { h with owner := fun {c q} hc => ?_ }
    have hcb : c ≠ b := by
      rintro rfl
      rw [h.owner hc] at hb
      cases hb
    exact (update_of_ne hcb _ _).trans (h.owner hc)
  keeps _ _ := ⟨fun _ => Iff.rfl, fun _ hf => ⟨hf.notMem, hf.undone, hf.handling, hf.asked⟩, id,
    fun _ => id⟩
  same := ⟨rfl, rfl, rfl, rfl, rfl⟩
  outside := hout

omit [DecidableEq P] in
theorem starts_unlock (h : Steady d) (hout : Out p d) (hb : d.holder b = some p) :
    Starts p d none { d with holder := update d.holder b none } where
  steady := by
    refine { h with owner := fun {c q} hc => ?_ }
    have hcb : c ≠ b := by
      rintro rfl
      cases (h.waiter_eq_none hout hb).symm.trans hc
    exact (update_of_ne hcb _ _).trans (h.owner hc)
  keeps _ _ := ⟨fun _ => Iff.rfl, fun _ hf => ⟨hf.notMem, hf.undone, hf.handling, hf.asked⟩, id,
    fun _ => id⟩
  same := ⟨rfl, rfl, rfl, rfl, rfl⟩
  outside := hout

omit [DecidableEq P] in
theorem done_setFlags {c : B} {v w : Bool} (hcb : c ≠ b) :
    Driver.done { d with valid := update d.valid b v, dirty := update d.dirty b w } c =
      d.done c := by
  simp [Driver.done, hcb]

omit [DecidableEq P] in
theorem starts_setFlags {v w : Bool} (h : Steady d) (hout : Out p d) (hb : d.holder b = some p) :
    Starts p d none
      { d with valid := update d.valid b v, dirty := update d.dirty b w } := by
  have hnone := h.waiter_eq_none hout hb
  obtain ⟨hmem, hhand⟩ := h.untouched hnone
  refine ⟨{ h with queued := fun {c} hc => ?_, handled := fun {c} hc => ?_ }, fun q hq =>
    ⟨fun _ => Iff.rfl, fun {c} hw hf => ⟨hf.notMem, ?_, hf.handling, hf.asked⟩, id, fun _ => id⟩,
    ⟨rfl, rfl, rfl, rfl, rfl⟩, hout⟩
  · have hcb : c ≠ b := fun he => hmem (he ▸ hc)
    exact ⟨(h.queued hc).1, (done_setFlags hcb).trans (h.queued hc).2⟩
  · have hcb : c ≠ b := fun he => hhand (he ▸ hc)
    obtain ⟨hw, hd, hm⟩ := h.handled hc
    exact ⟨hw, (done_setFlags hcb).trans hd, hm⟩
  · have hcb : c ≠ b := by
      rintro rfl
      rw [hnone] at hw
      cases hw
    exact (done_setFlags hcb).trans hf.undone

omit [DecidableEq P] in
theorem asked_call {w : B → Option P} {c : B} {n : Nat} (hcb : c ≠ b)
    (h : Asked c n d) : Asked c n { d with waiter := w, calls := d.calls ++ [b] } := by
  have hcount : (d.calls ++ [b]).count c = d.calls.count c := by simp [hcb.symm]
  exact hcount.trans h

omit [DecidableEq P] in
theorem starts_iderw (h : Steady d) (hout : Out p d)
    (hb : d.holder b = some p) (hd : d.done b = false) :
    Starts p d (some (.rw b))
      { d with waiter := update d.waiter b (some p), calls := d.calls ++ [b] } := by
  have hnone := h.waiter_eq_none hout hb
  obtain ⟨hmem, hhand⟩ := h.untouched hnone
  have hw : ∀ {c}, c ≠ b → update d.waiter b (some p) c = d.waiter c :=
    fun hc => update_of_ne hc _ _
  have hne : ∀ {q c}, d.waiter c = some q → c ≠ b := by
    rintro q _ hc rfl
    cases hnone.symm.trans hc
  constructor
  case steady =>
    refine { h with
      queued := fun {c} hc => ?_, handled := fun {c} hc => ?_, owner := fun {c q} hc => ?_,
      settled := fun {c} hc => ?_ }
    · have hcb : c ≠ b := fun he => hmem (he ▸ hc)
      obtain ⟨⟨r, hr⟩, hu⟩ := h.queued hc
      exact ⟨⟨r, (hw hcb).trans hr⟩, hu⟩
    · have hcb : c ≠ b := fun he => hhand (he ▸ hc)
      obtain ⟨⟨r, hr⟩, hu⟩ := h.handled hc
      exact ⟨⟨r, (hw hcb).trans hr⟩, hu⟩
    · by_cases hcb : c = b
      · subst hcb
        have hqp : some p = some q := (update_self c (some p) d.waiter).symm.trans hc
        rw [← hqp]
        exact hb
      · exact h.owner ((hw hcb).symm.trans hc)
    · have hcb : c ≠ b := by
        rintro rfl
        cases (update_self c (some p) d.waiter).symm.trans hc
      exact asked_call hcb (h.settled ((hw hcb).symm.trans hc))
  case keeps =>
    intro q hq
    refine ⟨fun c => ?_, fun {c} hc hf => ?_, id, fun hc => asked_call (hne hc)⟩
    · by_cases hcb : c = b
      · subst hcb
        simp [hnone, hq.symm]
      · simp [hcb]
    · exact ⟨hf.notMem, hf.undone, hf.handling, asked_call (hne hc) hf.asked⟩
  case same => exact ⟨rfl, rfl, rfl, rfl, rfl⟩
  case outside =>
    refine ⟨fun c => ?_, hmem, hd, hhand, ?_⟩
    · by_cases hcb : c = b
      · simp [hcb]
      · simp [hcb, hout c]
    · have hcount : (d.calls ++ [b]).count b = d.calls.count b + 1 := by simp
      exact hcount.trans (congrArg (· + 1) (h.settled hnone))

omit [DecidableEq P] in
theorem starts_ideintr (h : Steady d) (hout : Out p d)
    (hb : d.disk = .raised b) : Starts p d (some .intr) { d with disk := .taken b p } where
  steady := by
    refine { h with starts := ?_, head := fun {c} hc => h.head ?_ }
    · rw [h.starts, hb]
      rfl
    · rw [hb]
      exact hc
  keeps _ _ := by
    refine ⟨fun _ => Iff.rfl, fun _ hf => ⟨hf.notMem, hf.undone, hf.handling, hf.asked⟩,
      fun hc => ?_, fun _ => id⟩
    rw [hb] at hc
    cases hc
  same := ⟨rfl, rfl, rfl, rfl, by rw [hb]; rfl⟩
  outside := ⟨hout, b, rfl⟩

theorem starts {l : Call B} {o : Option (Code B)} (h : Steady d)
    (hout : Out p d) (hs : start p l d = some (o, d')) : Starts p d o d' := by
  cases l with
  | lock b =>
    rw [start] at hs
    split_ifs at hs with hb
    cases hs
    exact starts_lock h hout hb
  | unlock b =>
    rw [start] at hs
    split_ifs at hs with hb
    cases hs
    exact starts_unlock h hout hb
  | setFlags b v w =>
    rw [start] at hs
    split_ifs at hs with hb
    cases hs
    exact starts_setFlags h hout hb
  | iderw b =>
    rw [start] at hs
    split_ifs at hs with hb
    cases hs
    exact starts_iderw h hout hb.1 hb.2
  | ideintr =>
    simp only [start] at hs
    split at hs
    next b hb =>
      cases hs
      exact starts_ideintr h hout hb
    next => cases hs

/-! ## What they do with it -/

/-- A step inside. -/
structure Goes (p : P) (d : Driver P B) (k : Code B) (d' : Driver P B) : Prop where
  steady : Steady d'
  inside : Inside p k d'
  keeps : ∀ q, q ≠ p → Keeps q d d'

omit [DecidableEq P] in
theorem Steady.idequeue_eq (h : Steady d) : d.idequeue = d.queue.head? :=
  h.chain.eq_head

omit [DecidableEq P] in
theorem Steady.idestart (h : Steady d) (hc : d.disk.command = none)
    (hb : d.queue.head? = some b) : Steady (d.idestart b) := by
  refine { h with starts := ?_, head := fun {c} hcmd => ?_ }
  · show d.started ++ [b] = d.completed ++ [b]
    rw [h.starts, hc, Option.toList_none, List.append_nil]
  · rw [← hcmd]
    exact hb

omit [DecidableEq P] in
theorem keeps_idestart (q : P) (b : B) (hc : d.disk.command = none) : Keeps q d (d.idestart b) := by
  refine ⟨fun _ => Iff.rfl, fun _ hf => ⟨hf.notMem, hf.undone, hf.handling, hf.asked⟩,
    fun ht => ?_, fun _ => id⟩
  rw [ht] at hc
  cases hc

omit [DecidableEq P] in
theorem goes_rw (h : Steady d) (hA : Inside p (.rw b) d) :
    Goes p d (.append b none) { d with qnext := update d.qnext b none } := by
  obtain ⟨hb, hf, hfree⟩ := hA
  refine ⟨{ h with chain := h.chain.update_of_notMem hf.notMem }, ⟨hb, ⟨hf.notMem, hf.undone,
    hf.handling, hf.asked⟩, ⟨hfree.busy, hfree.handling⟩, update_self .., nofun⟩,
    fun _ _ => ⟨fun _ => Iff.rfl,
    fun _ hf => ⟨hf.notMem, hf.undone, hf.handling, hf.asked⟩, id, fun _ => id⟩⟩

omit [DecidableEq P] in
theorem goes_walk {x : B} {pp : Option B} (h : Steady d)
    (hA : Inside p (.append b pp) d) (hx : d.deref pp = some x) :
    Goes p d (.append b (some x)) d := by
  obtain ⟨hb, hf, hfree, hn, hpp⟩ := hA
  refine ⟨h, ⟨hb, hf, hfree, hn, fun y hy => ?_⟩, fun q _ => .refl q d⟩
  cases hy
  cases pp with
  | none =>
    refine List.mem_of_head? ?_
    rw [← h.idequeue_eq]
    exact hx
  | some y => exact h.chain.mem_next (hpp y rfl) hx

omit [DecidableEq P] in
theorem chain_link {pp : Option B} (h : Steady d)
    (hA : Inside p (.append b pp) d) (hx : d.deref pp = none) :
    Chain (d.link pp b).qnext (d.link pp b).idequeue (d.queue ++ [b]) := by
  obtain ⟨-, hf, -, hn, hpp⟩ := hA
  cases pp with
  | none =>
    have hempty : d.queue = [] := by
      have hq : d.queue.head? = none := h.idequeue_eq.symm.trans hx
      exact List.head?_eq_none_iff.mp hq
    rw [hempty]
    exact ⟨rfl, hn⟩
  | some x => exact h.chain.concat (hpp x rfl) hx hf.notMem hn

omit [DecidableEq P] in
theorem goes_link {pp : Option B} (h : Steady d)
    (hA : Inside p (.append b pp) d) (hx : d.deref pp = none) :
    Goes p d (.check b) (d.link pp b) := by
  have hchain := chain_link h hA hx
  obtain ⟨hb, hf, hfree, hn, hpp⟩ := hA
  have hwb : d.waiter b = some p := (hb b).mpr rfl
  -- the rest does not depend on where the buffer is linked in
  have hfields : (d.link pp b).queue = d.queue ++ [b] ∧ (d.link pp b).appended = d.appended ++ [b] ∧
      (d.link pp b).waiter = d.waiter ∧ (d.link pp b).done = d.done ∧
      (d.link pp b).handling = d.handling ∧ (d.link pp b).holder = d.holder ∧
      (d.link pp b).started = d.started ∧ (d.link pp b).completed = d.completed ∧
      (d.link pp b).disk = d.disk ∧ (d.link pp b).calls = d.calls := by
    cases pp <;> exact ⟨rfl, rfl, rfl, rfl, rfl, rfl, rfl, rfl, rfl, rfl⟩
  generalize d.link pp b = d' at hchain hfields ⊢
  obtain ⟨hqueue, happ, hwait, hdone, hhand, hhold, hstart, hcomp, hdisk, hcalls⟩ := hfields
  have hasked : ∀ {c n}, c ≠ b → Asked c n d → Asked c n d' := by
    intro c n hcb ha
    have hcount : (d.appended ++ [b]).count c = d.appended.count c := by simp [hcb.symm]
    rw [Asked, hcalls, happ, hcount]
    exact ha
  have hhead : ∀ {c}, d.queue.head? = some c → (d.queue ++ [b]).head? = some c := by
    intro c hc
    rw [List.head?_append, hc]
    rfl
  constructor
  case steady =>
    constructor
    case chain => rwa [hqueue]
    case nodup =>
      rw [hqueue, ← List.concat_eq_append]
      exact h.nodup.concat hf.notMem
    case books => rw [happ, hcomp, hqueue, h.books, List.append_assoc]
    case queued =>
      intro c hc
      rw [hwait, hdone]
      rw [hqueue] at hc
      rcases List.mem_append.mp hc with hc | hc
      · exact h.queued hc
      · rw [List.mem_singleton.mp hc]
        exact ⟨⟨p, hwb⟩, hf.undone⟩
    case handled =>
      intro c hc
      rw [hhand, hfree.handling] at hc
      cases hc
    case owner =>
      intro c q hc
      rw [hhold]
      rw [hwait] at hc
      exact h.owner hc
    case settled =>
      intro c hc
      rw [hwait] at hc
      refine hasked ?_ (h.settled hc)
      rintro rfl
      cases hc.symm.trans hwb
    case starts => rw [hstart, hcomp, hdisk, h.starts]
    case head =>
      intro c hc
      rw [hdisk] at hc
      rw [hqueue]
      exact hhead (h.head hc)
  case inside =>
    refine ⟨fun c => by rw [hwait]; exact hb c, ?_, hhand.trans hfree.handling, ?_⟩
    · have hcount : (d.appended ++ [b]).count b = d.appended.count b + 1 := by simp
      rw [Asked, hcalls, happ, hcount]
      exact hf.asked
    rw [hqueue, hdisk]
    cases hq : d.queue with
    | nil =>
      refine .inl ⟨rfl, ?_⟩
      cases hc : d.disk.command with
      | none => rfl
      | some c =>
        have := h.head hc
        rw [hq] at this
        cases this
    | cons x xs =>
      refine .inr ⟨?_, hfree.busy (by rw [hq]; exact List.cons_ne_nil x xs)⟩
      rw [List.cons_append, List.head?_cons]
      intro hxb
      apply hf.notMem
      rw [hq, ← Option.some.inj hxb]
      exact List.mem_cons_self
  case keeps =>
    intro q hq
    have hne : ∀ {c}, d.waiter c = some q → c ≠ b := by
      rintro _ hw rfl
      rw [hwb] at hw
      exact hq (Option.some.inj hw).symm
    refine ⟨fun c => by rw [hwait], fun {c} hw hfc => ?_, fun ht => hdisk.trans ht,
      fun hw => hasked (hne hw)⟩
    have hcb := hne hw
    refine ⟨?_, by rw [hdone]; exact hfc.undone, by rw [hhand]; exact hfc.handling,
      hasked hcb hfc.asked⟩
    rw [hqueue]
    intro hc
    rcases List.mem_append.mp hc with hc | hc
    · exact hfc.notMem hc
    · exact hcb (List.mem_singleton.mp hc)

omit [DecidableEq P] in
theorem goes_check (h : Steady d) (hA : Inside p (.check b) d) :
    Goes p d (.wait b) (if d.idequeue = some b then d.idestart b else d) := by
  obtain ⟨hb, ha, hh, hc⟩ := hA
  have hid := h.idequeue_eq
  by_cases hq : d.idequeue = some b
  · rw [if_pos hq]
    have hhead : d.queue.head? = some b := hid.symm.trans hq
    have hcmd : d.disk.command = none := by
      rcases hc with ⟨-, hc⟩ | ⟨hne, -⟩
      · exact hc
      · exact absurd hhead hne
    exact ⟨h.idestart hcmd hhead, ⟨hb, ha, fun _ => nofun, hh⟩, fun q _ => keeps_idestart q b hcmd⟩
  · rw [if_neg hq]
    have hcmd : d.disk.command ≠ none := by
      rcases hc with ⟨hone, -⟩ | ⟨-, hc⟩
      · rw [hone] at hid
        exact absurd hid hq
      · exact hc
    exact ⟨h, ⟨hb, ha, fun _ => hcmd, hh⟩, fun q _ => .refl q d⟩

omit [DecidableEq P] in
/-- The interrupt is for the first buffer of the queue. -/
theorem queue_of_intr (h : Steady d) (hA : Inside p .intr d) :
    ∃ b rest, d.disk = .taken b p ∧ d.queue = b :: rest ∧ d.idequeue = some b := by
  obtain ⟨-, -, b, hb⟩ := hA
  have hhead : d.queue.head? = some b := h.head (by rw [hb]; rfl)
  obtain ⟨rest, hrest⟩ := List.head?_eq_some_iff.mp hhead
  exact ⟨b, rest, hb, hrest, h.idequeue_eq.trans hhead⟩

omit [DecidableEq P] in
theorem goes_intr (h : Steady d) (hA : Inside p .intr d)
    (hq : d.idequeue = some b) : Goes p d (.intrData b) (d.unlink b) := by
  obtain ⟨b', rest, hdisk, hqueue, hid⟩ := queue_of_intr h hA
  cases hid.symm.trans hq
  have hchain := h.chain
  have hnodup := h.nodup
  rw [hqueue] at hchain hnodup
  have hmem : b ∈ d.queue := by
    rw [hqueue]
    exact List.mem_cons_self
  have htail : d.queue.tail = rest := by rw [hqueue, List.tail_cons]
  have hsub : ∀ {c}, c ∈ d.queue.tail → c ∈ d.queue := List.mem_of_mem_tail
  constructor
  case steady =>
    constructor
    case chain =>
      show Chain d.qnext (d.qnext b) d.queue.tail
      rw [htail]
      exact hchain.2
    case nodup => exact h.nodup.tail
    case books =>
      show d.appended = d.completed ++ [b] ++ d.queue.tail
      rw [h.books, hqueue, List.append_assoc]
      rfl
    case queued => exact fun hc => h.queued (hsub hc)
    case handled =>
      intro c hc
      cases hc
      refine ⟨(h.queued hmem).1, (h.queued hmem).2, ?_⟩
      show b ∉ d.queue.tail
      rw [htail]
      exact (List.nodup_cons.mp hnodup).1
    case owner => exact h.owner
    case settled => exact h.settled
    case starts =>
      show d.started = d.completed ++ [b] ++ []
      rw [h.starts, hdisk, List.append_nil]
      rfl
    case head => exact nofun
  case inside => exact ⟨hA.1, rfl, rfl⟩
  case keeps =>
    intro q hne
    refine ⟨fun _ => Iff.rfl, fun {c} _ hf => ⟨fun hc => hf.notMem (hsub hc), hf.undone,
      ?_, hf.asked⟩, ?_, fun _ => id⟩
    · intro hc
      cases hc
      exact hf.notMem hmem
    · intro c ht
      rw [hdisk] at ht
      cases ht
      exact absurd rfl hne

omit [DecidableEq P] in
theorem done_finish {c : B} (hcb : c ≠ b) : (d.finish b).done c = d.done c := by
  simp [Driver.done, Driver.finish, hcb]

omit [DecidableEq P] in
theorem goes_finish (h : Steady d)
    (hA : Inside p (.intrData b) d) : Goes p d (.intrWake b) (d.finish b) := by
  obtain ⟨hout, hdisk, hh⟩ := hA
  obtain ⟨-, -, hmem⟩ := h.handled hh
  refine ⟨{ h with queued := fun {c} hc => ?_, handled := nofun }, ⟨hout, hdisk, rfl⟩,
    fun _ _ => ⟨fun _ => Iff.rfl, fun {c} _ hf => ⟨hf.notMem, ?_, nofun, hf.asked⟩,
    id, fun _ => id⟩⟩
  · have hcb : c ≠ b := fun he => hmem (he ▸ hc)
    exact ⟨(h.queued hc).1, (done_finish hcb).trans (h.queued hc).2⟩
  · have hcb : c ≠ b := fun he => hf.handling (he ▸ hh)
    exact (done_finish hcb).trans hf.undone

omit [DecidableEq P] in
theorem goes_next (h : Steady d) (hA : Inside p .intrNext d) :
    Goes p d .intrRet (match d.idequeue with | some b => d.idestart b | none => d) := by
  obtain ⟨hout, hdisk, hh⟩ := hA
  have hid := h.idequeue_eq
  have hcmd : d.disk.command = none := Disk.eq_idle.mpr hdisk
  cases hq : d.idequeue with
  | none =>
    refine ⟨h, ⟨hout, fun hne => absurd ?_ hne, hh⟩, fun q _ => .refl q d⟩
    exact List.head?_eq_none_iff.mp (hid.symm.trans hq)
  | some b =>
    exact ⟨h.idestart hcmd (hid.symm.trans hq), ⟨hout, fun _ => nofun, hh⟩,
      fun q _ => keeps_idestart q b hcmd⟩

/-- What `iderw` leaves. -/
structure Leaves (p : P) (d d' : Driver P B) : Prop where
  steady : Steady d'
  free : Free d'
  out : Out p d'
  keeps : ∀ q, q ≠ p → Keeps q d d'

omit [DecidableEq P] in
theorem leaves_wait (h : Steady d) (hA : Inside p (.wait b) d)
    (hd : d.done b = true) : Leaves p d { d with waiter := update d.waiter b none } := by
  obtain ⟨hb, ha, hfree⟩ := hA
  have hwb : d.waiter b = some p := (hb b).mpr rfl
  have hw : ∀ {c}, c ≠ b → update d.waiter b none c = d.waiter c := fun hc => update_of_ne hc _ _
  have hcall : ∀ {c q}, update d.waiter b none c = some q → c ≠ b := by
    rintro c q hc rfl
    rw [update_self] at hc
    cases hc
  constructor
  case steady =>
    refine { h with
      queued := fun {c} hc => ?_, handled := fun {c} hc => ?_, owner := fun {c q} hc => ?_,
      settled := fun {c} hc => ?_ }
    · obtain ⟨⟨r, hr⟩, hu⟩ := h.queued hc
      have hcb : c ≠ b := by
        rintro rfl
        rw [hd] at hu
        cases hu
      exact ⟨⟨r, (hw hcb).trans hr⟩, hu⟩
    · cases hfree.handling.symm.trans hc
    · exact h.owner ((hw (hcall hc)).symm.trans hc)
    · by_cases hcb : c = b
      · rw [hcb]
        exact ha
      · exact h.settled ((hw hcb).symm.trans hc)
  case free => exact ⟨hfree.busy, hfree.handling⟩
  case out => exact fun c hc => hcall hc ((hb c).mp ((hw (hcall hc)).symm.trans hc))
  case keeps =>
    intro q hq
    refine ⟨fun c => ?_, fun _ hf => ⟨hf.notMem, hf.undone, hf.handling, hf.asked⟩, id, fun _ => id⟩
    by_cases hcb : c = b
    · subst hcb
      simp [hwb, hq.symm]
    · simp [hcb]

omit [DecidableEq P] in
/-- Only `ideintr` wakes, and only `iderw` sleeps. -/
theorem act_cases (p : P) (k : Code B) (killed : Bool) (d : Driver P B) :
    (∃ k' d', act p k killed d = .goto k' d') ∨
      (∃ b, k = .intrWake b ∧ act p k killed d = .wake b .intrNext) ∨
      (∃ b, k = .wait b ∧ d.done b = false ∧ act p k killed d = .sleep b (.wait b)) ∨
      ∃ d', act p k killed d = .ret () d' := by
  cases k with
  | rw b => exact .inl ⟨_, _, rfl⟩
  | append b pp =>
    refine .inl ?_
    cases hx : d.deref pp with
    | some x => exact ⟨_, _, by simp only [act, hx]; rfl⟩
    | none => exact ⟨_, _, by simp only [act, hx]; rfl⟩
  | check b => exact .inl ⟨_, _, rfl⟩
  | wait b =>
    cases hd : d.done b with
    | true => exact .inr (.inr (.inr ⟨_, by simp only [act, hd, if_true]; rfl⟩))
    | false => exact .inr (.inr (.inl ⟨b, rfl, hd, by simp [act, hd]⟩))
  | intr =>
    cases hq : d.idequeue with
    | some b => exact .inl ⟨_, _, by simp only [act, hq]; rfl⟩
    | none => exact .inr (.inr (.inr ⟨_, by simp only [act, hq]; rfl⟩))
  | intrData b => exact .inl ⟨_, _, rfl⟩
  | intrWake b => exact .inr (.inl ⟨b, rfl, rfl⟩)
  | intrNext => exact .inl ⟨_, _, rfl⟩
  | intrRet => exact .inr (.inr (.inr ⟨_, rfl⟩))

omit [DecidableEq P] in
theorem goes {k k' : Code B} (killed : Bool) (h : Steady d)
    (hA : Inside p k d) (ha : act p k killed d = .goto k' d') : Goes p d k' d' := by
  cases k with
  | rw b =>
    cases ha
    exact goes_rw h hA
  | append b pp =>
    simp only [act] at ha
    split at ha
    next x hx =>
      cases ha
      exact goes_walk h hA hx
    next hx =>
      cases ha
      exact goes_link h hA hx
  | check b =>
    cases ha
    exact goes_check h hA
  | wait b =>
    simp only [act] at ha
    split_ifs at ha
  | intr =>
    simp only [act] at ha
    split at ha
    next => cases ha
    next b hq =>
      cases ha
      exact goes_intr h hA hq
  | intrData b =>
    cases ha
    exact goes_finish h hA
  | intrWake b => cases ha
  | intrNext =>
    cases ha
    exact goes_next h hA
  | intrRet => cases ha

omit [DecidableEq P] in
theorem leaves {k : Code B} (killed : Bool) {r : Unit}
    (h : Steady d) (hA : Inside p k d) (ha : act p k killed d = .ret r d') : Leaves p d d' := by
  cases k with
  | rw b => cases ha
  | append b pp =>
    simp only [act] at ha
    split at ha <;> cases ha
  | check b => cases ha
  | wait b =>
    simp only [act] at ha
    split_ifs at ha with hd
    cases ha
    exact leaves_wait h hA hd
  | intr =>
    -- the queue is not empty
    obtain ⟨b, rest, -, -, hq⟩ := queue_of_intr h hA
    simp only [act, hq] at ha
    cases ha
  | intrData b => cases ha
  | intrWake b => cases ha
  | intrNext => cases ha
  | intrRet =>
    cases ha
    exact ⟨h, hA.2, hA.1, fun q _ => .refl q d⟩

omit [DecidableEq P] in
theorem raises (h : Steady d) (hr : raise d = some d') :
    Steady d' ∧ Same d d' ∧ ∀ q, Keeps q d d' := by
  rw [raise] at hr
  split at hr
  next b hb =>
    cases hr
    refine ⟨{ h with starts := ?_, head := fun {c} hc => h.head ?_ },
      ⟨rfl, rfl, rfl, rfl, by rw [hb]; rfl⟩, fun q => ⟨fun _ => Iff.rfl,
      fun _ hf => ⟨hf.notMem, hf.undone, hf.handling, hf.asked⟩, fun ht => ?_, fun _ => id⟩⟩
    · rw [h.starts, hb]
      rfl
    · rw [hb]
      exact hc
    · rw [hb] at ht
      cases ht
  next => cases hr

omit [DecidableEq P] in
theorem enters {k : Code B} (hJ : Free d) (hE : Outside p (some k) d) : Inside p k d := by
  match k, hE with
  | .rw b, ⟨hb, hf⟩ => exact ⟨hb, hf, hJ⟩
  | .wait b, ⟨hb, ha⟩ => exact ⟨hb, ha, hJ⟩
  | .intr, ⟨hout, hd⟩ => exact ⟨hout, hJ.handling, hd⟩

theorem outline : Outline (code (P := P) (B := B)) Steady Free Inside Outside where
  start := by
    intro p l d o d' h hout hs
    have hst := starts h hout hs
    exact ⟨hst.steady, hst.same.free, hst.outside,
      fun q hq => ⟨fun _ => (hst.keeps q hq).inside hst.same, fun _ => (hst.keeps q hq).outside⟩⟩
  env := by
    intro _ d d' h hr
    obtain ⟨hsteady, hsame, hkeeps⟩ := raises h hr
    exact ⟨hsteady, hsame.free,
      fun q => ⟨fun _ => (hkeeps q).inside hsame, fun _ => (hkeeps q).outside⟩⟩
  enter := fun _ => enters
  goto := by
    intro p k b d k' d' h hA ha
    have hg := goes b h hA ha
    exact ⟨hg.steady, hg.inside, fun q hq _ => (hg.keeps q hq).outside⟩
  wake := by
    intro p k b d c k' _ hA ha
    obtain ⟨_, _, h⟩ | ⟨b, rfl, h⟩ | ⟨b, -, -, h⟩ | ⟨_, h⟩ := act_cases p k b d <;>
      cases h.symm.trans ha
    exact hA
  sleep := by
    intro p k b d c k' _ hA ha
    obtain ⟨_, _, h⟩ | ⟨b, -, h⟩ | ⟨b, rfl, -, h⟩ | ⟨_, h⟩ := act_cases p k b d <;>
      cases h.symm.trans ha
    exact ⟨hA.2.2, hA.1, hA.2.1⟩
  ret := by
    intro p k b d r d' h hA ha
    have hl := leaves b h hA ha
    exact ⟨hl.steady, hl.free, hl.out, fun q hq _ => (hl.keeps q hq).outside⟩

omit [DecidableEq P] in
theorem holds_boot :
    Holds Steady Free Inside Outside (boot : State P (Code B) B (Driver P B)) := by
  refine LockedCode.holds_of_idle (fun _ => rfl) ?_ ⟨fun h => absurd rfl h, rfl⟩ fun p => nofun
  constructor
  case chain => rfl
  case nodup => exact List.nodup_nil
  case books => rfl
  case queued => exact nofun
  case handled => exact nofun
  case owner => exact nofun
  case settled => exact fun _ => rfl
  case starts => rfl
  case head => exact nofun

/-! ## The requests are served -/

omit [DecidableEq P] in
/-- When `iderw` returns, the disk has completed all that was asked for with the buffer. -/
theorem count_completed (h : Steady d)
    (hA : Inside p (.wait b) d) (hd : d.done b = true) : d.completed.count b = d.calls.count b := by
  have hmem : b ∉ d.queue := by
    intro hb
    rw [(h.queued hb).2] at hd
    cases hd
  rw [hA.2.1, h.books, List.count_append, List.count_eq_zero_of_not_mem hmem]
  rfl

/-- **The disk serves every request once and in order.**  In every state the queue has no buffer
twice and holds what was appended and is not completed; at most one command is outstanding, it is
for the first buffer, and commands are started in the order of the queue.  When `iderw` returns,
the buffer is valid and clean, and as many commands for it were completed as there were calls with
it. -/
theorem requests_served {s : State P (Code B) B (Driver P B)} (h : Reachable ideStep boot s) :
    (∃ xs, Chain s.data.qnext s.data.idequeue xs ∧ xs.Nodup ∧
        s.data.appended = s.data.completed ++ xs) ∧
      s.data.started = s.data.completed ++ s.data.disk.command.toList ∧
      (∀ b, s.data.disk.command = some b → s.data.idequeue = some b) ∧
      s.data.started <+: s.data.appended ∧
      ∀ p b s', s.place p = .inside (.wait b) → ideStep (.step p) s = some s' →
        s'.place p = .idle →
        s'.data.valid b = true ∧ s'.data.dirty b = false ∧
          s'.data.completed.count b = s'.data.calls.count b := by
  have hs := h.invariant holds_boot fun _ _ _ hs hstep =>
    outline.step hs (LockedCode.Code.step_some hstep)
  have hsteady := hs.steady
  have hhead : ∀ b, s.data.disk.command = some b → s.data.idequeue = some b :=
    fun b hb => hsteady.idequeue_eq.trans (hsteady.head hb)
  refine ⟨⟨s.data.queue, hsteady.chain, hsteady.nodup, hsteady.books⟩, hsteady.starts,
    hhead, ?_, ?_⟩
  · rw [hsteady.starts, hsteady.books, List.prefix_append_right_inj]
    cases hc : s.data.disk.command with
    | none => exact List.nil_prefix
    | some b =>
      obtain ⟨rest, hrest⟩ := List.head?_eq_some_iff.mp (hsteady.head hc)
      rw [hrest]
      exact ⟨rest, rfl⟩
  · intro p b s' hp hstep hidle
    have hA := hs.asserts hp
    cases LockedCode.Code.step_some hstep with
    | goto _ _ => simp at hidle
    | wake _ _ _ => simp at hidle
    | sleep _ _ _ => simp at hidle
    | @ret _ k r d hk ha =>
      cases hp.symm.trans hk
      have hact : act p (.wait b) (s.killed p) s.data = .ret r d := ha
      simp only [act] at hact
      split_ifs at hact with hd
      cases hact
      obtain ⟨hv, hw⟩ := Bool.and_eq_true_iff.mp hd
      have hcount := count_completed hsteady hA hd
      exact ⟨hv, (Bool.not_eq_true' _).mp hw, hcount⟩

/-- Two processes ask for a buffer each; the handler `2` serves them. -/
def twoRequests : List (Label (Fin 3) (Call Bool) Unit) :=
  [.call 0 (.lock false), .call 1 (.lock true), .call 0 (.iderw false), .call 1 (.iderw true),
    .enter 0] ++ List.replicate 4 (.step 0) ++ [.doze 0, .enter 1] ++ List.replicate 5 (.step 1) ++
    [.doze 1, .env (), .call 2 .ideintr, .enter 2] ++ List.replicate 5 (.step 2) ++ [.enter 0]

theorem requests_served_two :
    ∃ s s', exec ideStep twoRequests boot = some s ∧
      (s.data.appended = [false, true] ∧ s.data.completed = [false] ∧
        s.data.disk.command = some true) ∧
      s.data.started <+: s.data.appended ∧ ideStep (.step 0) s = some s' ∧
      s'.data.valid false = true ∧ s'.data.dirty false = false ∧
        s'.data.completed.count false = s'.data.calls.count false := by
  have hrun : ∃ s, exec ideStep twoRequests boot = some s ∧
      ((s.data.appended = [false, true] ∧ s.data.completed = [false] ∧
        s.data.disk.command = some true) ∧ s.place 0 = .inside (.wait false) ∧
        (ideStep (.step 0) s).map (fun s' => s'.place 0) = some .idle) :=
    Transition.exists_exec _ _ (by decide +kernel)
  obtain ⟨s, hs, hp, hplace, hmap⟩ := hrun
  obtain ⟨s', hs', hidle⟩ := Option.map_eq_some_iff.mp hmap
  obtain ⟨-, -, -, hstarted, hret⟩ := requests_served ⟨twoRequests, hs⟩
  exact ⟨s, s', hs, hp, hstarted, hs', hret 0 false s' hplace hs' hidle⟩

end Xv6Mlfq.Ide
