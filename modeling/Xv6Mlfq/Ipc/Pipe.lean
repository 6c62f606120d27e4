import Xv6Mlfq.Lib.LockedCode
import Xv6Mlfq.Lib.Ring
import Mathlib.Algebra.BigOperators.Group.Finset.Piecewise
import Mathlib.Algebra.BigOperators.Fin
import Mathlib.Data.Fintype.BigOperators

/-!
# Pipes

`pipe.c`: `piperead`, `pipewrite` and `pipeclose` on one pipe, called by any number of processes.
All of them run under `p->lock`; each step below is one round of a loop, one `wakeup` or one
`sleep`, so that a kill may come in between.  `fileclose` calls `pipeclose` when the last
descriptor of an end is closed.

## Main definitions

* `Pipe` — `struct pipe`, with the descriptors of the processes.
* `Code`, `act` — the code of the three functions.
* `pipeStep`, `pipealloc` — the machine, and a new pipe.

## Main results

* `fifo` — a pipe loses nothing and keeps the order, also after its counters have wrapped.
* `sleepers_wait` — who sleeps on the pipe has a reason to, unless a killed writer left it.
-/

namespace Xv6Mlfq.Ipc

open Function (update update_self update_of_ne)
open LockedCode (Act Place Label State Outline Signals Holds Covered)
open Ring (Window)
open Transition (Reachable Along exec)

abbrev PIPESIZE : ℕ := 512

/-- The addresses that processes sleep on. -/
inductive Chan
  | nread | nwrite
  deriving DecidableEq, Repr

/-- `struct pipe`.  An end is given by `writable`. -/
structure Pipe (P : Type) where
  data : ℕ → UInt8
  nread : UInt32
  nwrite : UInt32
  readopen : Bool
  writeopen : Bool
  /-- the descriptors that each process has for the file of an end -/
  fds : P → Bool → ℕ
  /-- `ref` of the file of an end -/
  ref : Bool → ℕ
  /-- History: the bytes that were stored in the buffer. -/
  stored : List UInt8
  /-- History: what the calls of `piperead` have returned. -/
  returned : List (List UInt8)

/-- The system calls.  `share` is `fork` or `dup`: a process gets one more descriptor. -/
inductive Call (P : Type)
  | write (addr : ℕ → UInt8) (n : ℤ)
  | read (n : ℤ)
  | close (writable : Bool)
  | share (q : P) (writable : Bool)

/-- Where a process is. -/
inductive Code
  /-- the loop of `pipewrite`, before byte `i` -/
  | writeLoop (addr : ℕ → UInt8) (n : ℤ) (i : ℕ)
  /-- the pipe is full -/
  | writeFull (addr : ℕ → UInt8) (n : ℤ) (i : ℕ)
  | writeSleep (addr : ℕ → UInt8) (n : ℤ) (i : ℕ)
  | writeRet (n : ℤ)
  /-- the test that the pipe is empty -/
  | readTest (n : ℤ)
  | readSleep (n : ℤ)
  /-- the loop of `piperead`, with the bytes that it has copied -/
  | readCopy (n : ℤ) (got : List UInt8)
  | readRet (n : ℤ) (got : List UInt8)
  | close (writable : Bool)
  | closeWake (writable : Bool)
  | closeRet

variable {P : Type}

def Pipe.full (d : Pipe P) : Bool := d.nwrite = d.nread + UInt32.ofNat PIPESIZE

def Pipe.empty (d : Pipe P) : Bool := d.nread = d.nwrite

def Pipe.isOpen (d : Pipe P) (writable : Bool) : Bool :=
  if writable then d.writeopen else d.readopen

/-- `p->data[p->nwrite++ % PIPESIZE] = b` -/
def Pipe.store (d : Pipe P) (b : UInt8) : Pipe P :=
  { d with
    data := update d.data (d.nwrite.toNat % PIPESIZE) b
    nwrite := d.nwrite + 1
    stored := d.stored ++ [b] }

/-- `p->data[p->nread++ % PIPESIZE]` -/
def Pipe.next (d : Pipe P) : UInt8 := d.data (d.nread.toNat % PIPESIZE)

/-- Closes an end of the pipe: `p->writeopen = 0` or `p->readopen = 0`. -/
def Pipe.shut (d : Pipe P) (writable : Bool) : Pipe P :=
  if writable then { d with writeopen := false } else { d with readopen := false }

/-- What a process does next, with `p->lock`. -/
def act (k : Code) (killed : Bool) (d : Pipe P) : Act Code Chan (Pipe P) ℤ :=
  match k with
  | .writeLoop addr n i =>
    if (i : ℤ) < n then
      if d.full then .goto (.writeFull addr n i) d
      else .goto (.writeLoop addr n (i + 1)) (d.store (addr i))
    else .wake .nread (.writeRet n)
  | .writeFull addr n i =>
    if d.readopen = false ∨ killed then .ret (-1) d
    else .wake .nread (.writeSleep addr n i)
  | .writeSleep addr n i => .sleep .nwrite (.writeLoop addr n i)
  | .writeRet n => .ret n d
  | .readTest n =>
    if d.empty ∧ d.writeopen then
      if killed then .ret (-1) d else .goto (.readSleep n) d
    else .goto (.readCopy n []) d
  | .readSleep n => .sleep .nread (.readTest n)
  | .readCopy n got =>
    if (got.length : ℤ) < n ∧ d.empty = false then
      .goto (.readCopy n (got ++ [d.next])) { d with nread := d.nread + 1 }
    else .wake .nwrite (.readRet n got)
  | .readRet _ got => .ret got.length { d with returned := d.returned ++ [got] }
  | .close writable => .goto (.closeWake writable) (d.shut writable)
  | .closeWake writable => .wake (if writable then .nread else .nwrite) .closeRet
  | .closeRet => .ret 0 d

variable [DecidableEq P]

/-- The process has `x` descriptors for this end. -/
def Pipe.setFds (d : Pipe P) (p : P) (writable : Bool) (x : ℕ) : Pipe P :=
  { d with fds := update d.fds p (update (d.fds p) writable x) }

/-- `ref` of the file of this end is `x`. -/
def Pipe.setRef (d : Pipe P) (writable : Bool) (x : ℕ) : Pipe P :=
  { d with ref := update d.ref writable x }

/-- A system call, up to `acquire(&p->lock)`; the process needs a descriptor. -/
def start (p : P) (l : Call P) (d : Pipe P) : Option (Option Code × Pipe P) :=
  match l with
  | .write addr n => if 0 < d.fds p true then some (some (.writeLoop addr n 0), d) else none
  | .read n => if 0 < d.fds p false then some (some (.readTest n), d) else none
  | .close writable =>
    if 0 < d.fds p writable then
      let d' := (d.setFds p writable (d.fds p writable - 1)).setRef writable (d.ref writable - 1)
      some (if d.ref writable - 1 > 0 then none else some (.close writable), d')
    else none
  | .share q writable =>
    if 0 < d.fds p writable then
      some (none, (d.setFds q writable (d.fds q writable + 1)).setRef writable (d.ref writable + 1))
    else none

/-- There is no environment. -/
def code : LockedCode.Code P (Call P) Empty Code Chan (Pipe P) ℤ where
  start := start
  act _ := act
  env := nofun

abbrev pipeStep : Label P (Call P) Empty → State P Code Chan (Pipe P) →
    Option (State P Code Chan (Pipe P)) := code.step

/-- `sys_pipe`: a new pipe, with both ends open in the process that made it.  The counters start
from `c`, which is 0 in `pipealloc`. -/
def pipealloc (c : UInt32) (maker : P) : State P Code Chan (Pipe P) where
  data :=
    { data := fun _ => 0
      nread := c
      nwrite := c
      readopen := true
      writeopen := true
      fds := update (fun _ _ => 0) maker fun _ => 1
      ref := fun _ => 1
      stored := []
      returned := [] }
  lock := none
  table := none
  place _ := .idle
  killed _ := false

/-! ## Assertions -/

section Assertions

variable [Fintype P]

/-- The files count the descriptors, and an end is open as long as it has one. -/
structure Pipe.Counted (d : Pipe P) : Prop where
  ref_eq : ∀ writable, d.ref writable = ∑ p, d.fds p writable
  isOpen : ∀ {writable}, 0 < d.ref writable → d.isOpen writable = true

omit [DecidableEq P] [Fintype P] in
/-- What was stored has been returned, is in the hands of the reader, or is in the buffer. -/
def Pipe.Books (d : Pipe P) (got : List UInt8) : Prop :=
  ∃ xs, Window PIPESIZE d.data d.nread d.nwrite xs ∧ d.stored = d.returned.flatten ++ got ++ xs

/-- The bytes that a reader has copied. -/
def Code.got : Code → List UInt8
  | .readCopy _ got | .readRet _ got => got
  | _ => []

/-- Who is in a call has a descriptor, and who closes an end is the last. -/
def Uses (p : P) (k : Code) (d : Pipe P) : Prop :=
  match k with
  | .writeLoop .. | .writeFull .. | .writeSleep .. | .writeRet .. => 0 < d.fds p true
  | .readTest .. | .readSleep .. | .readCopy .. | .readRet .. => 0 < d.fds p false
  | .close writable => d.ref writable = 0
  | .closeWake .. | .closeRet => True

/-- What the tests have shown. -/
def Knows (k : Code) (d : Pipe P) : Prop :=
  match k with
  | .writeFull .. => d.full = true
  | .writeSleep .. => d.full = true ∧ d.readopen = true
  | .readSleep .. => d.empty = true ∧ d.writeopen = true
  | .readCopy _ got => got = [] → d.empty = false ∨ d.writeopen = false
  | .readRet n got => 0 < n → got = [] → d.empty = true ∧ d.writeopen = false
  | _ => True

/-- Where a process is that waits for `p->lock`. -/
def Code.entry : Code → Bool
  | .writeLoop .. | .readTest .. | .close .. => true
  | _ => false

/-- The assertion of a process with `p->lock`. -/
structure Inside (p : P) (k : Code) (d : Pipe P) : Prop where
  books : d.Books k.got
  uses : Uses p k d
  knows : Knows k d

/-- The assertion of a process without `p->lock`. -/
structure Outside (p : P) (o : Option Code) (d : Pipe P) : Prop where
  entry : ∀ {k}, o = some k → k.entry = true
  uses : ∀ {k}, o = some k → Uses p k d

/-! ## The buffer -/

theorem PIPESIZE_lt : PIPESIZE < 2 ^ 32 := by decide

theorem PIPESIZE_dvd : PIPESIZE ∣ 2 ^ 32 := by decide

variable {d d' : Pipe P} {w b : Bool} {p : P} {k : Code} {o : Option Code}

omit [DecidableEq P] [Fintype P] in
theorem Pipe.Books.store (h : d.Books []) (hf : d.full = false) (b : UInt8) :
    (d.store b).Books [] := by
  obtain ⟨xs, hw, hs⟩ := h
  have hne : xs.length ≠ PIPESIZE := by
    intro hl
    rw [Pipe.full, decide_eq_false_iff_not] at hf
    exact hf ((hw.full_iff PIPESIZE_lt).mpr hl)
  refine ⟨xs ++ [b], hw.push PIPESIZE_dvd (lt_of_le_of_ne hw.length_le hne), ?_⟩
  show d.stored ++ [b] = d.returned.flatten ++ [] ++ (xs ++ [b])
  rw [hs, List.append_assoc]

omit [DecidableEq P] [Fintype P] in
theorem Pipe.Books.next {got : List UInt8} (h : d.Books got) (he : d.empty = false) :
    Pipe.Books { d with nread := d.nread + 1 } (got ++ [d.next]) := by
  obtain ⟨xs, hw, hs⟩ := h
  have hne : xs ≠ [] := by
    intro hx
    rw [Pipe.empty, decide_eq_false_iff_not] at he
    exact he ((hw.eq_iff PIPESIZE_lt).mpr hx)
  obtain ⟨x, xs, rfl⟩ := List.exists_cons_of_ne_nil hne
  obtain ⟨hx, hw'⟩ := hw.pop PIPESIZE_dvd
  refine ⟨xs, hw', ?_⟩
  rw [hs, show d.next = x from hx]
  simp

omit [DecidableEq P] [Fintype P] in
theorem Pipe.Books.ret {got : List UInt8} (h : d.Books got) :
    Pipe.Books { d with returned := d.returned ++ [got] } [] := by
  obtain ⟨xs, hw, hs⟩ := h
  refine ⟨xs, hw, ?_⟩
  rw [hs]
  simp

/-! ## The descriptors -/

omit [DecidableEq P] in
theorem Pipe.Counted.congr (h : d.Counted) (hf : d'.fds = d.fds)
    (hr : d'.ref = d.ref) (ho : d'.isOpen = d.isOpen) : d'.Counted := by
  refine ⟨fun w => ?_, fun {w} hw => ?_⟩
  · rw [hr, hf, h.ref_eq]
  · rw [ho]
    exact h.isOpen (by rwa [← hr])

omit [DecidableEq P] in
theorem Pipe.Counted.fds_eq_zero (h : d.Counted) (hw : d.ref w = 0) (p : P) : d.fds p w = 0 := by
  rw [h.ref_eq] at hw
  exact Finset.sum_eq_zero_iff.mp hw p (Finset.mem_univ p)

omit [DecidableEq P] in
theorem Pipe.Counted.ref_pos (h : d.Counted) (hp : 0 < d.fds p w) : 0 < d.ref w := by
  by_contra hw
  rw [h.fds_eq_zero (Nat.eq_zero_of_not_pos hw) p] at hp
  exact Nat.lt_irrefl 0 hp

omit [DecidableEq P] [Fintype P] in
theorem Pipe.isOpen_shut (d : Pipe P) (w v : Bool) :
    (d.shut w).isOpen v = (d.isOpen v && v != w) := by
  cases w <;> cases v <;> simp [Pipe.shut, Pipe.isOpen]

omit [DecidableEq P] [Fintype P] in
theorem Pipe.shut_fields (d : Pipe P) (w : Bool) :
    (d.shut w).fds = d.fds ∧ (d.shut w).ref = d.ref ∧ (d.shut w).data = d.data ∧
      (d.shut w).nread = d.nread ∧ (d.shut w).nwrite = d.nwrite ∧
      (d.shut w).stored = d.stored ∧ (d.shut w).returned = d.returned := by
  cases w <;> exact ⟨rfl, rfl, rfl, rfl, rfl, rfl, rfl⟩

omit [DecidableEq P] in
theorem Pipe.Counted.shut (h : d.Counted) (hw : d.ref w = 0) : (d.shut w).Counted := by
  obtain ⟨hf, hr, -⟩ := d.shut_fields w
  refine ⟨fun v => by rw [hf, hr, h.ref_eq], fun {v} hv => ?_⟩
  rw [hr] at hv
  have hne : v ≠ w := by
    rintro rfl
    omega
  rw [Pipe.isOpen_shut, h.isOpen hv, Bool.true_and]
  simpa using hne

theorem sum_update (f : P → ℕ) (p : P) (x : ℕ) :
    (∑ q, update f p x q) + f p = (∑ q, f q) + x := by
  rw [Finset.sum_update_of_mem (Finset.mem_univ p), ← Finset.add_sum_erase _ f (Finset.mem_univ p),
    Finset.sdiff_singleton_eq_erase]
  ring

/-- The descriptors of one process change, and `ref` with them. -/
theorem Pipe.Counted.set {x y : ℕ} (h : d.Counted)
    (hxy : y + d.fds p w = d.ref w + x) (hopen : 0 < y → 0 < d.ref w) :
    ((d.setFds p w x).setRef w y).Counted := by
  refine ⟨fun v => ?_, fun {v} hv => ?_⟩
  · by_cases hvw : v = w
    · subst hvw
      have hsum : (∑ q, update (fun q => d.fds q v) p x q) + d.fds p v = d.ref v + x := by
        rw [h.ref_eq]
        exact sum_update _ p x
      have hfds : ∀ q, (d.setFds p v x).fds q v = update (fun q => d.fds q v) p x q := by
        intro q
        by_cases hq : q = p
        · subst hq
          simp [Pipe.setFds]
        · simp [Pipe.setFds, hq]
      show update d.ref v y v = ∑ q, (d.setFds p v x).fds q v
      rw [update_self]
      calc y = ∑ q, update (fun q => d.fds q v) p x q := by omega
        _ = ∑ q, (d.setFds p v x).fds q v := Finset.sum_congr rfl fun q _ => (hfds q).symm
    · have hfds : ∀ q, (d.setFds p w x).fds q v = d.fds q v := by
        intro q
        by_cases hq : q = p
        · subst hq
          simp [Pipe.setFds, hvw]
        · simp [Pipe.setFds, hq]
      show update d.ref w y v = ∑ q, (d.setFds p w x).fds q v
      rw [update_of_ne hvw, Finset.sum_congr rfl fun q _ => hfds q, h.ref_eq]
  · by_cases hvw : v = w
    · subst hvw
      exact h.isOpen (hopen (by simpa [Pipe.setRef] using hv))
    · exact h.isOpen (by simpa [Pipe.setRef, hvw, Pipe.setFds] using hv)

omit [DecidableEq P] [Fintype P] in
theorem outside_some (hk : k.entry = true) (hu : Uses p k d) : Outside p (some k) d :=
  ⟨fun h => Option.some.inj h ▸ hk, fun h => Option.some.inj h ▸ hu⟩

omit [DecidableEq P] [Fintype P] in
theorem outside_none : Outside p none d := ⟨nofun, nofun⟩

/-- What a system call does before it takes `p->lock`. -/
structure Starts (p : P) (d : Pipe P) (o : Option Code) (d' : Pipe P) : Prop where
  counted : d.Counted → d'.Counted
  outside : Outside p o d'
  fds_le : ∀ {q}, q ≠ p → ∀ w, d.fds q w ≤ d'.fds q w
  last : d.Counted → ∀ {w}, d.ref w = 0 → d'.ref w = 0

omit [Fintype P] in
theorem start_same {l : Call P}
    (h : start p l d = some (o, d')) : ∃ fds ref, d' = { d with fds := fds, ref := ref } := by
  cases l with
  | write addr n =>
    rw [start] at h
    split_ifs at h
    cases h
    exact ⟨d.fds, d.ref, rfl⟩
  | read n =>
    rw [start] at h
    split_ifs at h
    cases h
    exact ⟨d.fds, d.ref, rfl⟩
  | close w =>
    simp only [start] at h
    split_ifs at h <;> cases h <;> exact ⟨_, _, rfl⟩
  | share q w =>
    rw [start] at h
    split_ifs at h
    cases h
    exact ⟨_, _, rfl⟩

theorem starts {l : Call P} (h : start p l d = some (o, d')) : Starts p d o d' := by
  cases l with
  | write addr n =>
    rw [start] at h
    split_ifs at h with hp
    cases h
    exact ⟨id, outside_some rfl hp,
      fun _ _ => Nat.le_refl _, fun _ _ => id⟩
  | read n =>
    rw [start] at h
    split_ifs at h with hp
    cases h
    exact ⟨id, outside_some rfl hp,
      fun _ _ => Nat.le_refl _, fun _ _ => id⟩
  | close w =>
    simp only [start] at h
    split_ifs at h with hp hlast
    · cases h
      refine ⟨fun hd => hd.set ?_ ?_, outside_none, fun hq v => ?_, fun hd {v} hv => ?_⟩
      · have := hd.ref_pos hp
        omega
      · omega
      · simp [Pipe.setRef, Pipe.setFds, hq]
      · by_cases hvw : v = w
        · subst hvw
          simp [Pipe.setRef, hv]
        · simpa [Pipe.setRef, hvw, Pipe.setFds] using hv
    · cases h
      refine ⟨fun hd => hd.set ?_ ?_, outside_some rfl ?_, fun hq v => ?_, fun hd {v} hv => ?_⟩
      · have := hd.ref_pos hp
        omega
      · omega
      · simp only [Uses, Pipe.setRef, update_self]
        omega
      · simp [Pipe.setRef, Pipe.setFds, hq]
      · by_cases hvw : v = w
        · subst hvw
          simp [Pipe.setRef, hv]
        · simpa [Pipe.setRef, hvw, Pipe.setFds] using hv
  | share q w =>
    simp only [start] at h
    split_ifs at h with hp
    cases h
    refine ⟨fun hd => hd.set ?_ ?_, outside_none, fun {r} hr v => ?_, fun hd {v} hv => ?_⟩
    · omega
    · exact fun _ => hd.ref_pos hp
    · by_cases hrq : r = q
      · subst hrq
        by_cases hvw : v = w
        · subst hvw
          simp [Pipe.setRef, Pipe.setFds]
        · simp [Pipe.setRef, Pipe.setFds, hvw]
      · simp [Pipe.setRef, Pipe.setFds, hrq]
    · have hvw : v ≠ w := by
        rintro rfl
        have := hd.ref_pos hp
        omega
      simpa [Pipe.setRef, hvw, Pipe.setFds] using hv

/-! ## The code keeps to the assertions -/

omit [DecidableEq P] in
theorem Starts.uses_other {q : P}
    (h : Starts p d o d') (hd : d.Counted) (hq : q ≠ p) (hk : Uses q k d) : Uses q k d' := by
  cases k with
  | writeLoop addr n i => exact lt_of_lt_of_le hk (h.fds_le hq true)
  | writeFull addr n i => exact lt_of_lt_of_le hk (h.fds_le hq true)
  | writeSleep addr n i => exact lt_of_lt_of_le hk (h.fds_le hq true)
  | writeRet n => exact lt_of_lt_of_le hk (h.fds_le hq true)
  | readTest n => exact lt_of_lt_of_le hk (h.fds_le hq false)
  | readSleep n => exact lt_of_lt_of_le hk (h.fds_le hq false)
  | readCopy n got => exact lt_of_lt_of_le hk (h.fds_le hq false)
  | readRet n got => exact lt_of_lt_of_le hk (h.fds_le hq false)
  | close w => exact h.last hd hk
  | closeWake w => trivial
  | closeRet => trivial

omit [DecidableEq P] [Fintype P] in
theorem uses_congr (hf : d'.fds = d.fds) (hr : d'.ref = d.ref) : Uses p k d' = Uses p k d := by
  cases k <;> simp only [Uses, hf, hr]

omit [DecidableEq P] [Fintype P] in
/-- Other processes do not mind what the process inside does, as long as it leaves the descriptors
alone. -/
theorem Outside.congr (h : Outside p o d)
    (hf : d'.fds = d.fds) (hr : d'.ref = d.ref) : Outside p o d' :=
  ⟨h.entry, fun ho => uses_congr hf hr ▸ h.uses ho⟩

omit [DecidableEq P] in
theorem inside_goto {k' : Code} (hd : d.Counted) (h : Inside p k d) (ha : act k b d = .goto k' d') :
    d'.Counted ∧ Inside p k' d' ∧ d'.fds = d.fds ∧ d'.ref = d.ref := by
  cases k with
  | writeLoop addr n i =>
    simp only [act] at ha
    split_ifs at ha with hi hf
    · cases ha
      exact ⟨hd, ⟨h.books, h.uses, hf⟩, rfl, rfl⟩
    · cases ha
      refine ⟨hd.congr rfl rfl rfl, ⟨?_, h.uses, trivial⟩, rfl, rfl⟩
      exact h.books.store (Bool.eq_false_iff.mpr hf) (addr i)
  | readTest n =>
    simp only [act] at ha
    split_ifs at ha with he hk
    · cases ha
      exact ⟨hd, ⟨h.books, h.uses, he⟩, rfl, rfl⟩
    · cases ha
      refine ⟨hd, ⟨h.books, h.uses, fun _ => ?_⟩, rfl, rfl⟩
      rw [not_and_or, Bool.not_eq_true, Bool.not_eq_true] at he
      exact he
  | readCopy n got =>
    simp only [act] at ha
    split_ifs at ha with hg
    cases ha
    refine ⟨hd.congr rfl rfl rfl, ⟨h.books.next hg.2, h.uses, fun hn => ?_⟩, rfl, rfl⟩
    simp at hn
  | close w =>
    cases ha
    obtain ⟨hf, hr, hdata, hnr, hnw, hst, hret⟩ := d.shut_fields w
    obtain ⟨xs, hw, hs⟩ := h.books
    refine ⟨hd.shut h.uses, ⟨⟨xs, ?_, ?_⟩, trivial, trivial⟩, hf, hr⟩
    · rw [hdata, hnr, hnw]
      exact hw
    · rw [hst, hret, hs]
      rfl
  | writeFull addr n i =>
    simp only [act] at ha
    split_ifs at ha
  | _ => cases ha

omit [DecidableEq P] [Fintype P] in
theorem inside_wake {k' : Code} {c : Chan} (h : Inside p k d)
    (ha : act k b d = .wake c k') : Inside p k' d := by
  cases k with
  | writeLoop addr n i =>
    simp only [act] at ha
    split_ifs at ha
    cases ha
    exact ⟨h.books, h.uses, trivial⟩
  | writeFull addr n i =>
    simp only [act] at ha
    split_ifs at ha with hk
    cases ha
    rw [not_or, Bool.not_eq_false] at hk
    exact ⟨h.books, h.uses, h.knows, hk.1⟩
  | readCopy n got =>
    simp only [act] at ha
    split_ifs at ha with hg
    cases ha
    refine ⟨h.books, h.uses, fun hn hgot => ?_⟩
    have he : d.empty = true := by
      by_contra he
      exact hg ⟨by simpa [hgot] using hn, Bool.eq_false_iff.mpr he⟩
    refine ⟨he, (h.knows hgot).resolve_left ?_⟩
    rw [he]
    exact nofun
  | closeWake w =>
    cases ha
    exact ⟨h.books, trivial, trivial⟩
  | readTest n =>
    simp only [act] at ha
    split_ifs at ha
  | _ => cases ha

omit [DecidableEq P] [Fintype P] in
theorem inside_sleep {k' : Code} {c : Chan} (h : Inside p k d)
    (ha : act k b d = .sleep c k') : d.Books [] ∧ Outside p (some k') d := by
  cases k with
  | writeSleep addr n i =>
    cases ha
    exact ⟨h.books, outside_some rfl h.uses⟩
  | readSleep n =>
    cases ha
    exact ⟨h.books, outside_some rfl h.uses⟩
  | writeLoop addr n i =>
    simp only [act] at ha
    split_ifs at ha
  | writeFull addr n i =>
    simp only [act] at ha
    split_ifs at ha
  | readTest n =>
    simp only [act] at ha
    split_ifs at ha
  | readCopy n got =>
    simp only [act] at ha
    split_ifs at ha
  | _ => cases ha

/-- A process that returns changes nothing but the history. -/
structure Left (d d' : Pipe P) : Prop where
  fds : d'.fds = d.fds
  ref : d'.ref = d.ref
  isOpen : d'.isOpen = d.isOpen
  full : d'.full = d.full
  empty : d'.empty = d.empty

omit [DecidableEq P] [Fintype P] in
theorem Left.refl (d : Pipe P) : Left d d := ⟨rfl, rfl, rfl, rfl, rfl⟩

omit [DecidableEq P] [Fintype P] in
theorem inside_ret {r : ℤ} (h : Inside p k d)
    (ha : act k b d = .ret r d') : d'.Books [] ∧ Left d d' := by
  cases k with
  | writeFull addr n i =>
    simp only [act] at ha
    split_ifs at ha
    cases ha
    exact ⟨h.books, .refl d⟩
  | writeRet n =>
    cases ha
    exact ⟨h.books, .refl d⟩
  | readTest n =>
    simp only [act] at ha
    split_ifs at ha
    cases ha
    exact ⟨h.books, .refl d⟩
  | readRet n got =>
    cases ha
    exact ⟨h.books.ret, rfl, rfl, rfl, rfl, rfl⟩
  | closeRet =>
    cases ha
    exact ⟨h.books, .refl d⟩
  | writeLoop addr n i =>
    simp only [act] at ha
    split_ifs at ha
  | readCopy n got =>
    simp only [act] at ha
    split_ifs at ha
  | _ => cases ha

/-- The assertion of all times. -/
structure Steady (d : Pipe P) : Prop where
  counted : d.Counted
  books : ∃ got, d.Books got

/-- **The code of pipes keeps to the assertions.** -/
theorem outline : Outline (code (P := P)) Steady (fun d => d.Books []) Inside Outside where
  start := by
    intro p l d o d' hd _ h
    have hs := starts h
    obtain ⟨fds, ref, rfl⟩ := start_same h
    refine ⟨⟨hs.counted hd.counted, hd.books⟩, id, hs.outside,
      fun q hq => ⟨fun k hA => ?_, fun o hE => ?_⟩⟩
    · exact ⟨hA.books, hs.uses_other hd.counted hq hA.uses, hA.knows⟩
    · exact ⟨hE.entry, fun ho => hs.uses_other hd.counted hq (hE.uses ho)⟩
  env := nofun
  enter := by
    intro p k d _ hJ hE
    have hk := hE.entry rfl
    have hu := hE.uses rfl
    cases k <;> cases hk <;> exact ⟨hJ, hu, trivial⟩
  goto := by
    intro p k b d k' d' hd hA ha
    obtain ⟨hd', hA', hf, hr⟩ := inside_goto hd.counted hA ha
    exact ⟨⟨hd', _, hA'.books⟩, hA', fun q _ o hE => hE.congr hf hr⟩
  wake := fun _ => inside_wake
  sleep := fun _ => inside_sleep
  ret := by
    intro p k b d r d' hd hA ha
    obtain ⟨hJ, hl⟩ := inside_ret hA ha
    refine ⟨⟨hd.counted.congr hl.fds hl.ref hl.isOpen, [], hJ⟩, hJ, outside_none,
      fun q _ o hE => ?_⟩
    exact hE.congr hl.fds hl.ref

theorem holds_pipealloc (c : UInt32) (maker : P) :
    Holds Steady (fun d => d.Books []) Inside Outside (pipealloc c maker) := by
  have hbooks : (pipealloc c maker).data.Books [] := ⟨[], Ring.window_nil, rfl⟩
  refine LockedCode.holds_of_idle (fun _ => rfl) ⟨⟨fun w => ?_, fun {w} _ => ?_⟩, [], hbooks⟩ hbooks
    fun p => outside_none
  · show 1 = ∑ p, update (fun _ _ => 0) maker (fun _ => 1) p w
    rw [Finset.sum_eq_single maker (fun q _ hq => by simp [hq])
      fun hm => absurd (Finset.mem_univ maker) hm]
    simp
  · cases w <;> rfl

/-- The assertions hold in every state of the pipe. -/
theorem holds_of_reachable {c : UInt32} {maker : P} {s : State P Code Chan (Pipe P)}
    (h : Reachable pipeStep (pipealloc c maker) s) :
    Holds Steady (fun d => d.Books []) Inside Outside s :=
  h.invariant (holds_pipealloc c maker) fun _ _ _ hs hstep =>
    outline.step hs (LockedCode.Code.step_some hstep)

end Assertions

/-! ## A pipe is a queue -/

/-- The argument of the call of `piperead` that a process is in. -/
def Code.reading : Code → Option ℤ
  | .readTest n | .readSleep n | .readCopy n _ | .readRet n _ => some n
  | _ => none

/-- **Pipes are queues.**  In every state, what the calls of `piperead` have returned is the
beginning of what was stored; the buffer is not overrun; and a call returns 0 only at the end of
the file. -/
theorem fifo [Fintype P] {c : UInt32} {maker : P} {s : State P Code Chan (Pipe P)}
    (h : Reachable pipeStep (pipealloc c maker) s) :
    s.data.returned.flatten <+: s.data.stored ∧
      (s.data.nwrite - s.data.nread).toNat ≤ PIPESIZE ∧
      ∀ p k n d, s.place p = .inside k → k.reading = some n → 0 < n →
        act k (s.killed p) s.data = .ret 0 d →
        s.data.nread = s.data.nwrite ∧ s.data.writeopen = false := by
  have hs := holds_of_reachable h
  obtain ⟨got, xs, hw, hst⟩ := hs.steady.books
  refine ⟨⟨got ++ xs, ?_⟩, ?_, fun p k n d hp hk hn ha => ?_⟩
  · rw [hst, List.append_assoc]
  · rw [hw.toNat_sub PIPESIZE_lt]
    exact hw.length_le
  · have hknows := (hs.asserts hp).knows
    cases k with
    | readRet m got =>
      cases hk
      have hlen : (got.length : ℤ) = 0 := by
        injection ha
      have hgot : got = [] := List.length_eq_zero_iff.mp (by exact_mod_cast hlen)
      obtain ⟨he, hw⟩ := hknows hn hgot
      exact ⟨of_decide_eq_true he, hw⟩
    | readTest m =>
      simp only [act] at ha
      split_ifs at ha
      cases ha
    | readSleep m => cases ha
    | readCopy m got =>
      simp only [act] at ha
      split_ifs at ha
    | _ => cases hk

/-- A process writes two bytes, over the end of the counter, and reads one. -/
def wrapRun : List (Label Bool (Call Bool) Empty) :=
  [.call true (.write (fun i => UInt8.ofNat (i + 1)) 2), .enter true, .step true, .step true,
    .step true, .step true, .call true (.read 1), .enter true, .step true, .step true, .step true,
    .step true]

theorem fifo_wrap :
    ∃ s, exec pipeStep wrapRun (pipealloc 0xffffffff true) = some s ∧
      (s.data.nwrite = 1 ∧ s.data.returned = [[1]] ∧ s.data.stored = [1, 2]) ∧
      s.data.returned.flatten <+: s.data.stored := by
  have hrun : ∃ s, exec pipeStep wrapRun (pipealloc 0xffffffff true) = some s ∧
      (s.data.nwrite = 1 ∧ s.data.returned = [[1]] ∧ s.data.stored = [1, 2]) :=
    Transition.exists_exec _ _ (by decide +kernel)
  obtain ⟨s, hs, hp⟩ := hrun
  exact ⟨s, hs, hp, (fifo ⟨wrapRun, hs⟩).1⟩

/-! ## Who sleeps on a pipe -/

/-- Why a process sleeps on a channel. -/
def Reason (c : Chan) (d : Pipe P) : Prop :=
  match c with
  | .nread => d.empty = true ∧ d.writeopen = true
  | .nwrite => d.full = true ∧ d.readopen = true

/-- The process inside will wake the sleepers on the channel. -/
def Owes (k : Code) (c : Chan) : Prop :=
  match k with
  | .writeLoop .. | .writeFull .. => c = .nread
  | .readCopy .. => c = .nwrite
  | .closeWake w => c = if w then .nread else .nwrite
  | _ => False

/-- Sleepers on `p->nread` are readers. -/
def Sleeper (c : Chan) (k : Code) : Prop := c = .nread → ∃ n, k = .readTest n

omit [DecidableEq P] in
theorem sleeper_of_act {k k' : Code} {b : Bool} {d : Pipe P} {c : Chan}
    (ha : act k b d = .sleep c k') : Sleeper c k' := by
  cases k with
  | readSleep n =>
    cases ha
    exact fun _ => ⟨n, rfl⟩
  | writeSleep addr n i =>
    cases ha
    exact nofun
  | writeLoop addr n i =>
    simp only [act] at ha
    split_ifs at ha
  | writeFull addr n i =>
    simp only [act] at ha
    split_ifs at ha
  | readTest n =>
    simp only [act] at ha
    split_ifs at ha
  | readCopy n got =>
    simp only [act] at ha
    split_ifs at ha
  | _ => cases ha

/-- **Whoever takes the reason to sleep away wakes the sleepers.** -/
theorem signals : Signals (code (P := P)) Inside Reason Owes where
  start := by
    intro p l d o d' h c hc
    obtain ⟨fds, ref, rfl⟩ := start_same h
    exact hc
  env := nofun
  goto := by
    intro p k b d k' d' hA ha c hc
    cases k with
    | writeLoop addr n i =>
      simp only [code, act] at ha
      split_ifs at ha with hi hf
      · cases ha
        exact hc
      · cases ha
        rcases hc with hc | hc
        · cases c with
          | nread => exact .inr rfl
          | nwrite => exact absurd hc.1 hf
        · exact .inr hc
    | readTest n =>
      simp only [code, act] at ha
      split_ifs at ha
      · cases ha
        exact hc
      · cases ha
        exact .inl (hc.resolve_right id)
    | readCopy n got =>
      simp only [code, act] at ha
      split_ifs at ha with hg
      cases ha
      rcases hc with hc | hc
      · cases c with
        | nread => simp [hc.1] at hg
        | nwrite => exact .inr rfl
      · exact .inr hc
    | close w =>
      cases ha
      have hc' := hc.resolve_right id
      cases c with
      | nread =>
        cases w with
        | false => exact .inl hc'
        | true => exact .inr rfl
      | nwrite =>
        cases w with
        | false => exact .inr rfl
        | true => exact .inl hc'
    | writeFull addr n i =>
      simp only [code, act] at ha
      split_ifs at ha
    | _ => cases ha
  wake := by
    intro p k b d c k' hA ha c' hne ho
    cases k with
    | writeLoop addr n i =>
      simp only [code, act] at ha
      split_ifs at ha
      cases ha
      exact absurd ho hne
    | writeFull addr n i =>
      simp only [code, act] at ha
      split_ifs at ha
      cases ha
      exact absurd ho hne
    | readCopy n got =>
      simp only [code, act] at ha
      split_ifs at ha
      cases ha
      exact absurd ho hne
    | closeWake w =>
      cases ha
      exact absurd ho hne
    | readTest n => exact ho.elim
    | writeSleep addr n i => exact ho.elim
    | writeRet n => exact ho.elim
    | readSleep n => exact ho.elim
    | readRet n got => exact ho.elim
    | close w => exact ho.elim
    | closeRet => exact ho.elim
  sleep := by
    intro p k b d c k' hA ha
    cases k with
    | writeSleep addr n i =>
      cases ha
      exact ⟨hA.knows, fun _ => id⟩
    | readSleep n =>
      cases ha
      exact ⟨hA.knows, fun _ => id⟩
    | writeLoop addr n i =>
      simp only [code, act] at ha
      split_ifs at ha
    | writeFull addr n i =>
      simp only [code, act] at ha
      split_ifs at ha
    | readTest n =>
      simp only [code, act] at ha
      split_ifs at ha
    | readCopy n got =>
      simp only [code, act] at ha
      split_ifs at ha
    | _ => cases ha

/-- The process is in `pipewrite`, at the test of `readopen` and `killed`. -/
def atFull : Place Code Chan → Bool
  | .inside (.writeFull ..) => true
  | _ => false

/-- No writer gives up because it was killed while a reader sleeps on the pipe: `pipewrite` returns
then without a wakeup. -/
def NoReaderLeft (s : State P Code Chan (Pipe P)) : Label P (Call P) Empty → Prop
  | .step p => atFull (s.place p) = true → s.killed p = true → ∀ q, ¬ (s.place q).SleepsOn .nread
  | _ => True

variable [Fintype P]

instance (s : State P Code Chan (Pipe P)) (l : Label P (Call P) Empty) :
    Decidable (NoReaderLeft s l) :=
  match l with
  | .step _ => inferInstanceAs (Decidable (_ → _ → ∀ q, ¬ (s.place q).SleepsOn .nread))
  | .call .. | .enter _ | .doze _ | .kill _ | .env _ => .isTrue trivial

omit [DecidableEq P] in
/-- Who returns owes nothing to anybody. -/
theorem reason_of_ret {s : State P Code Chan (Pipe P)} {lab : Label P (Call P) Empty}
    (h : Holds Steady (fun d => d.Books []) Inside Outside s)
    (hsl : LockedCode.Slept Sleeper s) (hC : NoReaderLeft s lab) (p : P) (k : Code) (r : ℤ)
    (d : Pipe P) (hlab : lab = .step p) (hp : s.place p = .inside k)
    (ha : act k (s.killed p) s.data = .ret r d) (q : P) (c : Chan)
    (hq : (s.place q).SleepsOn c) (hc : Reason c s.data ∨ Owes k c) : Reason c d := by
  obtain ⟨-, hl⟩ := inside_ret (h.asserts hp) ha
  have hsame : Reason c s.data → Reason c d := by
    intro hr
    have hopen := hl.isOpen
    cases c with
    | nread =>
      refine ⟨hl.empty ▸ hr.1, ?_⟩
      rw [← hr.2]
      exact congrFun hopen true
    | nwrite =>
      refine ⟨hl.full ▸ hr.1, ?_⟩
      rw [← hr.2]
      exact congrFun hopen false
  rcases hc with hc | hc
  · exact hsame hc
  · cases k with
    | writeFull addr n i =>
      obtain rfl : c = .nread := hc
      simp only [act] at ha
      split_ifs at ha with hk
      rcases hk with hk | hk
      · -- the end is closed, so nobody reads
        obtain ⟨j, hj⟩ := hq
        obtain ⟨m, rfl⟩ := hsl q .nread j hj rfl
        have hfds : 0 < s.data.fds q false := (h.expects (.inr ⟨_, _, rfl, hj⟩)).uses rfl
        have hopen := h.steady.counted.isOpen (h.steady.counted.ref_pos hfds)
        rw [show s.data.isOpen false = s.data.readopen from rfl, hk] at hopen
        cases hopen
      · subst hlab
        exact absurd hq (hC (by rw [hp]; rfl) hk q)
    | writeLoop addr n i =>
      simp only [act] at ha
      split_ifs at ha
    | readCopy n got =>
      simp only [act] at ha
      split_ifs at ha
    | closeWake w => cases ha
    | writeSleep addr n i => exact hc.elim
    | writeRet n => exact hc.elim
    | readTest n => exact hc.elim
    | readSleep n => exact hc.elim
    | readRet n got => exact hc.elim
    | close w => exact hc.elim
    | closeRet => exact hc.elim

/-- **Who sleeps on a pipe has a reason to**: in every state of a run in which no killed writer
leaves a reader asleep, when the locks are free, a sleeper on `p->nread` has found the pipe empty,
and a sleeper on `p->nwrite` has found it full, and the other end is open. -/
theorem sleepers_wait {c : UInt32} {maker : P} {ls : List (Label P (Call P) Empty)}
    {s : State P Code Chan (Pipe P)} (hx : exec pipeStep ls (pipealloc c maker) = some s)
    (hC : Along pipeStep NoReaderLeft ls (pipealloc c maker)) (hlock : s.lock = none) :
    (∀ p, (s.place p).AsleepOn .nread →
      s.data.nread = s.data.nwrite ∧ s.data.writeopen = true) ∧
    ∀ p, (s.place p).AsleepOn .nwrite →
      s.data.nwrite = s.data.nread + UInt32.ofNat PIPESIZE ∧ s.data.readopen = true := by
  have hinv : Holds Steady (fun d => d.Books []) Inside Outside s ∧ LockedCode.Slept Sleeper s ∧
      Covered Reason Owes s := by
    refine Transition.along_invariant
      (I := fun s => Holds Steady (fun d => d.Books []) Inside Outside s ∧
      LockedCode.Slept Sleeper s ∧ Covered Reason Owes s) hx hC ?_ ?_
    · refine ⟨holds_pipealloc c maker, ?_, ?_⟩
      · rintro q c k (h | h) <;> cases h
      · rintro q c ⟨k, h | h⟩ <;> cases h
    · rintro s l s' ⟨hs, hsl, hcov⟩ hCs hstep
      have hsteps := LockedCode.Code.step_some hstep
      exact ⟨outline.step hs hsteps, hsl.step sleeper_of_act hsteps,
        hcov.step signals hs (reason_of_ret hs hsl hCs) hsteps⟩
  obtain ⟨hs, -, hcov⟩ := hinv
  have hreason : ∀ p c, (s.place p).AsleepOn c → Reason c s.data := by
    rintro p c ⟨k, hp⟩
    refine (hcov p c ⟨k, .inr hp⟩).resolve_right ?_
    -- nobody is inside
    rintro ⟨q, j, hq, -⟩
    have := hs.inside hq
    rw [hlock] at this
    cases this
  exact ⟨fun p hp => (hreason p .nread hp).imp_left of_decide_eq_true,
    fun p hp => (hreason p .nwrite hp).imp_left of_decide_eq_true⟩

/-- A process reads from the empty pipe. -/
def readerSleeps (p : P) : List (Label P (Call P) Empty) :=
  [.call p (.read 1), .enter p, .step p, .step p, .doze p]

theorem sleepers_wait_reader :
    ∃ s, exec pipeStep (readerSleeps true) (pipealloc 0 true) = some s ∧
      (s.place true).AsleepOn .nread ∧ s.data.nread = s.data.nwrite ∧ s.data.writeopen = true := by
  have hrun : ∃ s, exec pipeStep (readerSleeps true) (pipealloc 0 true) = some s ∧
      (s.place true).AsleepOn .nread ∧ s.lock = none :=
    Transition.exists_exec _ _ (by decide +kernel)
  obtain ⟨s, hx, hp, hl⟩ := hrun
  have hC : Along pipeStep NoReaderLeft (readerSleeps true) (pipealloc 0 true) := by
    decide +kernel
  exact ⟨s, hx, hp, (sleepers_wait hx hC hl).1 true hp⟩

/-- A reader sleeps on the empty pipe, and a writer with more bytes than the pipe can hold is
killed when it has filled it. -/
def killedWriter : List (Label Bool (Call Bool) Empty) :=
  .call false (.share true false) :: readerSleeps true ++
    .call false (.write (fun _ => 7) 513) :: .enter false :: List.replicate 513 (.step false) ++
    [.kill false, .step false]

/-- The writer returns without a wakeup: the reader sleeps on, and the pipe is full. -/
theorem reader_sleeps_on_full_pipe :
    ∃ s, exec pipeStep killedWriter (pipealloc 0 false) = some s ∧
      s.lock = none ∧ s.table = none ∧ (s.place true).AsleepOn .nread ∧
      s.data.nread ≠ s.data.nwrite :=
  Transition.exists_exec _ _ (by decide +kernel)

end Xv6Mlfq.Ipc
