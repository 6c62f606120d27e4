import Xv6Mlfq.Lib.LinkedRing
import Xv6Mlfq.Lib.Transition
import Xv6Mlfq.Lib.WriteBack
import Xv6Mlfq.Log.Disk

/-!
# The buffer cache

`bio.c` and the queue of `ide.c`.  Any number of processes call `bread`, `bwrite` and `brelse`,
change the data of the buffers they have locked, and pass them to `log_write`; a commit of the log
is a process that does so too, with `bread`, changes, `bwrite` and `brelse` only.

What is done under `bcache.lock` or `idelock` is one step.  In `bget` both scans are one step:
`ideintr` and `log_write` can run at the same time, but they change the flags of buffers with a
`refcnt` above 0 only, and the second scan passes over those.  The disk takes a write when the
request is started, and gives the data of a read when it interrupts.  A panic is a step that is
not enabled.  `refcnt` counts processes, of which there are few, so it does not wrap around.

## Main definitions

* `Bcache` — the state: the buffers, the ring, `idequeue`, the disk, where each process is.
* `bioStep` — one step.
* `bioEvents` — what `bread` returns in a step, and what is stored in a buffer.
-/

namespace Xv6Mlfq

open Function (update)
open LinkedRing (Links scan)

/-- device number of file system root disk -/
abbrev ROOTDEV : ℕ := 1

/-- `struct buf`; `holder` is who has locked `lock`. -/
structure Buf (P : Type) where
  /-- `B_VALID` -/
  valid : Bool
  /-- `B_DIRTY` -/
  dirty : Bool
  dev : ℕ
  blockno : ℕ
  holder : Option P
  refcnt : ℕ
  data : Block
  /-- the data was changed, and the buffer not yet passed to `log_write` or `bwrite` -/
  touched : Bool

/-- Where a process is in `bio.c`: nowhere; in `bget`, in `acquiresleep`; in `bread`, back from
`bget`; in the `iderw` of `bread` or of `bwrite`; in `brelse`, after `releasesleep`.  `b` is the
block that was asked for. -/
inductive BioCall
  | out
  | locking (i : Fin NBUF) (b : ℕ)
  | locked (i : Fin NBUF) (b : ℕ)
  | reading (i : Fin NBUF) (b : ℕ)
  | writing (i : Fin NBUF)
  | releasing (i : Fin NBUF)
  deriving DecidableEq, Repr

structure Bcache (P : Type) where
  buf : Fin NBUF → Buf P
  /-- `prev` and `next` of the buffers and of `bcache.head` -/
  links : Links (Fin NBUF)
  /-- `idequeue`, along `qnext` -/
  idequeue : List (Fin NBUF)
  disk : Disk
  call : P → BioCall

inductive BioLabel (P : Type)
  | bget (p : P) (blockno : ℕ)
  | acquiresleep (p : P)
  /-- `bread`, after `bget` -/
  | bread (p : P)
  /-- the loop at the end of `iderw` -/
  | iderwDone (p : P)
  | ideintr
  /-- the process changes the data of a buffer it has locked -/
  | modify (p : P) (i : Fin NBUF) (d : Block)
  | logWrite (p : P) (i : Fin NBUF)
  | bwrite (p : P) (i : Fin NBUF)
  | brelse (p : P) (i : Fin NBUF)
  /-- `brelse`: what it does under `bcache.lock` -/
  | unref (p : P)

variable {P : Type}

namespace Bcache

/-- `binit`, with the buffers as they are in `.bss` -/
def binit (disk : Disk) : Bcache P where
  buf _ :=
    { valid := false, dirty := false, dev := 0, blockno := 0, holder := none, refcnt := 0
      data := fun _ => 0, touched := false }
  links := (List.finRange NBUF).foldl Links.pushFront Links.empty
  idequeue := []
  disk := disk
  call _ := .out

/-- The first loop of `bget`. -/
def cached (s : Bcache P) (dev blockno : ℕ) : Option (Option (Fin NBUF)) :=
  scan s.links.next (fun i => (s.buf i).dev = dev ∧ (s.buf i).blockno = blockno) (NBUF + 1)
    (s.links.next none)

/-- The second loop of `bget`. -/
def unused (s : Bcache P) : Option (Option (Fin NBUF)) :=
  scan s.links.prev (fun i => (s.buf i).refcnt = 0 ∧ (s.buf i).dirty = false) (NBUF + 1)
    (s.links.prev none)

/-- `idestart`: a write takes the data to the disk. -/
def idestart (s : Bcache P) (i : Fin NBUF) : Option (Bcache P) :=
  if (s.buf i).blockno ≥ FSSIZE then none -- panic("incorrect blockno")
  else if (s.buf i).dirty then
    some { s with disk := update s.disk (s.buf i).blockno (s.buf i).data }
  else some s

variable [DecidableEq P]

/-- `iderw`, up to the loop in which it waits for the request to finish -/
def iderw (s : Bcache P) (p : P) (i : Fin NBUF) : Option (Bcache P) :=
  if (s.buf i).holder ≠ some p then none -- panic("iderw: buf not locked")
  else if (s.buf i).valid ∧ (s.buf i).dirty = false then none -- panic("iderw: nothing to do")
  else
    let s := { s with idequeue := s.idequeue ++ [i] }
    if s.idequeue.head? = some i then s.idestart i else some s

/-- `ideintr`: the request at the head of the queue is done, and the next one is started. -/
def ideintr (s : Bcache P) : Option (Bcache P) :=
  match s.idequeue with
  | [] => some s
  | i :: q =>
    let b := s.buf i
    let data := if b.dirty then b.data else s.disk b.blockno
    let s := { s with
      idequeue := q
      buf := update s.buf i { b with data := data, valid := true, dirty := false } }
    match q with
    | [] => some s
    | j :: _ => s.idestart j

def bget (s : Bcache P) (p : P) (dev blockno : ℕ) : Option (Bcache P) :=
  if s.call p = .out then
    match s.cached dev blockno with
    | none => none
    | some (some i) =>
      some { s with
        buf := update s.buf i { s.buf i with refcnt := (s.buf i).refcnt + 1 }
        call := update s.call p (.locking i blockno) }
    | some none =>
      match s.unused with
      | some (some i) =>
        some { s with
          buf := update s.buf i { s.buf i with
            dev := dev, blockno := blockno, valid := false, dirty := false, refcnt := 1 }
          call := update s.call p (.locking i blockno) }
      | _ => none -- panic("bget: no buffers")
  else none

def acquiresleep (s : Bcache P) (p : P) : Option (Bcache P) :=
  match s.call p with
  | .locking i b =>
    if (s.buf i).holder = none then
      some { s with
        buf := update s.buf i { s.buf i with holder := some p }
        call := update s.call p (.locked i b) }
    else none
  | _ => none

def bread (s : Bcache P) (p : P) : Option (Bcache P) :=
  match s.call p with
  | .locked i b =>
    if (s.buf i).valid then some { s with call := update s.call p .out }
    else (s.iderw p i).map fun s => { s with call := update s.call p (.reading i b) }
  | _ => none

def iderwDone (s : Bcache P) (p : P) : Option (Bcache P) :=
  match s.call p with
  | .reading i _ | .writing i =>
    if (s.buf i).valid ∧ (s.buf i).dirty = false then
      some { s with call := update s.call p .out }
    else none
  | _ => none

def modify (s : Bcache P) (p : P) (i : Fin NBUF) (d : Block) : Option (Bcache P) :=
  if s.call p = .out ∧ (s.buf i).holder = some p then
    some { s with buf := update s.buf i { s.buf i with data := d, touched := true } }
  else none

/-- What `log_write` does to the buffer. -/
def logWrite (s : Bcache P) (p : P) (i : Fin NBUF) : Option (Bcache P) :=
  if s.call p = .out ∧ (s.buf i).holder = some p then
    some { s with buf := update s.buf i { s.buf i with dirty := true, touched := false } }
  else none

def bwrite (s : Bcache P) (p : P) (i : Fin NBUF) : Option (Bcache P) :=
  if s.call p = .out ∧ (s.buf i).holder = some p then
    let s := { s with buf := update s.buf i { s.buf i with dirty := true, touched := false } }
    (s.iderw p i).map fun s => { s with call := update s.call p (.writing i) }
  else none

/-- A buffer that has been changed is passed to `log_write` or `bwrite` before it is released. -/
def brelse (s : Bcache P) (p : P) (i : Fin NBUF) : Option (Bcache P) :=
  if s.call p = .out ∧ (s.buf i).holder = some p ∧ (s.buf i).touched = false then
    some { s with
      buf := update s.buf i { s.buf i with holder := none }
      call := update s.call p (.releasing i) }
  else none

def unref (s : Bcache P) (p : P) : Option (Bcache P) :=
  match s.call p with
  | .releasing i =>
    let refcnt := (s.buf i).refcnt - 1
    some { s with
      buf := update s.buf i { s.buf i with refcnt := refcnt }
      links := if refcnt = 0 then (s.links.unlink i).pushFront i else s.links
      call := update s.call p .out }
  | _ => none

end Bcache

variable [DecidableEq P]

def bioStep : BioLabel P → Bcache P → Option (Bcache P)
  | .bget p blockno, s => s.bget p ROOTDEV blockno
  | .acquiresleep p, s => s.acquiresleep p
  | .bread p, s => s.bread p
  | .iderwDone p, s => s.iderwDone p
  | .ideintr, s => s.ideintr
  | .modify p i d, s => s.modify p i d
  | .logWrite p i, s => s.logWrite p i
  | .bwrite p i, s => s.bwrite p i
  | .brelse p i, s => s.brelse p i
  | .unref p, s => s.unref p

/-- What the caller of `bread` gets, and what a holder stores. -/
def bioEvents (s : Bcache P) : BioLabel P → List (WriteBack.Event ℕ Block)
  | .bread p =>
    match s.call p with
    | .locked i b => if (s.buf i).valid then [.load b (s.buf i).data] else []
    | _ => []
  | .iderwDone p =>
    match s.call p with
    | .reading i b => [.load b (s.buf i).data]
    | _ => []
  | .modify _ i d => [.store (s.buf i).blockno d]
  | _ => []

/-! ## What a step can do -/

namespace Bcache

variable {s s' : Bcache P} {p : P} {i : Fin NBUF} {b : ℕ}

omit [DecidableEq P] in
theorem idestart_some (h : s.idestart i = some s') :
    ((s.buf i).dirty = true ∧
        s' = { s with disk := update s.disk (s.buf i).blockno (s.buf i).data }) ∨
      (s.buf i).dirty = false ∧ s' = s := by
  simp only [idestart] at h
  split_ifs at h with hb hd
  · exact .inl ⟨hd, (Option.some.inj h).symm⟩
  · exact .inr ⟨Bool.eq_false_iff.mpr hd, (Option.some.inj h).symm⟩

/-- A request is queued, and started if it is the only one. -/
theorem iderw_some (h : s.iderw p i = some s') :
    (s.buf i).holder = some p ∧ ¬ ((s.buf i).valid = true ∧ (s.buf i).dirty = false) ∧
      ((s.idequeue ++ [i]).head? = some i ∧
          ({ s with idequeue := s.idequeue ++ [i] } : Bcache P).idestart i = some s' ∨
        (s.idequeue ++ [i]).head? ≠ some i ∧ s' = { s with idequeue := s.idequeue ++ [i] }) := by
  simp only [iderw] at h
  split_ifs at h with hh hf hq
  · exact ⟨not_not.mp hh, hf, .inl ⟨hq, h⟩⟩
  · exact ⟨not_not.mp hh, hf, .inr ⟨hq, (Option.some.inj h).symm⟩⟩

theorem step_bget (h : bioStep (.bget p b) s = some s') : s.call p = .out ∧
    ((∃ i, s.cached ROOTDEV b = some (some i) ∧ s' = { s with
        buf := update s.buf i { s.buf i with refcnt := (s.buf i).refcnt + 1 }
        call := update s.call p (.locking i b) }) ∨
      s.cached ROOTDEV b = some none ∧ ∃ i, s.unused = some (some i) ∧ s' = { s with
        buf := update s.buf i { s.buf i with
          dev := ROOTDEV, blockno := b, valid := false, dirty := false, refcnt := 1 }
        call := update s.call p (.locking i b) }) := by
  simp only [bioStep, bget] at h
  split at h
  case isFalse => cases h
  case isTrue hp =>
    refine ⟨hp, ?_⟩
    split at h
    · cases h
    · next i hc => exact .inl ⟨i, hc, (Option.some.inj h).symm⟩
    · next hc =>
        split at h
        · next i hu => exact .inr ⟨hc, i, hu, (Option.some.inj h).symm⟩
        · cases h

theorem step_acquiresleep (h : bioStep (.acquiresleep p) s = some s') :
    ∃ i b, s.call p = .locking i b ∧ (s.buf i).holder = none ∧ s' = { s with
      buf := update s.buf i { s.buf i with holder := some p }
      call := update s.call p (.locked i b) } := by
  simp only [bioStep, acquiresleep] at h
  split at h
  · next i b hp =>
      split_ifs at h with hh
      exact ⟨i, b, hp, hh, (Option.some.inj h).symm⟩
  · cases h

theorem step_bread (h : bioStep (.bread p) s = some s') :
    ∃ i b, s.call p = .locked i b ∧
      ((s.buf i).valid = true ∧ s' = { s with call := update s.call p .out } ∨
        (s.buf i).valid = false ∧ ∃ t, s.iderw p i = some t ∧
          s' = { t with call := update t.call p (.reading i b) }) := by
  simp only [bioStep, bread] at h
  split at h
  · next i b hp =>
      refine ⟨i, b, hp, ?_⟩
      split_ifs at h with hv
      · exact .inl ⟨hv, (Option.some.inj h).symm⟩
      · obtain ⟨t, ht, rfl⟩ := Option.map_eq_some_iff.mp h
        exact .inr ⟨Bool.eq_false_iff.mpr hv, t, ht, rfl⟩
  · cases h

theorem step_iderwDone (h : bioStep (.iderwDone p) s = some s') :
    ∃ i, ((∃ b, s.call p = .reading i b) ∨ s.call p = .writing i) ∧ (s.buf i).valid = true ∧
      (s.buf i).dirty = false ∧ s' = { s with call := update s.call p .out } := by
  simp only [bioStep, iderwDone] at h
  split at h
  · next i b hp =>
      split_ifs at h with hv
      exact ⟨i, .inl ⟨b, hp⟩, hv.1, hv.2, (Option.some.inj h).symm⟩
  · next i hp =>
      split_ifs at h with hv
      exact ⟨i, .inr hp, hv.1, hv.2, (Option.some.inj h).symm⟩
  · cases h

/-- The buffer of a request that is done. -/
def done (s : Bcache P) (i : Fin NBUF) : Buf P :=
  { s.buf i with
    data := if (s.buf i).dirty then (s.buf i).data else s.disk (s.buf i).blockno
    valid := true
    dirty := false }

theorem step_ideintr (h : bioStep .ideintr s = some s') :
    s.idequeue = [] ∧ s' = s ∨
      ∃ i q, s.idequeue = i :: q ∧
        (q = [] ∧ s' = { s with idequeue := q, buf := update s.buf i (s.done i) } ∨
          ∃ j, q.head? = some j ∧
            ({ s with idequeue := q, buf := update s.buf i (s.done i) } : Bcache P).idestart j =
              some s') := by
  simp only [bioStep, ideintr] at h
  split at h
  · next hq => exact .inl ⟨hq, (Option.some.inj h).symm⟩
  · next i q hq =>
      refine .inr ⟨i, q, hq, ?_⟩
      cases q with
      | nil => exact .inl ⟨rfl, (Option.some.inj h).symm⟩
      | cons j q => exact .inr ⟨j, rfl, h⟩

theorem step_modify {d : Block} (h : bioStep (.modify p i d) s = some s') :
    s.call p = .out ∧ (s.buf i).holder = some p ∧
      s' = { s with buf := update s.buf i { s.buf i with data := d, touched := true } } := by
  simp only [bioStep, modify] at h
  split_ifs at h with hp
  exact ⟨hp.1, hp.2, (Option.some.inj h).symm⟩

theorem step_logWrite (h : bioStep (.logWrite p i) s = some s') :
    s.call p = .out ∧ (s.buf i).holder = some p ∧
      s' = { s with buf := update s.buf i { s.buf i with dirty := true, touched := false } } := by
  simp only [bioStep, logWrite] at h
  split_ifs at h with hp
  exact ⟨hp.1, hp.2, (Option.some.inj h).symm⟩

theorem step_bwrite (h : bioStep (.bwrite p i) s = some s') :
    s.call p = .out ∧ (s.buf i).holder = some p ∧
      ∃ t, ({ s with buf := update s.buf i { s.buf i with dirty := true, touched := false } } :
          Bcache P).iderw p i = some t ∧
        s' = { t with call := update t.call p (.writing i) } := by
  simp only [bioStep, bwrite] at h
  split_ifs at h with hp
  obtain ⟨t, ht, rfl⟩ := Option.map_eq_some_iff.mp h
  exact ⟨hp.1, hp.2, t, ht, rfl⟩

theorem step_brelse (h : bioStep (.brelse p i) s = some s') :
    s.call p = .out ∧ (s.buf i).holder = some p ∧ (s.buf i).touched = false ∧ s' = { s with
      buf := update s.buf i { s.buf i with holder := none }
      call := update s.call p (.releasing i) } := by
  simp only [bioStep, brelse] at h
  split_ifs at h with hp
  exact ⟨hp.1, hp.2.1, hp.2.2, (Option.some.inj h).symm⟩

theorem step_unref (h : bioStep (.unref p) s = some s') :
    ∃ i, s.call p = .releasing i ∧ s' = { s with
      buf := update s.buf i { s.buf i with refcnt := (s.buf i).refcnt - 1 }
      links := if (s.buf i).refcnt - 1 = 0 then (s.links.unlink i).pushFront i else s.links
      call := update s.call p .out } := by
  simp only [bioStep, unref] at h
  split at h
  · next i hp => exact ⟨i, hp, (Option.some.inj h).symm⟩
  · cases h

end Bcache

end Xv6Mlfq
