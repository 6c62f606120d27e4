import Xv6Mlfq.Lib.Tally
import Xv6Mlfq.Bio.Cache

/-!
# Who uses a buffer

The invariants of the buffer cache that do not speak of the contents of the blocks.  A buffer is
kept by its `refcnt`, which counts the processes that wait for its lock, have it, or have just
released it.  The holder of the lock is the only one to change the data and the flags, except for
the disk, which does so while the holder waits in `iderw`.

## Main definitions

* `Own`, `Flags`, `Requests`, `Linked` — references and locks, the flags, `idequeue`, the ring.

## Main results

* `Bcache.inv_step` — every step keeps all four.
-/

namespace Xv6Mlfq

open Function (update update_self update_of_ne)
open LinkedRing (Holds scan)
open Tally (tally)

variable {P : Type}

namespace BioCall

/-- The buffer that the process has a reference to and has not locked. -/
def refs : BioCall → Option (Fin NBUF)
  | .locking i _ | .releasing i => some i
  | _ => none

/-- The buffer that the process has locked and works on. -/
def holds : BioCall → Option (Fin NBUF)
  | .locked i _ | .reading i _ | .writing i => some i
  | _ => none

/-- The buffer that the process waits for in `iderw`. -/
def waits : BioCall → Option (Fin NBUF)
  | .reading i _ | .writing i => some i
  | _ => none

/-- What `bget` found for which block. -/
def asked : BioCall → Option (Fin NBUF × ℕ)
  | .locking i b | .locked i b | .reading i b => some (i, b)
  | _ => none

/-- The process has not yet read the buffer. -/
def unread : BioCall → Option (Fin NBUF)
  | .locked i _ | .reading i _ => some i
  | _ => none

theorem holds_of_waits {c : BioCall} {i : Fin NBUF} (h : c.waits = some i) : c.holds = some i := by
  cases c with
  | reading | writing => exact h
  | out | locking | locked | releasing => cases h

theorem refs_or_holds {c : BioCall} {i : Fin NBUF} {b : ℕ} (h : c.asked = some (i, b)) :
    c.refs = some i ∨ c.holds = some i := by
  cases c with
  | locking => cases h; exact .inl rfl
  | locked | reading => cases h; exact .inr rfl
  | out | writing | releasing => cases h

end BioCall

/-- The buffer is for the block. -/
def Buf.Carries (x : Buf P) (b : ℕ) : Prop := x.dev = ROOTDEV ∧ x.blockno = b

/-- The lock counts as a reference. -/
def Buf.locks (x : Buf P) : ℕ := if x.holder = none then 0 else 1

/-- References and locks. -/
structure Own (s : Bcache P) : Prop where
  count : ∀ i, ((s.buf i).refcnt : ℕ∞) =
    tally s.call (fun c => c.refs = some i) + (s.buf i).locks
  asked : ∀ {p i b}, (s.call p).asked = some (i, b) → (s.buf i).Carries b
  holds : ∀ {p i}, (s.call p).holds = some i → (s.buf i).holder = some p
  dev : ∀ {p i}, (s.buf i).holder = some p → (s.buf i).dev = ROOTDEV

/-- A buffer by itself. -/
structure Buf.Ok (x : Buf P) : Prop where
  valid : x.valid = true → x.dev = ROOTDEV
  dirty : x.dirty = true → x.valid = true
  touched : x.touched = true → x.holder ≠ none

/-- The flags of the buffers. -/
structure Flags (s : Bcache P) : Prop where
  ok : ∀ i, (s.buf i).Ok
  read : ∀ {i p}, (s.buf i).holder = some p →
    (s.buf i).valid = true ∨ (s.call p).unread = some i

/-- The requests to the disk. -/
structure Requests (s : Bcache P) : Prop where
  nodup : s.idequeue.Nodup
  flags : ∀ i ∈ s.idequeue, (s.buf i).valid = (s.buf i).dirty
  waits : ∀ i ∈ s.idequeue, ∃ p, (s.call p).waits = some i
  active : ∀ i, s.idequeue.head? = some i → (s.buf i).dirty = true →
    s.disk (s.buf i).blockno = (s.buf i).data

/-- The ring is a permutation of all buffers. -/
def Linked (s : Bcache P) : Prop := ∃ xs, Holds s.links xs ∧ xs.Perm (List.finRange NBUF)

structure Bcache.Inv (s : Bcache P) : Prop where
  own : Own s
  flags : Flags s
  requests : Requests s
  linked : Linked s

/-! ## References and locks -/

section Own

variable {s : Bcache P} {p : P} {i : Fin NBUF}

theorem Own.refcnt_of_refs (h : Own s) (hp : (s.call p).refs = some i) :
    (s.buf i).refcnt ≠ 0 := by
  intro h0
  have hpos := Tally.tally_pos (f := s.call) (Q := fun c => c.refs = some i) hp
  have hc := h.count i
  rw [h0, eq_comm, Nat.cast_zero, add_eq_zero] at hc
  rw [hc.1] at hpos
  exact lt_irrefl _ hpos

theorem Own.refcnt_of_holder (h : Own s) (hp : (s.buf i).holder = some p) :
    (s.buf i).refcnt ≠ 0 := by
  intro h0
  have hc := h.count i
  rw [h0, eq_comm, Nat.cast_zero, add_eq_zero] at hc
  simp [Buf.locks, hp] at hc

/-- What a buffer without references is not. -/
theorem Own.unused (h : Own s) (h0 : (s.buf i).refcnt = 0) :
    (s.buf i).holder = none ∧ ∀ q, (s.call q).refs ≠ some i ∧ (s.call q).holds ≠ some i := by
  refine ⟨?_, fun q => ⟨fun hq => h.refcnt_of_refs hq h0,
    fun hq => h.refcnt_of_holder (h.holds hq) h0⟩⟩
  cases hh : (s.buf i).holder with
  | none => rfl
  | some q => exact absurd h0 (h.refcnt_of_holder hh)

/-- The data and the flags do not matter. -/
theorem Own.congr {s' : Bcache P} (h : Own s) (hc : s'.call = s.call)
    (hb : ∀ j, (s'.buf j).holder = (s.buf j).holder ∧ (s'.buf j).refcnt = (s.buf j).refcnt ∧
      (s'.buf j).dev = (s.buf j).dev ∧ (s'.buf j).blockno = (s.buf j).blockno) : Own s' := by
  constructor
  case count =>
    intro j
    rw [hc, Buf.locks, (hb j).1, (hb j).2.1]
    exact h.count j
  case asked =>
    intro q j b hq
    rw [hc] at hq
    rw [Buf.Carries, (hb j).2.2.1, (hb j).2.2.2]
    exact h.asked hq
  case holds =>
    intro q j hq
    rw [hc] at hq
    rw [(hb j).1, h.holds hq]
  case dev =>
    intro q j hq
    rw [(hb j).1] at hq
    rw [(hb j).2.2.1, h.dev hq]

/-- What an update of one buffer does not change for any. -/
theorem same_update {α : Type} (f : Buf P → α) {x : Buf P} (h : f x = f (s.buf i)) (j : Fin NBUF) :
    f (update s.buf i x j) = f (s.buf j) := by
  by_cases hj : j = i
  · rw [hj, update_self, h]
  · rw [update_of_ne hj]

theorem Own.setBuf {x : Buf P} (h : Own s) (hh : x.holder = (s.buf i).holder)
    (hr : x.refcnt = (s.buf i).refcnt) (hd : x.dev = (s.buf i).dev)
    (hb : x.blockno = (s.buf i).blockno) : Own { s with buf := update s.buf i x } :=
  h.congr rfl fun j => ⟨same_update Buf.holder hh j, same_update Buf.refcnt hr j,
    same_update Buf.dev hd j, same_update Buf.blockno hb j⟩

variable [DecidableEq P]

variable {x : BioCall} {b : ℕ}

theorem refs_enter {call : P → BioCall} (hp : (call p).refs ≠ some i) (hx : x.refs = some i) :
    tally (update call p x) (fun c => c.refs = some i) =
      tally call (fun c => c.refs = some i) + 1 :=
  Tally.tally_enter hp hx

theorem refs_leave {call : P → BioCall} (hp : (call p).refs = some i) (hx : x.refs ≠ some i) :
    tally (update call p x) (fun c => c.refs = some i) + 1 =
      tally call (fun c => c.refs = some i) :=
  Tally.tally_leave hp hx

/-- The process goes on; its references stay. -/
theorem Own.move (h : Own s) (hr : x.refs = (s.call p).refs)
    (ha : ∀ i b, x.asked = some (i, b) → (s.buf i).Carries b)
    (hh : ∀ i, x.holds = some i → (s.buf i).holder = some p) :
    Own { s with call := update s.call p x } := by
  constructor
  case count =>
    intro j
    rw [Tally.tally_same (by rw [hr])]
    exact h.count j
  case asked =>
    intro q j b hq
    by_cases hqp : q = p
    · subst hqp
      simp only [update_self] at hq
      exact ha j b hq
    · simp only [update_of_ne hqp] at hq
      exact h.asked hq
  case holds =>
    intro q j hq
    by_cases hqp : q = p
    · subst hqp
      simp only [update_self] at hq
      exact hh j hq
    · simp only [update_of_ne hqp] at hq
      exact h.holds hq
  case dev => exact h.dev

/-- The process gets or gives up a reference, or exchanges it for the lock; only this buffer is
concerned. -/
theorem Own.refer {x : BioCall} {b : Buf P} (h : Own s)
    (hothers : ∀ j, j ≠ i → (x.refs = some j ↔ (s.call p).refs = some j))
    (hcount : (b.refcnt : ℕ∞) =
      tally (update s.call p x) (fun c => c.refs = some i) + b.locks)
    (hasked : ∀ q n, q ≠ p → (s.call q).asked = some (i, n) → b.Carries n)
    (hholds : ∀ q, q ≠ p → (s.call q).holds = some i → b.holder = some q)
    (hdev : b.holder ≠ none → b.dev = ROOTDEV)
    (ha : ∀ j n, x.asked = some (j, n) → j = i ∧ b.Carries n)
    (hh : ∀ j, x.holds = some j → j = i ∧ b.holder = some p) :
    Own { s with buf := update s.buf i b, call := update s.call p x } := by
  constructor
  case count =>
    intro j
    by_cases hj : j = i
    · subst hj
      simpa using hcount
    · simp only [update_of_ne hj]
      rw [Tally.tally_same (hothers j hj)]
      exact h.count j
  case asked =>
    intro q j n hq
    by_cases hqp : q = p
    · subst hqp
      simp only [update_self] at hq
      obtain ⟨rfl, hc⟩ := ha j n hq
      simpa using hc
    · simp only [update_of_ne hqp] at hq
      by_cases hj : j = i
      · subst hj
        simpa using hasked q n hqp hq
      · simp only [update_of_ne hj]
        exact h.asked hq
  case holds =>
    intro q j hq
    by_cases hqp : q = p
    · subst hqp
      simp only [update_self] at hq
      obtain ⟨rfl, hc⟩ := hh j hq
      simpa using hc
    · simp only [update_of_ne hqp] at hq
      by_cases hj : j = i
      · subst hj
        simpa using hholds q hqp hq
      · simp only [update_of_ne hj]
        exact h.holds hq
  case dev =>
    intro q j hq
    by_cases hj : j = i
    · subst hj
      simp only [update_self] at hq ⊢
      exact hdev (by simp [hq])
    · simp only [update_of_ne hj] at hq ⊢
      exact h.dev hq

theorem Own.hit (h : Own s) (hp : s.call p = .out) (hb : (s.buf i).Carries b) : Own { s with
      buf := update s.buf i { s.buf i with refcnt := (s.buf i).refcnt + 1 }
      call := update s.call p (.locking i b) } := by
  refine h.refer (fun j hj => ?_) ?_ (fun q n _ hq => h.asked hq) (fun q _ hq => h.holds hq)
    (fun hh => ?_) (fun j n hj => ?_) (fun j hj => nomatch hj)
  · simp [hp, BioCall.refs, Ne.symm hj]
  · rw [refs_enter (by simp [hp, BioCall.refs]) rfl, add_right_comm]
    show (((s.buf i).refcnt + 1 : ℕ) : ℕ∞) = _ + ((s.buf i).locks : ℕ∞) + 1
    rw [← h.count i, Nat.cast_succ]
  · obtain ⟨q, hq⟩ := Option.ne_none_iff_exists'.mp hh
    exact h.dev hq
  · cases hj
    exact ⟨rfl, hb⟩

theorem Own.recycle (h : Own s) (hp : s.call p = .out) (h0 : (s.buf i).refcnt = 0) : Own { s with
      buf := update s.buf i { s.buf i with
        dev := ROOTDEV, blockno := b, valid := false, dirty := false, refcnt := 1 }
      call := update s.call p (.locking i b) } := by
  obtain ⟨hh, hun⟩ := h.unused h0
  refine h.refer (fun j hj => ?_) ?_ (fun q n _ hq => ?_) (fun q _ hq => absurd hq (hun q).2)
    (fun _ => rfl) (fun j n hj => ?_) (fun j hj => nomatch hj)
  · simp [hp, BioCall.refs, Ne.symm hj]
  · have ht : tally s.call (fun c => c.refs = some i) = 0 :=
      Tally.tally_eq_zero.mpr fun q => (hun q).1
    rw [refs_enter (by simp [hp, BioCall.refs]) rfl, ht]
    simp [Buf.locks, hh]
  · exact ((BioCall.refs_or_holds hq).elim (hun q).1 (hun q).2).elim
  · cases hj
    exact ⟨rfl, rfl, rfl⟩

theorem Own.lock (h : Own s) (hp : s.call p = .locking i b) (hn : (s.buf i).holder = none) :
    Own { s with
      buf := update s.buf i { s.buf i with holder := some p }
      call := update s.call p (.locked i b) } := by
  have hb : (s.buf i).Carries b := h.asked (p := p) (by rw [hp]; rfl)
  refine h.refer (fun j hj => ?_) ?_ (fun q n _ hq => h.asked hq) (fun q _ hq => ?_)
    (fun _ => hb.1) (fun j n hj => ?_) (fun j hj => ?_)
  · simp [hp, BioCall.refs, Ne.symm hj]
  · have hleave : tally (update s.call p (.locked i b)) (fun c => c.refs = some i) + 1 = _ :=
      refs_leave (by rw [hp]; rfl) nofun
    simp only [Buf.locks, reduceCtorEq, if_false, Nat.cast_one]
    rw [hleave, h.count i, Buf.locks, if_pos hn, Nat.cast_zero, add_zero]
  · rw [h.holds hq] at hn
    cases hn
  · cases hj
    exact ⟨rfl, hb⟩
  · cases hj
    exact ⟨rfl, rfl⟩

theorem Own.release (h : Own s) (hp : s.call p = .out) (hh : (s.buf i).holder = some p) :
    Own { s with
      buf := update s.buf i { s.buf i with holder := none }
      call := update s.call p (.releasing i) } := by
  refine h.refer (fun j hj => ?_) ?_ (fun q n _ hq => h.asked hq) (fun q hqp hq => ?_)
    (fun hn => absurd rfl hn) (fun j n hj => nomatch hj) (fun j hj => nomatch hj)
  · simp [hp, BioCall.refs, Ne.symm hj]
  · rw [refs_enter (by simp [hp, BioCall.refs]) rfl]
    simp [h.count i, Buf.locks, hh]
  · exact absurd (Option.some.inj ((h.holds hq).symm.trans hh)) hqp

theorem Own.unref (h : Own s) (hp : s.call p = .releasing i) :
    Own { s with
      buf := update s.buf i { s.buf i with refcnt := (s.buf i).refcnt - 1 }
      call := update s.call p .out } := by
  refine h.refer (fun j hj => ?_) ?_ (fun q n _ hq => h.asked hq) (fun q _ hq => h.holds hq)
    (fun hh => ?_) (fun j n hj => nomatch hj) (fun j hj => nomatch hj)
  · simp [hp, BioCall.refs, Ne.symm hj]
  · obtain ⟨n, hn⟩ := Nat.exists_eq_succ_of_ne_zero
      (h.refcnt_of_refs (p := p) (i := i) (by rw [hp]; rfl))
    have hleave : tally (update s.call p .out) (fun c => c.refs = some i) + 1 = _ :=
      refs_leave (by rw [hp]; rfl) nofun
    have hc := h.count i
    rw [hn, ← hleave, add_right_comm, Nat.cast_succ] at hc
    rw [hn]
    exact ENat.add_left_injective_of_ne_top ENat.one_ne_top hc
  · obtain ⟨q, hq⟩ := Option.ne_none_iff_exists'.mp hh
    exact h.dev hq

end Own

/-! ## The flags -/

section Flags

variable {s : Bcache P} {p : P} {i : Fin NBUF}

theorem Flags.valid_of_out (h : Flags s) (hp : s.call p = .out)
    (hh : (s.buf i).holder = some p) : (s.buf i).valid = true :=
  (h.read hh).resolve_right (by simp [hp, BioCall.unread])

theorem Flags.setBuf {x : Buf P} (h : Flags s) (hok : x.Ok)
    (hread : ∀ q, x.holder = some q → x.valid = true ∨ (s.call q).unread = some i) :
    Flags { s with buf := update s.buf i x } := by
  constructor
  case ok =>
    intro j
    by_cases hj : j = i
    · subst hj
      simpa using hok
    · simpa [hj] using h.ok j
  case read =>
    intro j q hq
    by_cases hj : j = i
    · subst hj
      simp only [update_self] at hq ⊢
      exact hread q hq
    · simp only [update_of_ne hj] at hq ⊢
      exact h.read hq

theorem Flags.move [DecidableEq P] {x : BioCall} (h : Flags s)
    (hx : ∀ j, (s.call p).unread = some j → (s.buf j).valid = true ∨ x.unread = some j) :
    Flags { s with call := update s.call p x } := by
  refine ⟨h.ok, fun {j q} hq => ?_⟩
  by_cases hqp : q = p
  · subst hqp
    simp only [update_self]
    rcases h.read hq with hv | hu
    · exact .inl hv
    · exact hx j hu
  · simp only [update_of_ne hqp]
    exact h.read hq

end Flags

/-! ## The requests -/

section Requests

variable {s t : Bcache P} {p : P} {i : Fin NBUF}

/-- A buffer whose holder is not in `iderw` is not queued. -/
theorem Requests.notMem (h : Requests s) (ho : Own s) (hh : (s.buf i).holder = some p)
    (hp : (s.call p).waits = none) : i ∉ s.idequeue := by
  intro hi
  obtain ⟨q, hq⟩ := h.waits i hi
  have hqi := ho.holds (BioCall.holds_of_waits hq)
  obtain rfl : q = p := Option.some.inj (hqi.symm.trans hh)
  rw [hp] at hq
  cases hq

theorem Requests.notMem_of_unused (h : Requests s) (ho : Own s) (h0 : (s.buf i).refcnt = 0) :
    i ∉ s.idequeue := by
  intro hi
  obtain ⟨q, hq⟩ := h.waits i hi
  exact ((ho.unused h0).2 q).2 (BioCall.holds_of_waits hq)

theorem Requests.setBuf {x : Buf P} (h : Requests s)
    (hx : i ∈ s.idequeue → x.valid = (s.buf i).valid ∧ x.dirty = (s.buf i).dirty ∧
      x.blockno = (s.buf i).blockno ∧ x.data = (s.buf i).data) :
    Requests { s with buf := update s.buf i x } := by
  have hsame : ∀ j ∈ s.idequeue, (update s.buf i x j).valid = (s.buf j).valid ∧
      (update s.buf i x j).dirty = (s.buf j).dirty ∧
      (update s.buf i x j).blockno = (s.buf j).blockno ∧
      (update s.buf i x j).data = (s.buf j).data := by
    intro j hj
    by_cases hji : j = i
    · subst hji
      simpa using hx hj
    · simp [hji]
  refine ⟨h.nodup, fun j hj => ?_, h.waits, fun j hj hd => ?_⟩
  · obtain ⟨hv, hd, -, -⟩ := hsame j hj
    simp only [hv, hd]
    exact h.flags j hj
  · obtain ⟨-, hd', hb, hdata⟩ := hsame j (List.mem_of_mem_head? hj)
    simp only [hd'] at hd
    simp only [hb, hdata]
    exact h.active j hj hd

variable [DecidableEq P]

theorem Requests.move {x : BioCall} (h : Requests s)
    (hx : ∀ j ∈ s.idequeue, (s.call p).waits = some j → x.waits = some j) :
    Requests { s with call := update s.call p x } := by
  refine ⟨h.nodup, h.flags, fun j hj => ?_, h.active⟩
  obtain ⟨q, hq⟩ := h.waits j hj
  refine ⟨q, ?_⟩
  by_cases hqp : q = p
  · subst hqp
    simpa using hx j hj hq
  · simpa [hqp] using hq

/-- What `idestart` leaves alone. -/
structure SameButDisk (s t : Bcache P) : Prop where
  buf : t.buf = s.buf
  call : t.call = s.call
  links : t.links = s.links
  idequeue : t.idequeue = s.idequeue

omit [DecidableEq P] in
/-- The request at the head has been started. -/
theorem idestart_spec (h : s.idestart i = some t) : SameButDisk s t ∧
    ((s.buf i).dirty = true → t.disk (s.buf i).blockno = (s.buf i).data) := by
  rcases Bcache.idestart_some h with ⟨-, rfl⟩ | ⟨hd, rfl⟩
  · exact ⟨⟨rfl, rfl, rfl, rfl⟩, fun _ => update_self ..⟩
  · refine ⟨⟨rfl, rfl, rfl, rfl⟩, fun hd' => ?_⟩
    rw [hd] at hd'
    cases hd'

theorem iderw_spec (h : s.iderw p i = some t) :
    SameButDisk { s with idequeue := s.idequeue ++ [i] } t ∧
      (s.idequeue ≠ [] → i ∉ s.idequeue → t.disk = s.disk) ∧
      (s.idequeue = [] → (s.buf i).dirty = true →
        t.disk (s.buf i).blockno = (s.buf i).data) := by
  obtain ⟨-, -, ⟨hq, ht⟩ | ⟨hq, rfl⟩⟩ := Bcache.iderw_some h
  · obtain ⟨hsame, hdisk⟩ := idestart_spec ht
    refine ⟨hsame, fun hne hi => absurd (List.mem_of_mem_head? ?_) hi, fun _ => hdisk⟩
    rwa [List.head?_append_of_ne_nil _ hne] at hq
  · exact ⟨⟨rfl, rfl, rfl, rfl⟩, fun _ _ => rfl, fun he => absurd (by rw [he]; rfl) hq⟩

/-- A process starts to wait for a request. -/
theorem Requests.iderw {x : BioCall} (h : Requests s) (hi : i ∉ s.idequeue)
    (hf : (s.buf i).valid = (s.buf i).dirty) (hp : (s.call p).waits = none)
    (hx : x.waits = some i) (ht : s.iderw p i = some t) :
    Requests { t with call := update t.call p x } := by
  obtain ⟨⟨hbuf, hcall, -, hqueue⟩, hdisk, hstart⟩ := iderw_spec ht
  have hmem : ∀ j ∈ t.idequeue, j ∈ s.idequeue ∨ j = i := by
    intro j hj
    simpa [hqueue] using hj
  constructor
  case nodup =>
    rw [hqueue, ← List.concat_eq_append]
    exact h.nodup.concat hi
  case flags =>
    intro j hj
    simp only [hbuf]
    rcases hmem j hj with hj | rfl
    · exact h.flags j hj
    · exact hf
  case waits =>
    intro j hj
    rcases hmem j hj with hj | rfl
    · obtain ⟨q, hq⟩ := h.waits j hj
      have hqp : q ≠ p := by
        rintro rfl
        rw [hp] at hq
        cases hq
      exact ⟨q, by simpa [hqp, hcall] using hq⟩
    · exact ⟨p, by simpa using hx⟩
  case active =>
    intro j hj hd
    simp only [hqueue, hbuf] at hj hd ⊢
    by_cases hne : s.idequeue = []
    · obtain rfl : i = j := by simpa [hne] using hj
      exact hstart hne hd
    · rw [List.head?_append_of_ne_nil _ hne] at hj
      rw [hdisk hne hi]
      exact h.active j hj hd

omit [DecidableEq P] in
/-- The first request is done, and the next one is started. -/
theorem Requests.next {q : List (Fin NBUF)} {x : Buf P} (h : Requests s)
    (hq : s.idequeue = i :: q) (hsame : SameButDisk
      { s with idequeue := q, buf := update s.buf i x } t)
    (hstart : ∀ j, q.head? = some j → (s.buf j).dirty = true →
      t.disk (s.buf j).blockno = (s.buf j).data) : Requests t := by
  have hbuf : t.buf = update s.buf i x := hsame.buf
  have hqueue : t.idequeue = q := hsame.idequeue
  obtain ⟨hi, hn⟩ := List.nodup_cons.mp (hq ▸ h.nodup)
  have hother : ∀ j ∈ q, t.buf j = s.buf j := by
    intro j hj
    have hji : j ≠ i := by
      rintro rfl
      exact hi hj
    rw [hbuf, update_of_ne hji]
  have hmem : ∀ j ∈ t.idequeue, j ∈ q ∧ j ∈ s.idequeue := by
    intro j hj
    rw [hqueue] at hj
    exact ⟨hj, hq ▸ List.mem_cons_of_mem i hj⟩
  refine ⟨hqueue ▸ hn, fun j hj => ?_, fun j hj => ?_, fun j hj hd => ?_⟩
  · rw [hother j (hmem j hj).1]
    exact h.flags j (hmem j hj).2
  · rw [hsame.call]
    exact h.waits j (hmem j hj).2
  · have hjq := (hmem j (List.mem_of_mem_head? hj)).1
    rw [hother j hjq] at hd ⊢
    exact hstart j (hqueue ▸ hj) hd

end Requests

/-! ## Whole steps -/

namespace Bcache

variable {s s' : Bcache P}

/-- A loop along the ring goes through all buffers. -/
theorem scan_next (h : Linked s) (f : Fin NBUF → Bool) : ∃ xs : List (Fin NBUF), (∀ i, i ∈ xs) ∧
    scan s.links.next f (NBUF + 1) (s.links.next none) = some (xs.find? f) := by
  obtain ⟨xs, hxs, hperm⟩ := h
  have hlen : xs.length = NBUF := by rw [hperm.length_eq, List.length_finRange]
  have hscan := hxs.scan_next f
  rw [hlen] at hscan
  exact ⟨xs, fun i => hperm.mem_iff.mpr (List.mem_finRange i), hscan⟩

theorem scan_prev (h : Linked s) (f : Fin NBUF → Bool) : ∃ xs : List (Fin NBUF), (∀ i, i ∈ xs) ∧
    scan s.links.prev f (NBUF + 1) (s.links.prev none) = some (xs.find? f) := by
  obtain ⟨xs, hxs, hperm⟩ := h
  have hlen : xs.length = NBUF := by rw [hperm.length_eq, List.length_finRange]
  have hscan := hxs.scan_prev f
  rw [hlen] at hscan
  refine ⟨xs.reverse, fun i => ?_, hscan⟩
  exact List.mem_reverse.mpr (hperm.mem_iff.mpr (List.mem_finRange i))

theorem cached_some (h : Linked s) {dev b : ℕ} {i : Fin NBUF}
    (hc : s.cached dev b = some (some i)) : (s.buf i).dev = dev ∧ (s.buf i).blockno = b := by
  obtain ⟨xs, -, hscan⟩ := scan_next h fun i => (s.buf i).dev = dev ∧ (s.buf i).blockno = b
  rw [cached, hscan] at hc
  simpa using List.find?_some (Option.some.inj hc)

theorem cached_none (h : Linked s) {dev b : ℕ} (hc : s.cached dev b = some none)
    (i : Fin NBUF) : ¬ ((s.buf i).dev = dev ∧ (s.buf i).blockno = b) := by
  obtain ⟨xs, hall, hscan⟩ := scan_next h fun i => (s.buf i).dev = dev ∧ (s.buf i).blockno = b
  rw [cached, hscan] at hc
  simpa using List.find?_eq_none.mp (Option.some.inj hc) i (hall i)

theorem unused_some (h : Linked s) {i : Fin NBUF} (hu : s.unused = some (some i)) :
    (s.buf i).refcnt = 0 ∧ (s.buf i).dirty = false := by
  obtain ⟨xs, -, hscan⟩ := scan_prev h fun i => (s.buf i).refcnt = 0 ∧ (s.buf i).dirty = false
  rw [unused, hscan] at hu
  simpa using List.find?_some (Option.some.inj hu)

theorem linked_congr (h : Linked s) (hl : s'.links = s.links) : Linked s' := by
  rwa [Linked, hl]

/-- A buffer is moved to the front of the ring. -/
theorem linked_moveFront (h : Linked s) {i : Fin NBUF}
    (hl : s'.links = (s.links.unlink i).pushFront i) : Linked s' := by
  obtain ⟨xs, hxs, hperm⟩ := h
  obtain ⟨ys, hys, hperm'⟩ := hxs.moveFront (hperm.mem_iff.mpr (List.mem_finRange i))
  exact ⟨ys, hl ▸ hys, hperm'.trans hperm⟩

variable [DecidableEq P] {p : P} {i : Fin NBUF} {b : ℕ}

/-- Nothing but a reference or a lock has changed. -/
theorem Inv.refer {x : Buf P} {c : BioCall} (h : Inv s)
    (ho : Own { s with buf := update s.buf i x, call := update s.call p c })
    (hf : Flags { s with buf := update s.buf i x, call := update s.call p c })
    (hx : x.valid = (s.buf i).valid ∧ x.dirty = (s.buf i).dirty ∧
      x.blockno = (s.buf i).blockno ∧ x.data = (s.buf i).data)
    (hp : (s.call p).waits = none) :
    Inv { s with buf := update s.buf i x, call := update s.call p c } where
  own := ho
  flags := hf
  requests := (h.requests.setBuf fun _ => hx).move (p := p) fun j _ hj => by
    rw [hp] at hj
    cases hj
  linked := h.linked

theorem inv_bget (h : Inv s) (hs : bioStep (.bget p b) s = some s') : Inv s' := by
  obtain ⟨hp, ⟨i, hc, rfl⟩ | ⟨-, i, hu, rfl⟩⟩ := step_bget hs
  · have hok := h.flags.ok i
    have hf := (h.flags.setBuf (i := i) (x := { s.buf i with refcnt := (s.buf i).refcnt + 1 })
      ⟨hok.valid, hok.dirty, hok.touched⟩ fun q hq => h.flags.read hq).move (p := p)
        (x := .locking i b) (by simp [hp, BioCall.unread])
    exact h.refer (h.own.hit hp (cached_some h.linked hc)) hf ⟨rfl, rfl, rfl, rfl⟩
      (by rw [hp]; rfl)
  · obtain ⟨h0, hd⟩ := unused_some h.linked hu
    have hnone := (h.own.unused h0).1
    have hok := h.flags.ok i
    have hi := h.requests.notMem_of_unused h.own h0
    refine ⟨h.own.recycle hp h0, Flags.move (s := { s with buf := update s.buf i _ }) ?_ ?_,
      Requests.move (s := { s with buf := update s.buf i _ }) ?_ ?_, h.linked⟩
    · exact h.flags.setBuf ⟨nofun, nofun, hok.touched⟩ fun q hq => by simp [hnone] at hq
    · simp [hp, BioCall.unread]
    · exact h.requests.setBuf fun hm => absurd hm hi
    · simp [hp, BioCall.waits]

theorem inv_acquiresleep (h : Inv s) (hs : bioStep (.acquiresleep p) s = some s') : Inv s' := by
  obtain ⟨i, b, hp, hn, rfl⟩ := step_acquiresleep hs
  have hok := h.flags.ok i
  have hf := (h.flags.move (p := p) (x := .locked i b) (by simp [hp, BioCall.unread])).setBuf
    (i := i) (x := { s.buf i with holder := some p }) ⟨hok.valid, hok.dirty, fun _ => nofun⟩
    (by rintro q ⟨⟩; simp [BioCall.unread])
  exact h.refer (h.own.lock hp hn) hf ⟨rfl, rfl, rfl, rfl⟩ (by rw [hp]; rfl)

/-- The process is back from `bread`, `bwrite`. -/
theorem Inv.ret (h : Inv s) (hr : (s.call p).refs = none)
    (hv : ∀ j, (s.call p).unread = some j → (s.buf j).valid = true)
    (hw : ∀ j ∈ s.idequeue, (s.call p).waits ≠ some j) :
    Inv { s with call := update s.call p .out } where
  own := h.own.move hr.symm (fun _ _ => nofun) fun _ => nofun
  flags := h.flags.move fun j hj => .inl (hv j hj)
  requests := h.requests.move fun j hj hj' => absurd hj' (hw j hj)
  linked := h.linked

/-- The process calls `iderw`. -/
theorem Inv.iderw {t : Bcache P} {x : BioCall} (h : Inv s) (hi : i ∉ s.idequeue)
    (hf : (s.buf i).valid = (s.buf i).dirty) (hh : (s.buf i).holder = some p)
    (hp : (s.call p).waits = none) (hr : (s.call p).refs = none)
    (hun : x.unread = (s.call p).unread) (hxr : x.refs = none) (hxh : x.holds = some i)
    (hxw : x.waits = some i) (hxa : ∀ j n, x.asked = some (j, n) → (s.buf j).Carries n)
    (ht : s.iderw p i = some t) : Inv { t with call := update t.call p x } := by
  obtain ⟨⟨hbuf, hcall, hlinks, -⟩, -⟩ := iderw_spec ht
  have ho : Own { s with call := update s.call p x } := by
    refine h.own.move (hxr.trans hr.symm) hxa fun j hj => ?_
    obtain rfl : i = j := Option.some.inj (hxh.symm.trans hj)
    exact hh
  have hfl : Flags { s with call := update s.call p x } :=
    h.flags.move fun j hj => .inr (hun.trans hj)
  refine ⟨ho.congr ?_ ?_, ⟨?_, ?_⟩, h.requests.iderw hi hf hp hxw ht, ?_⟩
  · show update t.call p x = update s.call p x
    rw [hcall]
  · intro j
    simp [hbuf]
  · intro j
    simpa [hbuf] using hfl.ok j
  · intro j q hq
    simp only [hbuf, hcall] at hq ⊢
    exact hfl.read hq
  · exact linked_congr h.linked hlinks

theorem inv_bread (h : Inv s) (hs : bioStep (.bread p) s = some s') : Inv s' := by
  obtain ⟨i, b, hp, ⟨hv, rfl⟩ | ⟨hv, t, ht, rfl⟩⟩ := step_bread hs
  · refine h.ret (by rw [hp]; rfl) (fun j hj => ?_) fun j _ => by simp [hp, BioCall.waits]
    rw [hp] at hj
    cases hj
    exact hv
  · have hh := h.own.holds (p := p) (i := i) (by rw [hp]; rfl)
    have hd : (s.buf i).dirty = false := by
      refine Bool.eq_false_iff.mpr fun hd => ?_
      rw [(h.flags.ok i).dirty hd] at hv
      cases hv
    refine h.iderw (h.requests.notMem h.own hh (by rw [hp]; rfl)) (hv.trans hd.symm) hh
      (by rw [hp]; rfl) (by rw [hp]; rfl) (by rw [hp]; rfl) rfl rfl rfl (fun j n hj => ?_) ht
    exact h.own.asked (p := p) (by rw [hp]; exact hj)

theorem inv_iderwDone (h : Inv s) (hs : bioStep (.iderwDone p) s = some s') : Inv s' := by
  obtain ⟨i, hp, hv, hd, rfl⟩ := step_iderwDone hs
  have hw : (s.call p).waits = some i := by
    rcases hp with ⟨b, hp⟩ | hp <;> rw [hp] <;> rfl
  refine h.ret ?_ (fun j hj => ?_) fun j hj hj' => ?_
  · rcases hp with ⟨b, hp⟩ | hp <;> rw [hp] <;> rfl
  · rcases hp with ⟨b, hp⟩ | hp <;> rw [hp] at hj <;> cases hj
    exact hv
  · obtain rfl : i = j := Option.some.inj (hw.symm.trans hj')
    have := h.requests.flags i hj
    rw [hv, hd] at this
    cases this

omit [DecidableEq P] in
/-- The disk has done its work on a buffer. -/
theorem Inv.done {t : Bcache P} {q : List (Fin NBUF)} (h : Inv s) (hq : s.idequeue = i :: q)
    (hsame : SameButDisk { s with idequeue := q, buf := update s.buf i (s.done i) } t)
    (hstart : ∀ j, q.head? = some j → (s.buf j).dirty = true →
      t.disk (s.buf j).blockno = (s.buf j).data) : Inv t := by
  have hi : i ∈ s.idequeue := hq ▸ List.mem_cons_self
  obtain ⟨p, hp⟩ := h.requests.waits i hi
  have hdev := h.own.dev (h.own.holds (BioCall.holds_of_waits hp))
  have ho : Own { s with buf := update s.buf i (s.done i) } := h.own.setBuf rfl rfl rfl rfl
  have hf : Flags { s with buf := update s.buf i (s.done i) } :=
    h.flags.setBuf ⟨fun _ => hdev, nofun, (h.flags.ok i).touched⟩ fun _ _ => .inl rfl
  refine ⟨ho.congr hsame.call fun j => ?_, ⟨fun j => ?_, fun {j q} hq => ?_⟩,
    h.requests.next hq hsame hstart, linked_congr h.linked hsame.links⟩
  · rw [hsame.buf]
    exact ⟨rfl, rfl, rfl, rfl⟩
  · rw [hsame.buf]
    exact hf.ok j
  · rw [hsame.buf] at hq ⊢
    rw [hsame.call]
    exact hf.read hq

theorem inv_ideintr (h : Inv s) (hs : bioStep .ideintr s = some s') : Inv s' := by
  rcases step_ideintr hs with ⟨-, rfl⟩ | ⟨i, q, hq, ⟨rfl, rfl⟩ | ⟨j, hj, ht⟩⟩
  · exact h
  · exact h.done hq ⟨rfl, rfl, rfl, rfl⟩ nofun
  · obtain ⟨hsame, hdisk⟩ := idestart_spec ht
    refine h.done hq hsame fun k hk hd => ?_
    obtain rfl : j = k := Option.some.inj (hj.symm.trans hk)
    have hji : j ≠ i := by
      rintro rfl
      exact (List.nodup_cons.mp (hq ▸ h.requests.nodup)).1 (List.mem_of_mem_head? hj)
    simpa [hji, hd] using hdisk

omit [DecidableEq P] in
/-- The holder changes the data or the flags of its buffer. -/
theorem Inv.edit {x : Buf P} (h : Inv s) (hp : s.call p = .out)
    (hh : (s.buf i).holder = some p) (hxh : x.holder = (s.buf i).holder)
    (hxr : x.refcnt = (s.buf i).refcnt) (hxd : x.dev = (s.buf i).dev)
    (hxb : x.blockno = (s.buf i).blockno) (hxv : x.valid = (s.buf i).valid) :
    Inv { s with buf := update s.buf i x } := by
  have hv := h.flags.valid_of_out hp hh
  have hi := h.requests.notMem h.own hh (by rw [hp]; rfl)
  refine ⟨h.own.setBuf hxh hxr hxd hxb, h.flags.setBuf ⟨fun _ => ?_, fun _ => ?_, fun _ => ?_⟩ ?_,
    h.requests.setBuf fun hm => absurd hm hi, h.linked⟩
  · rw [hxd, h.own.dev hh]
  · rw [hxv, hv]
  · simp [hxh, hh]
  · exact fun _ _ => .inl (hxv.trans hv)

theorem inv_bwrite (h : Inv s) (hs : bioStep (.bwrite p i) s = some s') : Inv s' := by
  obtain ⟨hp, hh, t, ht, rfl⟩ := step_bwrite hs
  have hv := h.flags.valid_of_out hp hh
  have hi := h.requests.notMem h.own hh (by rw [hp]; rfl)
  have he := h.edit (x := { s.buf i with dirty := true, touched := false }) hp hh rfl rfl rfl rfl
    rfl
  exact he.iderw hi (by simp [hv]) (by simp [hh]) (by rw [hp]; rfl) (by rw [hp]; rfl)
    (by rw [hp]; rfl) rfl rfl rfl (fun _ _ => nofun) ht

theorem inv_brelse (h : Inv s) (hs : bioStep (.brelse p i) s = some s') : Inv s' := by
  obtain ⟨hp, hh, ht, rfl⟩ := step_brelse hs
  have hok := h.flags.ok i
  have hf := (h.flags.setBuf (i := i) (x := { s.buf i with holder := none })
    ⟨hok.valid, hok.dirty, by simp [ht]⟩ nofun).move (p := p) (x := .releasing i)
      (by simp [hp, BioCall.unread])
  exact h.refer (h.own.release hp hh) hf ⟨rfl, rfl, rfl, rfl⟩ (by rw [hp]; rfl)

theorem inv_unref (h : Inv s) (hs : bioStep (.unref p) s = some s') : Inv s' := by
  obtain ⟨i, hp, rfl⟩ := step_unref hs
  have hok := h.flags.ok i
  have hf := (h.flags.setBuf (i := i) (x := { s.buf i with refcnt := (s.buf i).refcnt - 1 })
    ⟨hok.valid, hok.dirty, hok.touched⟩ fun q hq => h.flags.read hq).move (p := p) (x := .out)
      (by simp [hp, BioCall.unread])
  have hinv := h.refer (h.own.unref hp) hf ⟨rfl, rfl, rfl, rfl⟩ (by rw [hp]; rfl)
  refine ⟨hinv.own.congr rfl fun _ => ⟨rfl, rfl, rfl, rfl⟩, ⟨hinv.flags.ok, hinv.flags.read⟩,
    ⟨hinv.requests.nodup, hinv.requests.flags, hinv.requests.waits, hinv.requests.active⟩, ?_⟩
  by_cases h0 : (s.buf i).refcnt - 1 = 0
  · exact linked_moveFront h.linked (if_pos h0)
  · exact linked_congr h.linked (if_neg h0)

/-- **Every step keeps the invariants.** -/
theorem inv_step {l : BioLabel P} (h : Inv s) (hs : bioStep l s = some s') : Inv s' := by
  cases l with
  | bget p b => exact inv_bget h hs
  | acquiresleep p => exact inv_acquiresleep h hs
  | bread p => exact inv_bread h hs
  | iderwDone p => exact inv_iderwDone h hs
  | ideintr => exact inv_ideintr h hs
  | modify p i d =>
    obtain ⟨hp, hh, rfl⟩ := step_modify hs
    exact h.edit hp hh rfl rfl rfl rfl rfl
  | logWrite p i =>
    obtain ⟨hp, hh, rfl⟩ := step_logWrite hs
    exact h.edit hp hh rfl rfl rfl rfl rfl
  | bwrite p i => exact inv_bwrite h hs
  | brelse p i => exact inv_brelse h hs
  | unref p => exact inv_unref h hs

omit [DecidableEq P] in
theorem inv_binit (disk : Disk) : Inv (binit disk : Bcache P) where
  own :=
    { count := fun i => by
        have ht : tally (binit disk : Bcache P).call (fun c => c.refs = some i) = 0 :=
          Tally.tally_eq_zero.mpr fun q => nofun
        rw [ht]
        rfl
      asked := nofun
      holds := nofun
      dev := nofun }
  flags := ⟨fun _ => ⟨nofun, nofun, nofun⟩, nofun⟩
  requests := ⟨List.nodup_nil, nofun, nofun, nofun⟩
  linked := ⟨_, LinkedRing.holds_of_nodup (List.nodup_finRange NBUF),
    (List.reverse_perm _)⟩

end Bcache

end Xv6Mlfq
