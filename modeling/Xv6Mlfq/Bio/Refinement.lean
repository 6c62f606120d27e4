import Xv6Mlfq.Bio.Control

/-!
# The buffer cache is a block store

The buffers are the lines of a write-back cache over the disk.  The invariants of `Bio.Control`
are what makes each step one of the things such a cache may do.

## Main results

* `coherent_step` — a step of the buffer cache is simulated by the plain store.
* `bread_refines_store` — over any run, `bread` returns what was last stored, no block has two
  buffers, and the ring is a permutation of all of them.
-/

namespace Xv6Mlfq

open Function (update)
open Transition (exec observed)
open WriteBack (Coherent Event storeStep)

variable {P : Type}

/-- The buffer as a line of the cache. -/
def Buf.line (x : Buf P) : WriteBack.Line ℕ Block where
  tag := if x.dev = ROOTDEV then some x.blockno else none
  valid := x.valid
  ahead := x.dirty || x.touched
  data := x.data

def Bcache.view (s : Bcache P) : WriteBack.Cache (Fin NBUF) ℕ Block where
  line i := (s.buf i).line
  disk := s.disk

theorem Buf.line_tag {x : Buf P} {b : ℕ} : x.line.tag = some b ↔ x.Carries b := by
  by_cases h : x.dev = ROOTDEV <;> simp [line, Carries, h]

theorem Buf.line_tag_self {x : Buf P} (h : x.dev = ROOTDEV) : x.line.tag = some x.blockno :=
  Buf.line_tag.mpr ⟨h, rfl⟩

namespace Bcache

variable {s t : Bcache P} {m : Disk} {i : Fin NBUF}

theorem view_setBuf (s : Bcache P) (i : Fin NBUF) (x : Buf P) :
    ({ s with buf := update s.buf i x } : Bcache P).view =
      ⟨update s.view.line i x.line, s.disk⟩ := by
  simp only [view, WriteBack.Cache.mk.injEq, and_true]
  funext j
  by_cases hj : j = i
  · subst hj
    simp
  · simp [hj]

/-- References and locks are not part of the view. -/
theorem view_same {x : Buf P} (hx : x.line = (s.buf i).line) :
    ({ s with buf := update s.buf i x } : Bcache P).view = s.view := by
  rw [view_setBuf, hx]
  show (⟨update s.view.line i (s.view.line i), s.disk⟩ : WriteBack.Cache _ _ _) = s.view
  rw [Function.update_eq_self]
  rfl

/-- Starting a request writes a dirty buffer to the disk. -/
theorem coherent_idestart (h : Coherent s.view m) (hok : (s.buf i).Ok)
    (ht : s.idestart i = some t) : Coherent t.view m := by
  rcases idestart_some ht with ⟨hd, rfl⟩ | ⟨-, rfl⟩
  · have hv := hok.dirty hd
    exact h.flush (Buf.line_tag_self (hok.valid hv)) hv
  · exact h

variable [DecidableEq P] {s' : Bcache P} {p : P} {b : ℕ}

theorem coherent_iderw (h : Coherent s.view m) (hok : (s.buf i).Ok)
    (ht : s.iderw p i = some t) : Coherent t.view m := by
  obtain ⟨-, -, ⟨-, ht⟩ | ⟨-, rfl⟩⟩ := iderw_some ht
  · exact coherent_idestart (s := { s with idequeue := s.idequeue ++ [i] }) h hok ht
  · exact h

theorem coherent_bget (hi : Inv s) (h : Coherent s.view m)
    (hs : bioStep (.bget p b) s = some s') : Coherent s'.view m := by
  obtain ⟨-, ⟨i, -, rfl⟩ | ⟨hc, i, hu, rfl⟩⟩ := step_bget hs
  · have hsame : ({ s with buf := update s.buf i _ } : Bcache P).view = s.view :=
      view_same (x := { s.buf i with refcnt := (s.buf i).refcnt + 1 }) rfl
    exact hsame ▸ h
  · obtain ⟨h0, hd⟩ := unused_some hi.linked hu
    -- nobody has changed the buffer: it is not locked
    have ht : (s.buf i).touched = false := by
      refine Bool.eq_false_iff.mpr fun ht => ?_
      exact (hi.flags.ok i).touched ht (hi.own.unused h0).1
    have hfree : ∀ j, (s.view.line j).tag ≠ some b := fun j hj =>
      cached_none hi.linked hc j (Buf.line_tag.mp hj)
    have hre := h.retag (i := i) (fun _ => by simp [view, Buf.line, hd, ht]) hfree
      (l := Buf.line { s.buf i with
        dev := ROOTDEV, blockno := b, valid := false, dirty := false, refcnt := 1 }) rfl rfl
    exact (view_setBuf s i _).symm ▸ hre

omit [DecidableEq P] in
/-- What the disk read, or wrote, becomes the state of the buffer. -/
theorem coherent_done (hi : Inv s) (h : Coherent s.view m) {q : List (Fin NBUF)}
    (hq : s.idequeue = i :: q) :
    Coherent ({ s with buf := update s.buf i (s.done i) } : Bcache P).view m := by
  have hmem : i ∈ s.idequeue := hq ▸ List.mem_cons_self
  obtain ⟨p, hp⟩ := hi.requests.waits i hmem
  have hdev := hi.own.dev (hi.own.holds (BioCall.holds_of_waits hp))
  have htag : (s.view.line i).tag = some (s.buf i).blockno := Buf.line_tag_self hdev
  have htag' : (s.done i).line.tag = some (s.buf i).blockno := Buf.line_tag_self hdev
  have hflags := hi.requests.flags i hmem
  rw [view_setBuf]
  cases hd : (s.buf i).dirty with
  | true =>
    have hdisk := hi.requests.active i (by rw [hq]; rfl) hd
    exact h.clean htag (hflags.trans hd) hdisk htag' (by simp [done, Buf.line, view, hd])
  | false => exact h.fill htag (hflags.trans hd) htag' (by simp [done, Buf.line, view, hd])

theorem coherent_ideintr (hi : Inv s) (h : Coherent s.view m)
    (hs : bioStep .ideintr s = some s') : Coherent s'.view m := by
  rcases step_ideintr hs with ⟨-, rfl⟩ | ⟨i, q, hq, ⟨-, rfl⟩ | ⟨j, hj, ht⟩⟩
  · exact h
  · exact coherent_done hi h hq
  · refine coherent_idestart (s := { s with idequeue := q, buf := _ }) (coherent_done hi h hq) ?_ ht
    have hji : j ≠ i := by
      rintro rfl
      exact (List.nodup_cons.mp (hq ▸ hi.requests.nodup)).1 (List.mem_of_mem_head? hj)
    simpa [hji] using hi.flags.ok j

omit [DecidableEq P] in
/-- `log_write` and `bwrite` set `B_DIRTY`. -/
theorem coherent_mark (hi : Inv s) (h : Coherent s.view m) (hp : s.call p = .out)
    (hh : (s.buf i).holder = some p) :
    Coherent ({ s with buf := update s.buf i { s.buf i with dirty := true, touched := false } } :
      Bcache P).view m := by
  have hv := hi.flags.valid_of_out hp hh
  have htag : (s.view.line i).tag = some (s.buf i).blockno := Buf.line_tag_self (hi.own.dev hh)
  rw [view_setBuf]
  exact h.mark htag hv htag hv rfl rfl

/-- **A step of the buffer cache is simulated by the plain store.** -/
theorem coherent_step {l : BioLabel P} (hi : Inv s) (h : Coherent s.view m)
    (hs : bioStep l s = some s') :
    ∃ m', exec storeStep (bioEvents s l) m = some m' ∧ Coherent s'.view m' := by
  cases l with
  | bget p b => exact ⟨m, rfl, coherent_bget hi h hs⟩
  | acquiresleep p =>
    obtain ⟨i, b, -, -, rfl⟩ := step_acquiresleep hs
    have hsame : ({ s with buf := update s.buf i _ } : Bcache P).view = s.view :=
      view_same (x := { s.buf i with holder := some p }) rfl
    exact ⟨m, rfl, hsame ▸ h⟩
  | bread p =>
    obtain ⟨i, b, hp, ⟨hv, rfl⟩ | ⟨hv, t, ht, rfl⟩⟩ := step_bread hs
    · have hb := hi.own.asked (p := p) (i := i) (b := b) (by rw [hp]; rfl)
      have hl := h.load (i := i) (Buf.line_tag.mpr hb) hv
      refine ⟨m, ?_, h⟩
      simp only [bioEvents, hp, hv, if_true]
      exact Transition.exec_cons_some.mpr ⟨m, hl, rfl⟩
    · have hc : Coherent t.view m := coherent_iderw h (hi.flags.ok i) ht
      refine ⟨m, ?_, hc⟩
      simp [bioEvents, hp, hv]
  | iderwDone p =>
    obtain ⟨i, ⟨b, hp⟩ | hp, hv, -, rfl⟩ := step_iderwDone hs
    · have hb := hi.own.asked (p := p) (i := i) (b := b) (by rw [hp]; rfl)
      have hl := h.load (i := i) (Buf.line_tag.mpr hb) hv
      refine ⟨m, ?_, h⟩
      simp only [bioEvents, hp]
      exact Transition.exec_cons_some.mpr ⟨m, hl, rfl⟩
    · refine ⟨m, ?_, h⟩
      simp [bioEvents, hp]
  | ideintr => exact ⟨m, rfl, coherent_ideintr hi h hs⟩
  | modify p i d =>
    obtain ⟨hp, hh, rfl⟩ := step_modify hs
    have hv := hi.flags.valid_of_out hp hh
    have htag : (s.view.line i).tag = some (s.buf i).blockno :=
      Buf.line_tag_self (hi.own.dev hh)
    have hst := h.store htag (l := Buf.line { s.buf i with data := d, touched := true }) htag hv
      (Bool.or_true _)
    exact ⟨_, rfl, (view_setBuf s i _).symm ▸ hst⟩
  | logWrite p i =>
    obtain ⟨hp, hh, rfl⟩ := step_logWrite hs
    exact ⟨m, rfl, coherent_mark hi h hp hh⟩
  | bwrite p i =>
    obtain ⟨hp, hh, t, ht, rfl⟩ := step_bwrite hs
    have hv := hi.flags.valid_of_out hp hh
    have hok : ({ s.buf i with dirty := true, touched := false } : Buf P).Ok :=
      ⟨fun _ => hi.own.dev hh, fun _ => hv, nofun⟩
    have hc : Coherent t.view m :=
      coherent_iderw (coherent_mark hi h hp hh) (i := i) (by simpa using hok) ht
    exact ⟨m, rfl, hc⟩
  | brelse p i =>
    obtain ⟨-, -, -, rfl⟩ := step_brelse hs
    have hsame : ({ s with buf := update s.buf i _ } : Bcache P).view = s.view :=
      view_same (x := { s.buf i with holder := none }) rfl
    exact ⟨m, rfl, hsame ▸ h⟩
  | unref p =>
    obtain ⟨i, -, rfl⟩ := step_unref hs
    have hsame : ({ s with buf := update s.buf i _ } : Bcache P).view = s.view :=
      view_same (x := { s.buf i with refcnt := (s.buf i).refcnt - 1 }) rfl
    exact ⟨m, rfl, hsame ▸ h⟩

end Bcache

variable [DecidableEq P]

/-- The calls of `bread` and the stores so far. -/
def bioTrace : BioLabel P → Bcache P × List (Event ℕ Block) →
    Option (Bcache P × List (Event ℕ Block)) :=
  observed bioStep fun s l evs => evs ++ bioEvents s l

/-- **The buffer cache refines a plain block store.**  In any run from `binit`, what `bread`
returned and what was stored is a run of the plain store that starts with the contents of the
disk; no block has two buffers; the ring is a permutation of all buffers. -/
theorem bread_refines_store {disk : Disk} {ls : List (BioLabel P)} {s : Bcache P}
    {evs : List (Event ℕ Block)}
    (h : exec bioTrace ls (Bcache.binit disk, []) = some (s, evs)) :
    (∃ m, exec storeStep evs disk = some m) ∧
      (∀ i j b, (s.buf i).Carries b → (s.buf j).Carries b → i = j) ∧
      ∃ xs, LinkedRing.Holds s.links xs ∧ xs.Perm (List.finRange NBUF) := by
  have hinv : (s.Inv ∧ ∃ m, exec storeStep evs disk = some m ∧ Coherent s.view m) := by
    refine Transition.Reachable.invariant (I := fun x : Bcache P × List (Event ℕ Block) =>
      x.1.Inv ∧ ∃ m, exec storeStep x.2 disk = some m ∧ Coherent x.1.view m)
      ⟨ls, h⟩ ?_ ?_
    · exact ⟨Bcache.inv_binit disk, disk, rfl, WriteBack.coherent_of_untagged fun _ => rfl⟩
    · rintro ⟨s, evs⟩ l ⟨s', evs'⟩ ⟨hi, m, hm, hc⟩ hs
      obtain ⟨hstep, rfl⟩ := Transition.observed_some.mp hs
      obtain ⟨m', hm', hc'⟩ := Bcache.coherent_step hi hc hstep
      exact ⟨Bcache.inv_step hi hstep, m', Transition.exec_append_some.mpr ⟨m, hm, hm'⟩, hc'⟩
  obtain ⟨hi, m, hm, hc⟩ := hinv
  refine ⟨⟨m, hm⟩, fun i j b hbi hbj => ?_, hi.linked⟩
  exact hc.unique (Buf.line_tag.mpr hbi) (Buf.line_tag.mpr hbj)

/-- One process reads block 5, changes it, logs it and releases it; then another one reads it. -/
def readTwice : List (BioLabel Bool) :=
  [.bget false 5, .acquiresleep false, .bread false, .ideintr, .iderwDone false,
    .modify false 0 (fun _ => 7), .logWrite false 0, .brelse false 0, .bget true 5, .unref false,
    .acquiresleep true, .bread true]

/-- The second process gets what the first one stored. -/
def readTwiceEvents : List (Event ℕ Block) :=
  [.load 5 fun _ => 0, .store 5 fun _ => 7, .load 5 fun _ => 7]

theorem bread_refines_store_twice :
    ∃ s, exec bioTrace readTwice (Bcache.binit fun _ _ => 0, []) = some (s, readTwiceEvents) ∧
      (∃ m, exec storeStep readTwiceEvents (fun _ _ => 0) = some m) ∧
      (∀ i j b, (s.buf i).Carries b → (s.buf j).Carries b → i = j) ∧
      ∃ xs, LinkedRing.Holds s.links xs ∧ xs.Perm (List.finRange NBUF) := by
  obtain ⟨⟨s, evs⟩, hx, hevs⟩ : ∃ x, exec bioTrace readTwice (Bcache.binit fun _ _ => 0, []) =
      some x ∧ x.2 = readTwiceEvents :=
    Transition.exists_exec _ _ (by decide +kernel)
  obtain rfl : evs = readTwiceEvents := hevs
  exact ⟨s, hx, bread_refines_store hx⟩

end Xv6Mlfq
