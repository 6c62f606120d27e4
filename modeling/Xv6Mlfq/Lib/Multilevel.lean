import Mathlib.Data.List.Nodup
import Mathlib.Data.List.Perm.Basic
import Mathlib.Data.Fintype.Card
import Mathlib.Logic.Function.Basic
import Mathlib.Algebra.BigOperators.Group.Finset.Piecewise
import Mathlib.Algebra.Order.BigOperators.Group.Finset

/-!
# Multilevel queues

A board keeps a list of processes for every level.  A CPU *starts a slice* on the first
ready process of some queue, which is exchanged with the front of that queue, and ends
the slice by leaving the process where it is or by moving it to the end of a queue.
Processes are enrolled in the top queue when they are created.  Nothing is said about
which queue is served first, nor how long a slice lasts.

Processes, levels and CPUs are arbitrary types.  A process may die and leave its entries
behind, and a later process may reuse its name, so entries need not be unique.

## Main definitions

* `Board`, `Step` — the state and the moves.
* `Kept` — every live process is in the queue of its level; kept by every move.
* `Exact` — no other entries exist; kept by every move after which nobody has died.
* `Once` — every live process has one entry, in the queue of its level.
* `Ahead x y l` — in the list `l` some entry of `x` comes before all entries of `y`.
-/

namespace Multilevel

open Function (update update_self update_of_ne)

/-! ## Bringing an entry to the front -/

section Lists

variable {α : Type*}

/-- `l₁ ++ x :: l₂` with `x` and the first entry exchanged. -/
def bringFront : List α → α → List α → List α
  | [], x, l₂ => x :: l₂
  | a :: l₁, x, l₂ => x :: (l₁ ++ a :: l₂)

theorem bringFront_perm (l₁ : List α) (x : α) (l₂ : List α) :
    (bringFront l₁ x l₂).Perm (l₁ ++ x :: l₂) := by
  cases l₁ with
  | nil => exact .refl _
  | cons a l₁ =>
    have h₁ : (x :: (l₁ ++ a :: l₂)).Perm (x :: a :: (l₁ ++ l₂)) := List.perm_middle.cons x
    have h₂ : (a :: (l₁ ++ x :: l₂)).Perm (a :: x :: (l₁ ++ l₂)) := List.perm_middle.cons a
    exact h₁.trans ((List.Perm.swap a x _).trans h₂.symm)

theorem mem_bringFront {l₁ l₂ : List α} {x y : α} :
    y ∈ bringFront l₁ x l₂ ↔ y ∈ l₁ ++ x :: l₂ :=
  (bringFront_perm l₁ x l₂).mem_iff

theorem bringFront_append (l₁ : List α) (x : α) (l₂ l₃ : List α) :
    bringFront l₁ x (l₂ ++ l₃) = bringFront l₁ x l₂ ++ l₃ := by
  cases l₁ <;> simp [bringFront]

end Lists

/-! ## The board -/

/-- The queues, the levels of the processes, and the slice each CPU is in: a process and
the level it was taken from. -/
@[ext] structure Board (P K C : Type*) where
  alive : P → Prop
  ready : P → Prop
  level : P → K
  queue : K → List P
  slice : C → Option (P × K)

variable {P K C : Type*} [DecidableEq P] [DecidableEq K] [DecidableEq C]

/-- Append a process to a queue. -/
def enqueue (q : K → List P) (k : K) (p : P) : K → List P := update q k (q k ++ [p])

/-- Remove the first entry of a process from a queue. -/
def dequeue (q : K → List P) (k : K) (p : P) : K → List P := update q k ((q k).erase p)

variable {q : K → List P} {k : K} {p x y : P}

omit [DecidableEq P] in
theorem mem_enqueue {j : K} {r : P} : r ∈ enqueue q k p j ↔ r ∈ q j ∨ j = k ∧ r = p := by
  by_cases h : j = k
  · subst h; simp [enqueue]
  · simp [enqueue, h]

theorem mem_dequeue_of_ne {j : K} {r : P} (h : r ≠ p) : r ∈ dequeue q k p j ↔ r ∈ q j := by
  by_cases hj : j = k
  · subst hj; simp [dequeue, List.mem_erase_of_ne h]
  · simp [dequeue, hj]

theorem filter_erase_self (l : List P) (p : P) :
    (l.erase p).filter (· ≠ p) = l.filter (· ≠ p) := by
  induction l with
  | nil => rfl
  | cons a l ih =>
    by_cases ha : a = p
    · simp [ha]
    · simpa [ha, List.erase_cons] using ih

/-- A move leaves the others in their queues and in their order. -/
theorem filter_move (q : K → List P) (k m j : K) (p : P) :
    (enqueue (dequeue q k p) m p j).filter (· ≠ p) = (q j).filter (· ≠ p) := by
  have hdeq : (dequeue q k p j).filter (· ≠ p) = (q j).filter (· ≠ p) := by
    by_cases hk : j = k
    · rw [hk, dequeue, update_self, filter_erase_self]
    · rw [dequeue, update_of_ne hk]
  by_cases hm : j = m
  · subst hm
    rw [enqueue, update_self, List.filter_append, hdeq]
    simp
  · rw [enqueue, update_of_ne hm, hdeq]

omit [DecidableEq P] in
/-- Bringing an entry to the front permutes its queue. -/
theorem update_bringFront_perm {l₁ l₂ : List P} (hq : q k = l₁ ++ p :: l₂) (j : K) :
    (update q k (bringFront l₁ p l₂) j).Perm (q j) := by
  by_cases hj : j = k
  · subst hj
    rw [update_self, hq]
    exact bringFront_perm l₁ p l₂
  · rw [update_of_ne hj]

/-- The moves.  `top` is the level of new processes. -/
inductive Step (top : K) : Board P K C → Board P K C → Prop
  /-- Processes die, become ready or cease to be; those in a slice stay alive. -/
  | life {b} (alive ready : P → Prop) (hborn : ∀ p, alive p → b.alive p)
      (hheld : ∀ c p k, b.slice c = some (p, k) → alive p) :
      Step top b { b with alive := alive, ready := ready }
  | swap {b} (k : K) (l₁ : List P) (p : P) (l₂ : List P) (hq : b.queue k = l₁ ++ p :: l₂)
      (hp : b.ready p) (hl : ∀ r ∈ l₁, ¬ b.ready r) :
      Step top b { b with queue := update b.queue k (bringFront l₁ p l₂) }
  /-- A slice starts on a process that no other CPU has. -/
  | start {b} (c : C) (k : K) (l₁ : List P) (p : P) (l₂ : List P)
      (hq : b.queue k = l₁ ++ p :: l₂) (hp : b.ready p) (hl : ∀ r ∈ l₁, ¬ b.ready r)
      (halive : b.alive p) (hfree : ∀ c' k', b.slice c' ≠ some (p, k')) :
      Step top b { b with
        queue := update b.queue k (bringFront l₁ p l₂)
        slice := update b.slice c (some (p, k)) }
  | stay {b} (c : C) : Step top b { b with slice := update b.slice c none }
  /-- The process of the slice moves from queue `j` to the end of queue `k`. -/
  | move {b} (c : C) (p : P) (i j k : K) (hc : b.slice c = some (p, i)) (hj : p ∈ b.queue j) :
      Step top b { b with
        level := update b.level p k
        queue := enqueue (dequeue b.queue j p) k p
        slice := update b.slice c none }
  | claim {b} (p : P) (hp : ¬ b.alive p) :
      Step top b { b with
        alive := fun r => r = p ∨ b.alive r
        level := update b.level p top
        queue := enqueue b.queue top p }

variable {b b' : Board P K C}

/-! ## Nobody is lost -/

/-- Every live process has an entry in the queue of its level, and the process of a
slice one in the queue it was taken from. -/
structure Kept {P K C : Type*} (b : Board P K C) : Prop where
  enrolled : ∀ p, b.alive p → p ∈ b.queue (b.level p)
  alive : ∀ c p k, b.slice c = some (p, k) → b.alive p
  listed : ∀ c p k, b.slice c = some (p, k) → p ∈ b.queue k
  apart : ∀ c c' p k k', b.slice c = some (p, k) → b.slice c' = some (p, k') → c = c'

theorem Kept.step {top : K} (hb : Kept b) (h : Step top b b') : Kept b' := by
  -- a slice that is left after one has ended
  have left : ∀ {c c' : C} {x : P × K}, update b.slice c none c' = some x →
      c' ≠ c ∧ b.slice c' = some x := by
    intro c c' x hx
    by_cases hc : c' = c
    · subst hc; simp at hx
    · exact ⟨hc, by simpa [hc] using hx⟩
  cases h with
  | life alive ready hborn hheld =>
    exact ⟨fun p hp => hb.enrolled p (hborn p hp), hheld, hb.listed, hb.apart⟩
  | swap k l₁ p l₂ hq hp hl =>
    exact ⟨fun r hr => (update_bringFront_perm hq _).mem_iff.mpr (hb.enrolled r hr), hb.alive,
      fun c r j hc => (update_bringFront_perm hq j).mem_iff.mpr (hb.listed c r j hc), hb.apart⟩
  | start c k l₁ p l₂ hq hp hl halive hfree =>
    refine ⟨fun r hr => (update_bringFront_perm hq _).mem_iff.mpr (hb.enrolled r hr), ?_, ?_, ?_⟩
    · intro d r j hd
      by_cases hdc : d = c
      · subst hdc
        obtain ⟨rfl, rfl⟩ : p = r ∧ k = j := by simpa using hd
        exact halive
      · exact hb.alive d r j (by simpa [hdc] using hd)
    · intro d r j hd
      rw [(update_bringFront_perm hq j).mem_iff]
      by_cases hdc : d = c
      · subst hdc
        obtain ⟨rfl, rfl⟩ : p = r ∧ k = j := by simpa using hd
        simp [hq]
      · exact hb.listed d r j (by simpa [hdc] using hd)
    · intro d d' r j j' hd hd'
      by_cases hdc : d = c <;> by_cases hdc' : d' = c
      · rw [hdc, hdc']
      · subst hdc
        obtain ⟨rfl, -⟩ : p = r ∧ k = j := by simpa using hd
        exact absurd (by simpa [hdc'] using hd') (hfree d' j')
      · subst hdc'
        obtain ⟨rfl, -⟩ : p = r ∧ k = j' := by simpa using hd'
        exact absurd (by simpa [hdc] using hd) (hfree d j)
      · exact hb.apart d d' r j j' (by simpa [hdc] using hd) (by simpa [hdc'] using hd')
  | stay c =>
    exact ⟨hb.enrolled, fun d r j hd => hb.alive d r j (left hd).2,
      fun d r j hd => hb.listed d r j (left hd).2,
      fun d d' r j j' hd hd' => hb.apart d d' r j j' (left hd).2 (left hd').2⟩
  | move c p i j k hc hj =>
    refine ⟨?_, fun d r m hd => hb.alive d r m (left hd).2, ?_,
      fun d d' r m m' hd hd' => hb.apart d d' r m m' (left hd).2 (left hd').2⟩
    · intro r hr
      by_cases hrp : r = p
      · subst hrp
        simp [mem_enqueue]
      · simp only [mem_enqueue, update_of_ne hrp, mem_dequeue_of_ne hrp]
        exact .inl (hb.enrolled r hr)
    · intro d r m hd
      have hrp : r ≠ p := by
        rintro rfl
        exact (left hd).1 (hb.apart d c r m i (left hd).2 hc)
      rw [mem_enqueue, mem_dequeue_of_ne hrp]
      exact .inl (hb.listed d r m (left hd).2)
  | claim p hp =>
    refine ⟨?_, fun d r j hd => .inr (hb.alive d r j hd),
      fun d r j hd => mem_enqueue.mpr (.inl (hb.listed d r j hd)), hb.apart⟩
    intro r hr
    by_cases hrp : r = p
    · subst hrp
      simp [mem_enqueue]
    · simp only [mem_enqueue, update_of_ne hrp]
      exact .inl (hb.enrolled r (hr.resolve_left hrp))

/-! ## Nobody is listed twice -/

/-- The queues hold live processes only, each at its own level and once. -/
structure Exact {P K C : Type*} (b : Board P K C) : Prop where
  nodup : ∀ k, (b.queue k).Nodup
  alive : ∀ k, ∀ p ∈ b.queue k, b.alive p
  level : ∀ k, ∀ p ∈ b.queue k, b.level p = k

omit [DecidableEq P] in
theorem nodup_enqueue (hq : ∀ j, (q j).Nodup) (hp : p ∉ q k) (j : K) : (enqueue q k p j).Nodup := by
  by_cases hj : j = k
  · subst hj
    rw [enqueue, update_self, List.nodup_append]
    refine ⟨hq j, List.nodup_singleton p, fun a ha b hb hab => hp ?_⟩
    rwa [← List.mem_singleton.mp hb, ← hab]
  · simpa [enqueue, hj] using hq j

theorem nodup_dequeue (k : K) (p : P) (hq : ∀ j, (q j).Nodup) (j : K) :
    (dequeue q k p j).Nodup := by
  by_cases hj : j = k
  · subst hj
    simpa [dequeue] using (hq j).erase p
  · simpa [dequeue, hj] using hq j

theorem Exact.step {top : K} (hb : Exact b) (h : Step top b b')
    (hdied : ∀ p, b.alive p → b'.alive p) : Exact b' := by
  cases h with
  | life alive ready hborn hheld =>
    exact ⟨hb.nodup, fun k p hp => hdied p (hb.alive k p hp), hb.level⟩
  | swap k l₁ p l₂ hq hp hl | start c k l₁ p l₂ hq hp hl halive hfree =>
    have hperm := update_bringFront_perm hq
    exact ⟨fun j => (hperm j).nodup_iff.mpr (hb.nodup j),
      fun j r hr => hb.alive j r ((hperm j).mem_iff.mp hr),
      fun j r hr => hb.level j r ((hperm j).mem_iff.mp hr)⟩
  | stay c => exact ⟨hb.nodup, hb.alive, hb.level⟩
  | move c p i j k hc hj =>
    have gone : ∀ m, p ∉ dequeue b.queue j p m := by
      intro m hm
      by_cases hmj : m = j
      · subst hmj
        simp only [dequeue, update_self] at hm
        exact (hb.nodup m).not_mem_erase hm
      · have hpm : p ∈ b.queue m := by simpa [dequeue, hmj] using hm
        exact hmj ((hb.level m p hpm).symm.trans (hb.level j p hj))
    refine ⟨nodup_enqueue (nodup_dequeue j p hb.nodup) (gone k), ?_, ?_⟩ <;>
      rintro m r hr <;> rcases mem_enqueue.mp hr with hr | ⟨rfl, rfl⟩
    · have hrp : r ≠ p := fun h => gone m (h ▸ hr)
      exact hb.alive m r ((mem_dequeue_of_ne hrp).mp hr)
    · exact hb.alive j r hj
    · have hrp : r ≠ p := fun h => gone m (h ▸ hr)
      exact (update_of_ne hrp _ _).trans (hb.level m r ((mem_dequeue_of_ne hrp).mp hr))
    · simp
  | claim p hp =>
    have new : ∀ m, p ∉ b.queue m := fun m hm => hp (hb.alive m p hm)
    refine ⟨nodup_enqueue hb.nodup (new top), ?_, ?_⟩ <;>
      rintro m r hr <;> rcases mem_enqueue.mp hr with hr | ⟨rfl, rfl⟩
    · exact .inr (hb.alive m r hr)
    · exact .inl rfl
    · have hrp : r ≠ p := fun h => new m (h ▸ hr)
      exact (update_of_ne hrp _ _).trans (hb.level m r hr)
    · simp

omit [DecidableEq P] [DecidableEq K] [DecidableEq C] in
/-- A queue that lacks a process has room for it. -/
theorem Exact.length_lt [Fintype P] (hb : Exact b)
    (hp : p ∉ b.queue k) : (b.queue k).length < Fintype.card P :=
  (List.nodup_cons.mpr ⟨hp, hb.nodup k⟩).length_le_card

/-! ## One entry each -/

/-- Every live process has one entry, in the queue of its level.  The dead may have left
entries behind. -/
def Once (b : Board P K C) : Prop :=
  ∀ p, b.alive p → ∀ k, (b.queue k).count p = if k = b.level p then 1 else 0

theorem count_enqueue (q : K → List P) (k j : K) (p r : P) :
    (enqueue q k p j).count r = (q j).count r + if j = k ∧ r = p then 1 else 0 := by
  by_cases hj : j = k
  · subst hj
    by_cases hr : r = p
    · simp [enqueue, hr]
    · simp [enqueue, hr, Ne.symm hr]
  · simp [enqueue, hj]

theorem count_dequeue (q : K → List P) (k j : K) (p r : P) :
    (dequeue q k p j).count r = (q j).count r - if j = k ∧ r = p then 1 else 0 := by
  by_cases hj : j = k
  · subst hj
    by_cases hr : r = p
    · simp [dequeue, hr]
    · simp [dequeue, hr, List.count_erase_of_ne]
  · simp [dequeue, hj]

omit [DecidableEq C] in
theorem Once.mem (h : Once b) (hp : b.alive p) : p ∈ b.queue (b.level p) := by
  apply List.count_pos_iff.mp
  rw [h p hp, if_pos rfl]
  exact Nat.one_pos

omit [DecidableEq C] in
/-- Queues may be reordered, and processes may die. -/
theorem Once.reorder (h : Once b)
    (halive : ∀ p, b'.alive p → b.alive p) (hlevel : b'.level = b.level)
    (hq : ∀ k, (b'.queue k).Perm (b.queue k)) : Once b' := by
  intro p hp k
  rw [(hq k).count_eq, hlevel]
  exact h p (halive p hp) k

omit [DecidableEq C] in
/-- A live process moves to the end of a queue. -/
theorem Once.move (h : Once b) (hp : b.alive p)
    (halive : ∀ r, b'.alive r → b.alive r) (hlevel : b'.level = update b.level p k)
    (hq : b'.queue = enqueue (dequeue b.queue (b.level p) p) k p) : Once b' := by
  intro r hr j
  rw [hq, hlevel, count_enqueue, count_dequeue, h r (halive r hr)]
  by_cases hrp : r = p
  · subst hrp
    rw [update_self]
    by_cases hj : j = b.level r
    · simp [hj]
    · simp [hj]
  · simp [hrp]

omit [DecidableEq C] in
/-- A process that has no entry joins a queue. -/
theorem Once.claim (h : Once b) (hp : ∀ j, p ∉ b.queue j)
    (halive : ∀ r, b'.alive r → r = p ∨ b.alive r) (hlevel : b'.level = update b.level p k)
    (hq : b'.queue = enqueue b.queue k p) : Once b' := by
  intro r hr j
  rw [hq, hlevel, count_enqueue]
  by_cases hrp : r = p
  · subst hrp
    rw [update_self, List.count_eq_zero_of_not_mem (hp j), Nat.zero_add]
    simp
  · rcases halive r hr with hrp' | hr'
    · exact absurd hrp' hrp
    · simp [hrp, h r hr' j]
/-! ## How many entries there are -/

/-- The number of entries of all queues. -/
def size [Fintype K] (q : K → List P) : ℕ := ∑ k, (q k).length

section Size

variable [Fintype K]

omit [DecidableEq P] [DecidableEq K] in
theorem length_le_size (q : K → List P) (k : K) : (q k).length ≤ size q :=
  Finset.single_le_sum (f := fun k => (q k).length) (fun _ _ => Nat.zero_le _)
    (Finset.mem_univ k)

omit [DecidableEq P] [DecidableEq K] in
theorem size_congr {q q' : K → List P} (h : ∀ k, (q k).length = (q' k).length) :
    size q = size q' :=
  Finset.sum_congr rfl fun k _ => h k

omit [DecidableEq P] in
theorem size_enqueue (q : K → List P) (k : K) (p : P) : size (enqueue q k p) = size q + 1 := by
  have hlen : ∀ j, (enqueue q k p j).length = (q j).length + if j = k then 1 else 0 := by
    intro j
    by_cases hj : j = k
    · subst hj; simp [enqueue]
    · simp [enqueue, hj]
  simp [size, hlen, Finset.sum_add_distrib]

theorem size_dequeue {q : K → List P} {k : K} {p : P} (hp : p ∈ q k) :
    size (dequeue q k p) + 1 = size q := by
  have hlen : ∀ j, (dequeue q k p j).length + (if j = k then 1 else 0) = (q j).length := by
    intro j
    by_cases hj : j = k
    · subst hj
      have := List.length_pos_of_mem hp
      rw [dequeue, update_self, List.length_erase_of_mem hp, if_pos rfl]
      omega
    · simp [dequeue, hj]
  calc size (dequeue q k p) + 1
      = ∑ j, ((dequeue q k p j).length + if j = k then 1 else 0) := by
        simp [size, Finset.sum_add_distrib]
    _ = size q := Finset.sum_congr rfl fun j _ => hlen j

/-- The creation of a process adds an entry; no other move changes their number. -/
theorem Step.size {top : K} {b b' : Board P K C} (h : Step top b b') :
    (∀ p, b'.alive p → b.alive p) ∧ Multilevel.size b'.queue = Multilevel.size b.queue ∨
      (∃ p, ¬ b.alive p ∧ b'.alive p) ∧
        Multilevel.size b'.queue = Multilevel.size b.queue + 1 := by
  cases h with
  | life alive ready hborn hheld => exact .inl ⟨hborn, rfl⟩
  | swap k l₁ p l₂ hq hp hl | start c k l₁ p l₂ hq hp hl halive hfree =>
    exact .inl ⟨fun _ h => h, size_congr fun j => (update_bringFront_perm hq j).length_eq⟩
  | stay c => exact .inl ⟨fun _ h => h, rfl⟩
  | move c p i j k hc hj =>
    refine .inl ⟨fun _ h => h, ?_⟩
    rw [size_enqueue, size_dequeue hj]
  | claim p hp => exact .inr ⟨⟨p, hp, .inl rfl⟩, size_enqueue _ _ _⟩

end Size

/-! ## Who comes first -/

/-- Some entry of `x` comes before every entry of `y`. -/
def Ahead {α : Type*} (x y : α) (l : List α) : Prop := ∃ l₁ l₂, l = l₁ ++ x :: l₂ ∧ y ∉ l₁

omit [DecidableEq P] in
theorem Ahead.append {l : List P} (h : Ahead x y l) (m : List P) : Ahead x y (l ++ m) := by
  obtain ⟨l₁, l₂, rfl, hy⟩ := h
  exact ⟨l₁, l₂ ++ m, by simp, hy⟩

theorem Ahead.erase {r : P} {l : List P} (h : Ahead x y l) (hr : r ≠ x) :
    Ahead x y (l.erase r) := by
  obtain ⟨l₁, l₂, rfl, hy⟩ := h
  by_cases hmem : r ∈ l₁
  · rw [List.erase_append_left _ hmem]
    exact ⟨l₁.erase r, l₂, rfl, fun h => hy (List.mem_of_mem_erase h)⟩
  · rw [List.erase_append_right _ hmem, List.erase_cons_tail (by simpa using hr.symm)]
    exact ⟨l₁, l₂.erase r, rfl, hy⟩

omit [DecidableEq P] in
/-- The first ready entry `p` of a list in which the ready process `x` is ahead of `y`:
it is `x`, or it stands in the part before `x`. -/
theorem Ahead.first_ready {ready : P → Prop} {m₁ m₂ : List P}
    (h : Ahead x y (m₁ ++ p :: m₂)) (hx : ready x) (hno : ∀ r ∈ m₁, ¬ ready r) :
    y ∉ m₁ ∧ (p = x ∨ p ≠ y ∧ ∃ l₁ l₂, m₂ = l₁ ++ x :: l₂ ∧ y ∉ l₁) := by
  obtain ⟨l₁, l₂, he, hy⟩ := h
  rcases List.append_eq_append_iff.mp he with ⟨a, rfl, ha⟩ | ⟨a, rfl, ha⟩
  · cases a with
    | nil =>
      obtain ⟨rfl, -⟩ := List.cons.inj ha
      exact ⟨by simpa using hy, .inl rfl⟩
    | cons b a =>
      obtain ⟨rfl, rfl⟩ := List.cons.inj ha
      simp only [List.mem_append, List.mem_cons, not_or] at hy
      exact ⟨hy.1, .inr ⟨Ne.symm hy.2.1, a, l₂, rfl, hy.2.2⟩⟩
  · cases a with
    | nil =>
      obtain ⟨rfl, -⟩ := List.cons.inj ha
      exact ⟨by simpa using hy, .inl rfl⟩
    | cons b a =>
      obtain ⟨rfl, -⟩ := List.cons.inj ha
      exact absurd hx (hno x (by simp))

omit [DecidableEq P] in
theorem Ahead.bringFront {ready : P → Prop} {m₁ m₂ : List P}
    (h : Ahead x y (m₁ ++ p :: m₂)) (hx : ready x) (hno : ∀ r ∈ m₁, ¬ ready r) :
    Ahead x y (bringFront m₁ p m₂) := by
  obtain ⟨hy, rfl | ⟨hp, l₁, l₂, rfl, hl₁⟩⟩ := h.first_ready hx hno
  · cases m₁ with
    | nil => exact ⟨[], _, rfl, by simp⟩
    | cons a m₁ => exact ⟨[], _, rfl, by simp⟩
  · refine ⟨Multilevel.bringFront m₁ p l₁, l₂, bringFront_append m₁ p l₁ _, fun hmem => ?_⟩
    have : y ∈ m₁ ++ p :: l₁ := mem_bringFront.mp hmem
    simp only [List.mem_append, List.mem_cons] at this
    exact this.elim hy fun h => h.elim (Ne.symm hp) hl₁

omit [DecidableEq P] in
theorem Ahead.enqueue (h : Ahead x y (q k)) (j : K) (p : P) : Ahead x y (enqueue q j p k) := by
  by_cases hk : k = j
  · subst hk
    simpa [Multilevel.enqueue] using h.append [p]
  · simpa [Multilevel.enqueue, hk] using h

/-- A ready process that is in no slice stays ahead of those behind it. -/
theorem Ahead.step {top : K} (ha : Ahead x y (b.queue k))
    (h : Step top b b') (hx : b.ready x) (hfree : ∀ c j, b.slice c ≠ some (x, j)) :
    Ahead x y (b'.queue k) := by
  cases h with
  | life alive ready hborn hheld => exact ha
  | swap j l₁ p l₂ hq hp hl | start c j l₁ p l₂ hq hp hl halive hfree' =>
    by_cases hk : k = j
    · subst hk
      rw [hq] at ha
      simpa using ha.bringFront hx hl
    · simpa [hk] using ha
  | stay c => exact ha
  | move c p i j m hc hj =>
    have hpx : p ≠ x := by
      rintro rfl
      exact hfree c i hc
    refine Ahead.enqueue ?_ m p
    by_cases hk : k = j
    · subst hk
      simpa [dequeue] using ha.erase hpx
    · simpa [dequeue, hk] using ha
  | claim p hp => exact ha.enqueue top p

end Multilevel
