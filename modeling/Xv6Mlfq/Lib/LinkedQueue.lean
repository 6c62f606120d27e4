import Mathlib.Logic.Function.Basic
import Mathlib.Data.List.Basic

/-!
# Queues of linked nodes

A queue is a pointer to its first node, and each node has a pointer to the next; the last one has
none.  `Chain next o xs` says that the nodes from `o` on are `xs`.

## Main results

* `Chain.concat` — a node is linked in at the end.
* `Chain.update_of_notMem` — the pointers of other nodes do not matter.
-/

namespace LinkedQueue

open Function (update update_self update_of_ne)

variable {α : Type*}

def Chain (next : α → Option α) : Option α → List α → Prop
  | o, [] => o = none
  | o, x :: xs => o = some x ∧ Chain next (next x) xs

variable {next : α → Option α} {o : Option α} {xs : List α}

theorem Chain.eq_head (h : Chain next o xs) : o = xs.head? := by
  cases xs with
  | nil => exact h
  | cons x xs => exact h.1

/-- The node after a node of the queue. -/
theorem Chain.mem_next {x y : α}
    (h : Chain next o xs) (hx : x ∈ xs) (hy : next x = some y) : y ∈ xs := by
  induction xs generalizing o with
  | nil => cases hx
  | cons z xs ih =>
    obtain ⟨-, hz⟩ := h
    rcases List.mem_cons.mp hx with rfl | hx
    · have hhead := hz.eq_head
      rw [hy] at hhead
      exact List.mem_cons_of_mem x (List.mem_of_head? hhead.symm)
    · exact List.mem_cons_of_mem z (ih hz hx)

variable [DecidableEq α]

theorem Chain.update_of_notMem {p : Option α} {b : α}
    (h : Chain next o xs) (hb : b ∉ xs) : Chain (update next b p) o xs := by
  induction xs generalizing o with
  | nil => exact h
  | cons x xs ih =>
    obtain ⟨ho, hx⟩ := h
    have hxb : x ≠ b := fun he => hb (he ▸ List.mem_cons_self)
    refine ⟨ho, ?_⟩
    rw [update_of_ne hxb]
    exact ih hx fun hm => hb (List.mem_cons_of_mem x hm)

/-- A node is linked in after the last one. -/
theorem Chain.concat {x b : α}
    (h : Chain next o xs) (hx : x ∈ xs) (hlast : next x = none) (hb : b ∉ xs)
    (hnext : next b = none) : Chain (update next x (some b)) o (xs ++ [b]) := by
  induction xs generalizing o with
  | nil => cases hx
  | cons y xs ih =>
    obtain ⟨ho, hy⟩ := h
    have hbx : b ≠ x := fun he => hb (he ▸ hx)
    by_cases hyx : y = x
    · subst hyx
      have hxs : xs = [] := by
        have := hy.eq_head
        rw [hlast] at this
        exact List.head?_eq_none_iff.mp this.symm
      subst hxs
      refine ⟨ho, ?_⟩
      rw [update_self]
      refine ⟨rfl, ?_⟩
      rw [update_of_ne hbx]
      exact hnext
    · refine ⟨ho, ?_⟩
      rw [update_of_ne hyx]
      refine ih hy ((List.mem_cons.mp hx).resolve_left (Ne.symm hyx)) fun hm => ?_
      exact hb (List.mem_cons_of_mem y hm)

end LinkedQueue
