import Mathlib.Logic.Function.Basic
import Mathlib.Tactic.Common

/-!
# Singly linked cycles

`Path next a l b` says that following `next` from `a` visits the nodes `l`, in this order, and then
comes to `b`.  A cycle through `l` is a path from its first node back to it.

## Main results

* `path_split` — a path is cut at one of its nodes.
* `Path.rotate` — a cycle can be entered at any node.
* `Path.update` — a pointer that is not on the path may change.
-/

namespace Cycle

open Function (update update_of_ne)

variable {α : Type*} {next next' : α → α} {a b x : α} {l m : List α}

/-- From `a` through the nodes `l` to `b` -/
def Path (next : α → α) : α → List α → α → Prop
  | a, [], b => a = b
  | a, x :: l, b => a = x ∧ Path next (next x) l b

/-- A path is cut at one of its nodes. -/
theorem path_split : Path next a (l ++ x :: m) b ↔ Path next a l x ∧ Path next (next x) m b := by
  induction l generalizing a with
  | nil => exact Iff.rfl
  | cons y l ih => rw [List.cons_append, Path, Path, ih, and_assoc]

theorem Path.append {c : α} (h : Path next a l b) (h' : Path next b m c) :
    Path next a (l ++ m) c := by
  induction l generalizing a with
  | nil =>
    obtain rfl : a = b := h
    exact h'
  | cons y l ih => exact ⟨h.1, ih h.2⟩

theorem Path.congr (h : Path next a l b) (hn : ∀ x ∈ l, next' x = next x) : Path next' a l b := by
  induction l generalizing a with
  | nil => exact h
  | cons y l ih =>
    refine ⟨h.1, ?_⟩
    rw [hn y List.mem_cons_self]
    exact ih h.2 fun x hx => hn x (List.mem_cons_of_mem y hx)

/-- A pointer that is not on the path may change. -/
theorem Path.update [DecidableEq α] {y : α} (h : Path next a l b) (hx : x ∉ l) :
    Path (update next x y) a l b := by
  apply h.congr
  intro z hz
  apply update_of_ne
  rintro rfl
  exact hx hz

/-- A cycle can be entered at any node. -/
theorem Path.rotate (h : Path next a (l ++ x :: m) a) : Path next x (x :: m ++ l) x := by
  obtain ⟨hl, hm⟩ := path_split.mp h
  exact Path.append ⟨rfl, hm⟩ hl

end Cycle
