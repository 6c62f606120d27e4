import Mathlib.Data.List.Basic
import Mathlib.Tactic.Common

/-!
# The lines of a text

A line ends with a separator `z`.  `closed z t` are the lines of the text `t` that have ended,
without their separators, and `rest z t` is what comes after the last one.  A text that arrives in
parts can be handled part by part, as long as the rest of each part is put in front of the next
(`closed_append`).

## Main results

* `lines_induction` — a text has no separator, or has a line in front of a text.
* `closed_append` — the lines of two parts.
-/

namespace Lines

universe u
variable {α : Type u} [DecidableEq α] {z : α} {l r t : List α}

variable (z) in
/-- The lines that have ended -/
def closed (t : List α) : List (List α) := (t.splitOn z).dropLast

variable (z) in
/-- What comes after the last separator -/
def rest (t : List α) : List α := (t.splitOn z).getLastD []

/-- Induction on the lines of a text -/
theorem lines_induction {P : List α → Prop} (hrest : ∀ t, z ∉ t → P t)
    (hline : ∀ l r, z ∉ l → P r → P (l ++ z :: r)) (t : List α) : P t := by
  induction hn : t.length using Nat.strongRecOn generalizing t with
  | ind n ih =>
    by_cases hz : z ∈ t
    · obtain ⟨l, r, rfl, hl⟩ := List.eq_append_cons_of_mem hz
      apply hline l r hl
      apply ih r.length _ r rfl
      rw [← hn, List.length_append, List.length_cons]
      omega
    · exact hrest t hz

theorem closed_of_notMem (h : z ∉ t) : closed z t = [] := by
  rw [closed, List.splitOn_eq_singleton h]
  rfl

theorem rest_of_notMem (h : z ∉ t) : rest z t = t := by
  rw [rest, List.splitOn_eq_singleton h]
  rfl

theorem closed_line (h : z ∉ l) (r : List α) : closed z (l ++ z :: r) = l :: closed z r := by
  rw [closed, List.splitOn_append_cons_self_of_not_mem h,
    List.dropLast_cons_of_ne_nil (List.splitOn_ne_nil _ _)]
  rfl

theorem rest_line (h : z ∉ l) (r : List α) : rest z (l ++ z :: r) = rest z r := by
  rw [rest, List.splitOn_append_cons_self_of_not_mem h, rest]
  cases hs : r.splitOn z with
  | nil => exact absurd hs (List.splitOn_ne_nil _ _)
  | cons a as => rfl

theorem notMem_rest (t : List α) : z ∉ rest z t := by
  induction t using lines_induction (z := z) with
  | hrest t h =>
    rw [rest_of_notMem h]
    exact h
  | hline l r h ih =>
    rw [rest_line h]
    exact ih

theorem rest_suffix (t : List α) : rest z t <:+ t := by
  induction t using lines_induction (z := z) with
  | hrest t h => exact ⟨[], by rw [List.nil_append, rest_of_notMem h]⟩
  | hline l r h ih =>
    rw [rest_line h]
    exact ih.trans ((List.suffix_cons z r).trans (List.suffix_append l _))

theorem length_rest_lt (h : z ∈ t) : (rest z t).length < t.length := by
  apply Nat.lt_of_le_of_ne (rest_suffix t).length_le
  intro hlen
  have heq : rest z t = t := (rest_suffix t).eq_of_length hlen
  exact notMem_rest t (heq.symm ▸ h)

/-- The lines of two parts: those of the first, and those of the second with the rest of the first
in front. -/
theorem closed_append (t u : List α) :
    closed z (t ++ u) = closed z t ++ closed z (rest z t ++ u) := by
  induction t using lines_induction (z := z) with
  | hrest t h => rw [closed_of_notMem h, rest_of_notMem h, List.nil_append]
  | hline l r h ih =>
    rw [List.append_assoc, List.cons_append, closed_line h, ih, closed_line h, rest_line h,
      List.cons_append]

/-- Something in front of the first line makes it longer. -/
theorem closed_append_of_notMem {u : List α} (ht : z ∉ t) (hl : z ∉ l) :
    closed z (t ++ (l ++ z :: u)) = (t ++ l) :: closed z u := by
  rw [← List.append_assoc, closed_line (List.not_mem_append ht hl)]

end Lines
