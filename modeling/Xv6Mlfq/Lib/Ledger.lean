import Mathlib.Data.Finset.Card
import Mathlib.Logic.Function.Basic

/-!
# Who holds what

Items are kept in places: `f i = some x` says that the place `i` holds the item `x`.
`holding s f x` counts the places in the finite set `s` that hold `x`.  An item that is
put into an empty place or taken out of one changes the count of that item by one, and no
other count; a ledger that adds up several such counts is balanced as long as every item
that is taken out of one place is put into another.

## Main results

* `holding_put`, `holding_take` — the two moves.
* `eq_of_holding_le_one` — an item that is held at most once is held in one place.
-/

namespace Ledger

open Function (update update_self update_of_ne)

variable {ι α : Type*} [DecidableEq α] {s : Finset ι} {f g : ι → Option α} {i j : ι} {x y : α}

/-- The number of places in `s` that hold `x`. -/
def holding (s : Finset ι) (f : ι → Option α) (x : α) : ℕ :=
  (s.filter fun i => f i = some x).card

theorem holding_congr (h : ∀ i ∈ s, f i = g i) (x : α) : holding s f x = holding s g x := by
  refine congrArg Finset.card (Finset.filter_congr ?_)
  intro i hi
  rw [h i hi]

theorem holding_eq_zero : holding s f x = 0 ↔ ∀ i ∈ s, f i ≠ some x := by
  rw [holding, Finset.card_eq_zero, Finset.filter_eq_empty_iff]

theorem holding_pos (hi : i ∈ s) (h : f i = some x) : 0 < holding s f x :=
  Finset.card_pos.mpr ⟨i, Finset.mem_filter.mpr ⟨hi, h⟩⟩

theorem eq_of_holding_le_one (h : holding s f x ≤ 1) (hi : i ∈ s) (hj : j ∈ s)
    (hfi : f i = some x) (hfj : f j = some x) : i = j :=
  Finset.card_le_one.mp h i (Finset.mem_filter.mpr ⟨hi, hfi⟩) j
    (Finset.mem_filter.mpr ⟨hj, hfj⟩)

theorem holding_range (n : ℕ) (f : ℕ → Option α) (x : α) :
    holding (Finset.range n) f x = (List.range n).countP fun i => f i = some x := by
  rw [List.countP_eq_length_filter]
  rfl

variable [DecidableEq ι]

/-- An item is put into an empty place. -/
theorem holding_put (hi : i ∈ s) (hf : f i = none) (y x : α) :
    holding s (update f i (some y)) x = holding s f x + if y = x then 1 else 0 := by
  by_cases hyx : y = x
  · subst hyx
    have hset : (s.filter fun j => update f i (some y) j = some y) =
        insert i (s.filter fun j => f j = some y) := by
      ext j
      by_cases hj : j = i
      · simp [hj, hi]
      · simp [hj]
    rw [if_pos rfl, holding, hset, Finset.card_insert_of_notMem (by simp [hf]), holding]
  · rw [if_neg hyx, Nat.add_zero]
    refine congrArg Finset.card (Finset.filter_congr ?_)
    intro j _
    by_cases hj : j = i
    · simp [hj, hyx, hf]
    · simp [hj]

/-- The item is taken out of a place. -/
theorem holding_take (hi : i ∈ s) (hf : f i = some y) (x : α) :
    holding s (update f i none) x + (if y = x then 1 else 0) = holding s f x := by
  rw [← holding_put hi (update_self i none f)]
  refine holding_congr ?_ x
  intro j _
  by_cases hj : j = i
  · rw [hj, update_self, hf]
  · rw [update_of_ne hj, update_of_ne hj]

/-- A place outside the set does not count. -/
theorem holding_update_of_notMem (hi : i ∉ s) (o : Option α) (x : α) :
    holding s (update f i o) x = holding s f x := by
  refine holding_congr ?_ x
  intro j hj
  rw [update_of_ne]
  rintro rfl
  exact hi hj

end Ledger
