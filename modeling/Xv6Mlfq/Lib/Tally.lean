import Mathlib.Data.Set.Card

/-!
# Counting those with a property

`tally f Q` is the number of arguments whose value under `f` has the property `Q`.  One value of
`f` is changed at a time, so that the number goes up or down by one, or stays.
-/

namespace Tally

open Function (update update_self update_of_ne)

variable {P α : Type*}

/-- How many values of `f` have the property `Q`. -/
noncomputable def tally (f : P → α) (Q : α → Prop) : ℕ∞ := {p | Q (f p)}.encard

theorem tally_pos {f : P → α} {Q : α → Prop} {p : P} (h : Q (f p)) : 0 < tally f Q :=
  Set.encard_pos.mpr ⟨p, h⟩

theorem tally_eq_zero {f : P → α} {Q : α → Prop} : tally f Q = 0 ↔ ∀ p, ¬ Q (f p) := by
  rw [tally, Set.encard_eq_zero, Set.eq_empty_iff_forall_notMem]
  exact Iff.rfl

theorem tally_congr {f g : P → α} {Q : α → Prop} (h : ∀ p, Q (f p) ↔ Q (g p)) :
    tally f Q = tally g Q := by
  rw [tally, tally, Set.ext fun p => h p]

variable [DecidableEq P] {f : P → α} {Q : α → Prop} {p : P} {x : α}

theorem tally_same (h : Q x ↔ Q (f p)) : tally (update f p x) Q = tally f Q := by
  refine tally_congr fun q => ?_
  by_cases hq : q = p
  · rw [hq, update_self, h]
  · rw [update_of_ne hq]

theorem tally_enter (hp : ¬ Q (f p)) (hx : Q x) :
    tally (update f p x) Q = tally f Q + 1 := by
  have hset : {q | Q (update f p x q)} = insert p {q | Q (f q)} := by
    ext q
    by_cases hq : q = p
    · simp [hq, hx]
    · simp [hq]
  have hp' : p ∉ {q | Q (f q)} := hp
  rw [tally, hset, Set.encard_insert_of_notMem hp', tally]

theorem tally_leave (hp : Q (f p)) (hx : ¬ Q x) :
    tally (update f p x) Q + 1 = tally f Q := by
  have hback : update (update f p x) p (f p) = f := by
    rw [Function.update_idem, Function.update_eq_self]
  have h : tally (update (update f p x) p (f p)) Q = tally (update f p x) Q + 1 :=
    tally_enter (by rwa [update_self]) hp
  rw [← h, hback]

end Tally
