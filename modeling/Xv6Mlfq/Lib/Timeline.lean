import Mathlib.Order.Disjoint
import Mathlib.Order.Interval.Set.Basic
import Mathlib.Order.SetNotation
import Mathlib.Logic.Function.Basic
import Mathlib.Data.Set.BooleanAlgebra
import Mathlib.Order.CompletePartialOrder

/-!
# Timelines

One worker records when it is busy.  A record has a start and a length; the worker opens a
record by writing the current time as its start, and closes it by adding the time that has
passed since.  Only a record of length zero may be opened: the same record opened twice would
keep one start for two stretches of work.  Then the records of a timeline describe what was
done when, whatever the set `R` of records is.

## Main definitions

* `Timeline`, `Step` — the clock, the records, and the moves.
* `Timeline.interval t r` — the stretch of time that the record `r` claims.
* `Inv` — the intervals are in the past and pairwise disjoint; kept by every move.
-/

open Function (update update_self)

/-- A clock and records of what was done when. -/
@[ext] structure Timeline (R : Type*) where
  now : ℕ
  start : R → ℕ
  length : R → ℕ
  /-- The record that is open. -/
  current : Option R

namespace Timeline

variable {R : Type*}

/-- The time that a record claims. -/
def interval (t : Timeline R) (r : R) : Set ℕ := Set.Ico (t.start r) (t.start r + t.length r)

theorem interval_of_length_zero {t : Timeline R} {r : R} (h : t.length r = 0) :
    t.interval r = ∅ := by
  simp [interval, h]

/-- The moves. -/
inductive Step [DecidableEq R] : Timeline R → Timeline R → Prop
  | tick (t) : Step t { t with now := t.now + 1 }
  | opens {t} (r : R) (hr : t.length r = 0) :
      Step t { t with start := update t.start r t.now, current := some r }
  | closes {t} (r : R) (hr : t.current = some r) :
      Step t { t with
        length := update t.length r (t.length r + (t.now - t.start r)), current := none }

/-- The intervals are in the past, before the start of the open record, and disjoint. -/
structure Inv (t : Timeline R) : Prop where
  past : ∀ r, ∀ x ∈ t.interval r, x < t.now
  apart : ∀ r r', r ≠ r' → Disjoint (t.interval r) (t.interval r')
  empty : ∀ r, t.current = some r → t.length r = 0
  started : ∀ r, t.current = some r → t.start r ≤ t.now
  before : ∀ r, t.current = some r → ∀ r', ∀ x ∈ t.interval r', x < t.start r

variable [DecidableEq R]

/-- Opening a record claims no time yet. -/
theorem interval_opens {t : Timeline R} {r : R} (hr : t.length r = 0) (x : Option R) :
    ({ t with start := update t.start r t.now, current := x } : Timeline R).interval =
      t.interval := by
  funext r'
  by_cases h : r' = r
  · subst h
    rw [interval_of_length_zero hr]
    simp [interval, hr]
  · simp [interval, h]

theorem interval_closes {t : Timeline R} (h : Inv t) {r : R} (hr : t.current = some r)
    (r' : R) : ({ t with
      length := update t.length r (t.length r + (t.now - t.start r)), current := none } :
        Timeline R).interval r' = if r' = r then Set.Ico (t.start r) t.now else t.interval r' := by
  by_cases hrr : r' = r
  · subst hrr
    have hle := h.started r' hr
    have hend : t.start r' + (t.length r' + (t.now - t.start r')) = t.now := by
      rw [h.empty r' hr]
      omega
    simp only [interval, update_self, hend, if_true]
  · simp [interval, hrr]

theorem Inv.step {t t' : Timeline R} (h : Inv t) (hs : Step t t') : Inv t' := by
  cases hs with
  | tick =>
    refine ⟨?_, h.apart, h.empty, ?_, h.before⟩
    · intro r x hx
      exact (h.past r x hx).trans (Nat.lt_succ_self _)
    · intro r hr
      exact (h.started r hr).trans (Nat.le_succ _)
  | opens r hr =>
    have hint := interval_opens hr (some r)
    refine ⟨?_, ?_, ?_, ?_, ?_⟩
    · intro r' x hx
      rw [hint] at hx
      exact h.past r' x hx
    · intro r' r'' hne
      rw [hint]
      exact h.apart r' r'' hne
    · intro r' he
      cases he
      exact hr
    · intro r' he
      cases he
      simp
    · intro r' he r'' x hx
      cases he
      rw [hint] at hx
      simpa using h.past r'' x hx
  | closes r hr =>
    -- the new interval begins after all others have ended
    have hnew : ∀ r', Disjoint (Set.Ico (t.start r) t.now) (t.interval r') := by
      intro r'
      rw [Set.disjoint_left]
      intro x hx hx'
      exact absurd (h.before r hr r' x hx') (not_lt.mpr hx.1)
    refine ⟨?_, ?_, by simp, by simp, by simp⟩
    · intro r' x hx
      rw [interval_closes h hr] at hx
      split_ifs at hx
      · exact hx.2
      · exact h.past r' x hx
    · intro r' r'' hne
      rw [interval_closes h hr, interval_closes h hr]
      split_ifs with h₁ h₂ h₂
      · exact absurd (h₁.trans h₂.symm) hne
      · exact hnew r''
      · exact (hnew r').symm
      · exact h.apart r' r'' hne

end Timeline
