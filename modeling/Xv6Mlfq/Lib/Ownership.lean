import Mathlib.Logic.Function.Basic
import Mathlib.Data.Set.Basic

/-!
# Cells with one owner

Numbered cells, a map of those that are in use, and places that may each hold the number of a cell
(0 if they hold none).  The cells below `lo` are in use for good.

## Main results

* `Exclusive.take` — a place gets a cell that was free.
* `Exclusive.release` — a place gives its cell back.
-/

namespace Ownership

open Function (update update_self update_of_ne)

variable {π : Type*}

/-- The cells from `lo` to `hi` that are in use are those that some place holds, and no two places
hold the same one. -/
structure Exclusive (lo hi : ℕ) (used : ℕ → Bool) (cell : π → ℕ) : Prop where
  lo_pos : 0 < lo
  le_cell : ∀ {p}, cell p ≠ 0 → lo ≤ cell p
  cell_lt : ∀ {p}, cell p ≠ 0 → cell p < hi
  inj : ∀ {p q}, cell p ≠ 0 → cell p = cell q → p = q
  low : ∀ {b}, b < lo → used b = true
  used_iff : ∀ {b}, lo ≤ b → b < hi → (used b = true ↔ ∃ p, cell p = b)

variable {lo hi : ℕ} {used : ℕ → Bool} {cell : π → ℕ}

theorem Exclusive.used_cell (h : Exclusive lo hi used cell) {p : π} (hp : cell p ≠ 0) :
    used (cell p) = true := (h.used_iff (h.le_cell hp) (h.cell_lt hp)).mpr ⟨p, rfl⟩

/-- A free cell is nobody's. -/
theorem Exclusive.fresh (h : Exclusive lo hi used cell) {b : ℕ} (hb : b < hi)
    (hfree : used b = false) : lo ≤ b ∧ ∀ p, cell p ≠ b := by
  have hlo : lo ≤ b := by
    refine Nat.le_of_not_lt fun hlt => ?_
    rw [h.low hlt] at hfree
    cases hfree
  refine ⟨hlo, fun p hp => ?_⟩
  rw [(h.used_iff hlo hb).mpr ⟨p, hp⟩] at hfree
  cases hfree

/-- Only the cells below `hi` matter. -/
theorem Exclusive.congr {used' : ℕ → Bool} (h : Exclusive lo hi used cell) (hle : lo ≤ hi)
    (hused : ∀ b < hi, used' b = used b) : Exclusive lo hi used' cell := by
  refine ⟨h.lo_pos, h.le_cell, h.cell_lt, h.inj, fun {b} hb => ?_, fun {b} hlo hb => ?_⟩
  · rw [hused b (hb.trans_le hle)]
    exact h.low hb
  · rw [hused b hb]
    exact h.used_iff hlo hb

variable [DecidableEq π]

theorem Exclusive.take (h : Exclusive lo hi used cell) {b : ℕ} {p : π} (hb : b < hi)
    (hfree : used b = false) (hp : cell p = 0) :
    Exclusive lo hi (update used b true) (update cell p b) := by
  obtain ⟨hlo, hnone⟩ := h.fresh hb hfree
  constructor
  case lo_pos => exact h.lo_pos
  case le_cell =>
    intro q hq
    by_cases hqp : q = p
    · subst hqp
      rwa [update_self]
    · rw [update_of_ne hqp] at hq ⊢
      exact h.le_cell hq
  case cell_lt =>
    intro q hq
    by_cases hqp : q = p
    · subst hqp
      rwa [update_self]
    · rw [update_of_ne hqp] at hq ⊢
      exact h.cell_lt hq
  case inj =>
    intro q r hq he
    by_cases hqp : q = p
    · by_cases hrp : r = p
      · rw [hqp, hrp]
      · rw [hqp, update_self, update_of_ne hrp] at he
        exact absurd he.symm (hnone r)
    · rw [update_of_ne hqp] at hq he
      by_cases hrp : r = p
      · rw [hrp, update_self] at he
        exact absurd he (hnone q)
      · rw [update_of_ne hrp] at he
        exact h.inj hq he
  case low =>
    intro c hc
    rw [update_of_ne (by omega)]
    exact h.low hc
  case used_iff =>
    intro c hlc hc
    by_cases hcb : c = b
    · subst hcb
      rw [update_self]
      exact iff_of_true rfl ⟨p, update_self ..⟩
    · rw [update_of_ne hcb, h.used_iff hlc hc]
      have hlo_pos := h.lo_pos
      constructor
      · rintro ⟨q, hq⟩
        have hqp : q ≠ p := by
          rintro rfl
          omega
        exact ⟨q, by rwa [update_of_ne hqp]⟩
      · rintro ⟨q, hq⟩
        have hqp : q ≠ p := by
          rintro rfl
          rw [update_self] at hq
          exact hcb hq.symm
        exact ⟨q, by rwa [update_of_ne hqp] at hq⟩

theorem Exclusive.release (h : Exclusive lo hi used cell) {p : π} (hp : cell p ≠ 0) :
    Exclusive lo hi (update used (cell p) false) (update cell p 0) := by
  have hne : ∀ {q}, update cell p 0 q ≠ 0 → q ≠ p := by
    rintro q hq rfl
    exact hq (update_self ..)
  constructor
  case lo_pos => exact h.lo_pos
  case le_cell =>
    intro q hq
    have hqp := hne hq
    rw [update_of_ne hqp] at hq ⊢
    exact h.le_cell hq
  case cell_lt =>
    intro q hq
    have hqp := hne hq
    rw [update_of_ne hqp] at hq ⊢
    exact h.cell_lt hq
  case inj =>
    intro q r hq he
    have hqp := hne hq
    have hrp := hne (he ▸ hq)
    rw [update_of_ne hqp] at hq he
    rw [update_of_ne hrp] at he
    exact h.inj hq he
  case low =>
    intro c hc
    have := h.le_cell hp
    rw [update_of_ne (by omega)]
    exact h.low hc
  case used_iff =>
    intro c hlc hc
    have hlo_pos := h.lo_pos
    by_cases hcp : c = cell p
    · subst hcp
      rw [update_self]
      refine iff_of_false Bool.false_ne_true ?_
      rintro ⟨q, hq⟩
      have hqp := hne (by rwa [hq])
      rw [update_of_ne hqp] at hq
      exact hqp (h.inj hp hq.symm).symm
    · rw [update_of_ne hcp, h.used_iff hlc hc]
      constructor
      · rintro ⟨q, hq⟩
        have hqp : q ≠ p := by
          rintro rfl
          exact hcp hq.symm
        exact ⟨q, by rwa [update_of_ne hqp]⟩
      · rintro ⟨q, hq⟩
        have hqp := hne (q := q) (by omega)
        exact ⟨q, by rwa [update_of_ne hqp] at hq⟩

end Ownership
