import Mathlib.Logic.Function.Basic
import Mathlib.Tactic.Common

/-!
# Regions of a memory

A memory is a function from addresses, which are natural numbers.  `up` copies a region cell by cell
from its first cell on, and `down` from its last; each reads from the memory as the rounds before
have left it.  `Moved` is what a copy is meant to do: the region has the cells that the source had
before, and all others stay.

Copying down is right whenever the source does not lie above the destination.  Copying up fails when
the destination starts inside the source: from there on it reads cells it has written, and what it
leaves is the first part of the source, over and over.  It is right after all exactly when the
source repeats itself that way already (`moved_up_iff`).

## Main definitions

* `load`, `store` — the cells of a region as a list.
* `up`, `down` — the two ways to copy.
* `Moved` — what a copy is meant to do.
-/

namespace Region

open Function (update update_self update_of_ne)

universe u
variable {α : Type u} {m m' : ℕ → α} {d s k : ℕ}

/-! ## Lists of cells -/

/-- The `k` cells from `a` on -/
def load (m : ℕ → α) (a k : ℕ) : List α := (List.range k).map fun i => m (a + i)

/-- The cells from `a` on become those of the list. -/
def store (m : ℕ → α) (a : ℕ) (l : List α) : ℕ → α := fun b =>
  if a ≤ b then (l[b - a]?).getD (m b) else m b

@[simp] theorem length_load (m : ℕ → α) (a k : ℕ) : (load m a k).length = k := by simp [load]

theorem getElem?_load (m : ℕ → α) (a k i : ℕ) :
    (load m a k)[i]? = if i < k then some (m (a + i)) else none := by
  by_cases h : i < k
  · simp [load, h]
  · simp [load, h]

variable {a i : ℕ}

/-- A region holds a list if each cell has its entry. -/
theorem load_eq_iff {l : List α} :
    load m a l.length = l ↔ ∀ i < l.length, l[i]? = some (m (a + i)) := by
  constructor
  · intro h i hi
    have hget := getElem?_load m a l.length i
    rwa [h, if_pos hi] at hget
  · intro h
    apply List.ext_getElem?
    intro i
    rw [getElem?_load]
    by_cases hi : i < l.length
    · rw [if_pos hi, h i hi]
    · rw [if_neg hi, List.getElem?_eq_none (Nat.not_lt.mp hi)]

theorem load_congr (h : ∀ i < k, m' (a + i) = m (a + i)) : load m' a k = load m a k := by
  apply List.map_congr_left
  intro i hi
  exact h i (List.mem_range.mp hi)

theorem load_append (m : ℕ → α) (a j k : ℕ) :
    load m a (j + k) = load m a j ++ load m (a + j) k := by
  rw [load, List.range_add, List.map_append, List.map_map]
  simp only [load, Function.comp_def, Nat.add_assoc]

/-- The two parts of a list that a region holds -/
theorem load_split {l₁ l₂ : List α} : load m a (l₁ ++ l₂).length = l₁ ++ l₂ ↔
      load m a l₁.length = l₁ ∧ load m (a + l₁.length) l₂.length = l₂ := by
  rw [List.length_append, load_append]
  exact ⟨fun h => List.append_inj h (length_load _ _ _), fun h => by rw [h.1, h.2]⟩

theorem store_outside {b : ℕ} {l : List α} (h : ¬ (a ≤ b ∧ b < a + l.length)) :
    store m a l b = m b := by
  unfold store
  split_ifs with hle
  · rw [List.getElem?_eq_none (by omega)]
    rfl
  · rfl

theorem load_store (m : ℕ → α) (a : ℕ) (l : List α) : load (store m a l) a l.length = l := by
  rw [load_eq_iff]
  intro i hi
  have hsub : a + i - a = i := by omega
  rw [store, if_pos (Nat.le_add_right a i), hsub, List.getElem?_eq_getElem hi]
  rfl

/-! ## Copying -/

/-- `k` rounds of `*d++ = *s++` -/
def up : ℕ → ℕ → ℕ → (ℕ → α) → ℕ → α
  | 0, _, _, m => m
  | k + 1, d, s, m => up k (d + 1) (s + 1) (update m d (m s))

/-- `k` rounds of `*--d = *--s`, which end at `d` and `s` -/
def down : ℕ → ℕ → ℕ → (ℕ → α) → ℕ → α
  | 0, _, _, m => m
  | k + 1, d, s, m => down k d s (update m (d + k) (m (s + k)))

/-- The `k` cells at `d` are those that were at `s`, and all others are as they were. -/
structure Moved (m m' : ℕ → α) (d s k : ℕ) : Prop where
  copied : ∀ i < k, m' (d + i) = m (s + i)
  frame : ∀ a, ¬ (d ≤ a ∧ a < d + k) → m' a = m a

/-! ## Copying down -/

theorem down_outside (h : ¬ (d ≤ a ∧ a < d + k)) : down k d s m a = m a := by
  induction k generalizing m with
  | zero => rfl
  | succ k ih =>
    rw [down, ih (by omega), update_of_ne]
    omega

theorem down_apply (h : s ≤ d) (hi : i < k) : down k d s m (d + i) = m (s + i) := by
  induction k generalizing m with
  | zero => omega
  | succ k ih =>
    rw [down]
    by_cases hik : i = k
    · subst hik
      rw [down_outside (by omega), update_self]
    · -- the cell written last is above all that are read from now on
      rw [ih (by omega), update_of_ne]
      omega

theorem moved_down (h : s ≤ d) : Moved m (down k d s m) d s k :=
  ⟨fun _ => down_apply h, fun _ => down_outside⟩

/-! ## Copying up -/

theorem up_outside (h : ¬ (d ≤ a ∧ a < d + k)) : up k d s m a = m a := by
  induction k generalizing m d s with
  | zero => rfl
  | succ k ih =>
    rw [up, ih (by omega), update_of_ne]
    omega

theorem up_add (i : ℕ) : up (i + k) d s m = up k (d + i) (s + i) (up i d s m) := by
  induction i generalizing d s m with
  | zero => rw [Nat.zero_add]; rfl
  | succ i ih =>
    rw [Nat.succ_add, up, ih, up]
    congr 1 <;> omega

/-- The cell written in round `i` has what the rounds before have left at the source. -/
theorem up_apply (hi : i < k) : up k d s m (d + i) = up i d s m (s + i) := by
  obtain ⟨r, rfl⟩ : ∃ r, k = i + (r + 1) := ⟨k - i - 1, by omega⟩
  rw [up_add, up, up_outside (by omega), update_self]

theorem up_apply_below (hi : i < k) (h : s + i < d ∨ d + i ≤ s + i) :
    up k d s m (d + i) = m (s + i) := by
  rw [up_apply hi, up_outside (by omega)]

/-- Where the destination starts inside the source, the copy repeats itself. -/
theorem up_apply_above (hi : i + (d - s) < k) (h : s < d) :
    up k d s m (d + (i + (d - s))) = up k d s m (d + i) := by
  have hsame : s + (i + (d - s)) = d + i := by omega
  rw [up_apply hi, hsame, up_apply (k := i + (d - s)) (by omega), up_apply (by omega)]

/-- **A copy upwards is right** when the destination does not start inside the source, and otherwise
exactly when the source has the period of the distance. -/
theorem moved_up_iff : Moved m (up k d s m) d s k ↔
    (s < d → d < s + k → ∀ i, i + (d - s) < k → m (s + i) = m (d + i)) := by
  constructor
  · intro h hlt _ i hi
    have hshift : s + (i + (d - s)) = d + i := by omega
    rw [← h.copied i (by omega), ← up_apply_above hi hlt, h.copied _ hi, hshift]
  · intro h
    refine ⟨?_, fun _ => up_outside⟩
    intro i
    induction i using Nat.strongRecOn with
    | ind i ih =>
      intro hi
      by_cases hbelow : s + i < d ∨ d + i ≤ s + i
      · exact up_apply_below hi hbelow
      · -- a cell that was written before: one distance further down
        obtain ⟨r, rfl⟩ : ∃ r, i = r + (d - s) := ⟨i - (d - s), by omega⟩
        have hshift : s + (r + (d - s)) = d + r := by omega
        rw [up_apply_above hi (by omega), ih r (by omega) (by omega),
          h (by omega) (by omega) r hi, hshift]

theorem Moved.load_eq (h : Moved m m' d s k) : load m' d k = load m s k := by
  apply List.map_congr_left
  intro i hi
  exact h.copied i (List.mem_range.mp hi)

theorem moved_up (h : ¬ (s < d ∧ d < s + k)) : Moved m (up k d s m) d s k :=
  moved_up_iff.mpr fun hlt hlt' => absurd ⟨hlt, hlt'⟩ h

end Region
