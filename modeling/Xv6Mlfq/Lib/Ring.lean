import Mathlib.Logic.Function.Basic
import Mathlib.Algebra.Order.Group.Nat
import Mathlib.Data.Nat.ModEq
import Mathlib.Tactic.Ring

/-!
# Rings with free-running indices

A ring of `n` cells is filled at `w` and emptied at `r`; both are 32-bit counters that only go up,
and the cell of an index is its remainder by `n`.  The counters wrap around, which does no harm as
long as `n` divides `2 ^ 32`.

`Window n buf r w xs` says that the cells from `r` to `w` hold `xs`.

## Main results

* `Window.eq_iff`, `Window.full_iff`, `Window.toNat_sub` — what the counters say about `xs`.
* `Window.push`, `Window.pop`, `Window.unpush` — filling, emptying, and taking back what was filled
  in.
-/

namespace Ring

open Function (update update_self update_of_ne)

variable {α : Type*}

structure Window (n : ℕ) (buf : ℕ → α) (r w : UInt32) (xs : List α) : Prop where
  length_le : xs.length ≤ n
  span : w = r + UInt32.ofNat xs.length
  cells : ∀ i (h : i < xs.length), buf ((r.toNat + i) % n) = xs[i]

/-- The cells from `r` to `w`. -/
def contents (n : ℕ) (buf : ℕ → α) (r w : UInt32) : List α :=
  (List.range (w - r).toNat).map fun i => buf ((r.toNat + i) % n)

/-! ## Counters -/

theorem toNat_add_ofNat (r : UInt32) (k : ℕ) :
    (r + UInt32.ofNat k).toNat = (r.toNat + k) % 2 ^ 32 := by
  rw [UInt32.toNat_add, UInt32.toNat_ofNat', Nat.add_mod_mod]

theorem add_ofNat_inj {r : UInt32} {j k : ℕ} (hj : j < 2 ^ 32) (hk : k < 2 ^ 32) :
    r + UInt32.ofNat j = r + UInt32.ofNat k ↔ j = k := by
  rw [UInt32.add_right_inj, ← UInt32.toNat_inj, UInt32.toNat_ofNat_of_lt' hj,
    UInt32.toNat_ofNat_of_lt' hk]

theorem add_ofNat_succ (r : UInt32) (k : ℕ) :
    r + UInt32.ofNat (k + 1) = r + UInt32.ofNat k + 1 := by
  rw [UInt32.ofNat_add, UInt32.add_assoc]
  rfl

theorem add_one_add_ofNat (r : UInt32) (k : ℕ) :
    r + 1 + UInt32.ofNat k = r + UInt32.ofNat (k + 1) := by
  rw [add_ofNat_succ, UInt32.add_assoc, UInt32.add_assoc, UInt32.add_comm 1]

/-! ## Windows -/

section

variable {n : ℕ} {buf : ℕ → α} {r w : UInt32} {x : α} {xs ys : List α}

theorem window_nil : Window n buf r r [] := by
  refine ⟨Nat.zero_le n, ?_, nofun⟩
  exact (UInt32.add_zero r).symm

/-- The first part of a window. -/
theorem Window.take (h : Window n buf r w (xs ++ ys)) :
    Window n buf r (r + UInt32.ofNat xs.length) xs := by
  have hlen := h.length_le
  rw [List.length_append] at hlen
  refine ⟨by omega, rfl, fun i hi => ?_⟩
  have hi' : i < (xs ++ ys).length := by
    rw [List.length_append]
    omega
  rw [h.cells i hi', List.getElem_append_left hi]

variable (hn : n < 2 ^ 32)
include hn

theorem Window.eq_iff (h : Window n buf r w xs) : r = w ↔ xs = [] := by
  have hlen := h.length_le
  have hzero : r = r + UInt32.ofNat 0 := (UInt32.add_zero r).symm
  calc r = w ↔ r + UInt32.ofNat 0 = r + UInt32.ofNat xs.length := by rw [← hzero, ← h.span]
    _ ↔ 0 = xs.length := add_ofNat_inj (by norm_num) (by omega)
    _ ↔ xs = [] := eq_comm.trans List.length_eq_zero_iff

theorem Window.full_iff (h : Window n buf r w xs) : w = r + UInt32.ofNat n ↔ xs.length = n := by
  have hlen := h.length_le
  rw [h.span]
  exact add_ofNat_inj (by omega) hn

omit hn in
theorem add_ofNat_sub (r : UInt32) {k : ℕ} (hk : k < 2 ^ 32) :
    (r + UInt32.ofNat k - r).toNat = k := by
  rw [UInt32.add_comm, UInt32.add_sub_cancel]
  exact UInt32.toNat_ofNat_of_lt' hk

theorem Window.toNat_sub (h : Window n buf r w xs) : (w - r).toNat = xs.length := by
  rw [h.span]
  exact add_ofNat_sub r (lt_of_le_of_lt h.length_le hn)

theorem Window.contents_eq (h : Window n buf r w xs) : contents n buf r w = xs := by
  rw [contents, h.toNat_sub hn]
  refine List.ext_getElem (by simp) fun i hi hi' => ?_
  rw [List.getElem_map, List.getElem_range]
  exact h.cells i hi'

omit hn

variable (hdvd : n ∣ 2 ^ 32)
include hdvd

theorem Window.toNat_mod (h : Window n buf r w xs) :
    w.toNat % n = (r.toNat + xs.length) % n := by
  rw [h.span, toNat_add_ofNat, Nat.mod_mod_of_dvd _ hdvd]

/-- The second part of a window. -/
theorem Window.drop (h : Window n buf r w (xs ++ ys)) :
    Window n buf (r + UInt32.ofNat xs.length) w ys := by
  have hlen := h.length_le
  rw [List.length_append] at hlen
  refine ⟨by omega, ?_, fun i hi => ?_⟩
  · rw [h.span, List.length_append, UInt32.ofNat_add, UInt32.add_assoc]
  · have hi' : xs.length + i < (xs ++ ys).length := by
      rw [List.length_append]
      omega
    have hmod : ((r + UInt32.ofNat xs.length).toNat + i) % n = (r.toNat + (xs.length + i)) % n := by
      rw [toNat_add_ofNat, Nat.add_mod, Nat.mod_mod_of_dvd _ hdvd, ← Nat.add_mod, Nat.add_assoc]
    rw [hmod, h.cells _ hi', List.getElem_append_right (by omega)]
    congr 1
    omega

/-- A cell is filled in. -/
theorem Window.push (h : Window n buf r w xs) (hlt : xs.length < n) :
    Window n (update buf (w.toNat % n) x) r (w + 1) (xs ++ [x]) := by
  have hlen : (xs ++ [x]).length = xs.length + 1 := by simp
  refine ⟨by omega, ?_, fun i hi => ?_⟩
  · rw [hlen, add_ofNat_succ, ← h.span]
  · rw [h.toNat_mod hdvd]
    rcases Nat.lt_or_ge i xs.length with hi' | hi'
    · -- the cells from `r` on are distinct
      have hne : (r.toNat + i) % n ≠ (r.toNat + xs.length) % n := by
        intro he
        have hmod : i ≡ xs.length [MOD n] := Nat.ModEq.add_left_cancel' r.toNat he
        have := hmod.eq_of_lt_of_lt (by omega) hlt
        omega
      rw [update_of_ne hne, h.cells i hi', List.getElem_append_left hi']
    · have hi'' : i = xs.length := by omega
      subst hi''
      rw [update_self, List.getElem_concat_length]
      rfl

/-- A cell is emptied. -/
theorem Window.pop (h : Window n buf r w (x :: xs)) :
    buf (r.toNat % n) = x ∧ Window n buf (r + 1) w xs := by
  have hlen := h.length_le
  rw [List.length_cons] at hlen
  refine ⟨?_, by omega, ?_, fun i hi => ?_⟩
  · exact h.cells 0 (Nat.zero_lt_succ _)
  · rw [h.span, List.length_cons, add_one_add_ofNat]
  · have hr : ((r + 1).toNat + i) % n = (r.toNat + (i + 1)) % n := by
      have hone : (r + 1).toNat = (r.toNat + 1) % 2 ^ 32 := toNat_add_ofNat r 1
      rw [hone, Nat.add_mod, Nat.mod_mod_of_dvd _ hdvd, ← Nat.add_mod]
      congr 1
      ring
    rw [hr, h.cells (i + 1) (Nat.succ_lt_succ hi), List.getElem_cons_succ]

/-- The cell that was filled in last is taken back. -/
theorem Window.unpush (h : Window n buf r w (xs ++ [x])) :
    buf ((w - 1).toNat % n) = x ∧ Window n buf r (w - 1) xs := by
  have hspan : w = r + UInt32.ofNat xs.length + 1 := by
    rw [h.span, List.length_append, List.length_singleton, add_ofNat_succ]
  have hw : w - 1 = r + UInt32.ofNat xs.length := by rw [hspan, UInt32.add_sub_cancel]
  have htake := h.take
  rw [← hw] at htake
  refine ⟨?_, htake⟩
  have hlast : xs.length < (xs ++ [x]).length := by simp
  rw [htake.toNat_mod hdvd, h.cells xs.length hlast, List.getElem_concat_length]
  rfl

end

end Ring
