import Xv6Mlfq.Fs.Blocks
import Mathlib.Data.List.GetD

/-!
# Names in memory

`strncmp` and `strncpy` of `string.c`.  A pointer to bytes is what it points to, byte after byte.  A
name is what stands before the first NUL, and not more than `n` bytes: an array of `n` bytes that
are all in use has no NUL.

## Main definitions

* `text n p` — the name in an array of `n` bytes.
* `strncmp`, `strncpy` — the functions.

## Main results

* `strncmp_eq_zero` — `strncmp` compares names.
* `text_strncpy` — `strncpy` copies them.
-/

namespace Xv6Mlfq.Names

open Blocks (Bytes)

variable {n : ℕ} {p q t : Bytes}

/-- `p + 1` -/
def next (p : Bytes) : Bytes := fun j => p (j + 1)

/-- `strncmp`: the difference of the first bytes that differ, as `uchar`s -/
def strncmp : ℕ → Bytes → Bytes → ℤ
  | 0, _, _ => 0
  | n + 1, p, q =>
    if p 0 ≠ 0 ∧ p 0 = q 0 then strncmp n (next p) (next q)
    else (p 0).toNat - (q 0).toNat

/-- `strncpy`: the `n` bytes that are written.  After the NUL they are all 0. -/
def strncpy : ℕ → Bytes → List UInt8
  | 0, _ => []
  | n + 1, t => if t 0 ≠ 0 then t 0 :: strncpy n (next t) else t 0 :: List.replicate n 0

/-- The bytes before the first NUL, at most `n` -/
def text : ℕ → Bytes → List UInt8
  | 0, _ => []
  | n + 1, p => if p 0 = 0 then [] else p 0 :: text n (next p)

theorem text_of_zero (h : p 0 = 0) : text n p = [] := by
  cases n with
  | zero => rfl
  | succ n => rw [text, if_pos h]

theorem text_eq_nil : text (n + 1) p = [] ↔ p 0 = 0 := by
  rw [text]
  split_ifs with h
  · simp [h]
  · simp [h]

/-- The names are the same, or there is a difference in the first `n` bytes. -/
theorem strncmp_eq_zero : strncmp n p q = 0 ↔ text n p = text n q := by
  induction n generalizing p q with
  | zero => exact iff_of_true rfl rfl
  | succ n ih =>
    rw [strncmp]
    by_cases hp : p 0 = 0
    · rw [if_neg (by simp [hp]), text_of_zero hp, eq_comm (a := ([] : List UInt8)), text_eq_nil, hp,
        ← UInt8.toNat_inj, UInt8.toNat_zero]
      omega
    by_cases hpq : p 0 = q 0
    · have hq : q 0 ≠ 0 := hpq ▸ hp
      rw [if_pos ⟨hp, hpq⟩, ih, text, text, if_neg hp, if_neg hq, hpq]
      simp
    · rw [if_neg (by simp [hpq])]
      apply iff_of_false
      · intro heq
        apply hpq
        rw [← UInt8.toNat_inj]
        omega
      · rw [text, text, if_neg hp]
        split_ifs
        · nofun
        · intro heq
          exact hpq (List.cons.inj heq).1

theorem length_strncpy (n : ℕ) (t : Bytes) : (strncpy n t).length = n := by
  induction n generalizing t with
  | zero => rfl
  | succ n ih =>
    rw [strncpy]
    split_ifs
    · rw [List.length_cons, ih]
    · rw [List.length_cons, List.length_replicate]

/-- What has been copied is the name. -/
theorem text_strncpy (n : ℕ) (t : Bytes) : text n (fun j => (strncpy n t).getD j 0) = text n t := by
  induction n generalizing t with
  | zero => rfl
  | succ n ih =>
    by_cases h : t 0 = 0
    · rw [text_of_zero h, strncpy, if_neg (by simp [h])]
      exact text_of_zero h
    · rw [strncpy, if_pos h, text, text, if_neg h]
      have hhead : (t 0 :: strncpy n (next t)).getD 0 0 = t 0 := rfl
      rw [hhead, if_neg h]
      exact congrArg (t 0 :: ·) (ih (next t))

/-- Only the first `n` bytes matter. -/
theorem text_congr (h : ∀ j < n, p j = q j) : text n p = text n q := by
  induction n generalizing p q with
  | zero => rfl
  | succ n ih =>
    rw [text, text, h 0 (Nat.zero_lt_succ n)]
    have hrest : text n (next p) = text n (next q) := ih fun j hj => h (j + 1) (Nat.succ_lt_succ hj)
    rw [hrest]

/-- The name in an array to which the bytes `c` have been copied -/
theorem text_eq_take {c : List UInt8} (h0 : 0 ∉ c) (hp : ∀ j < n, j < c.length → p j = c.getD j 0)
    (hend : c.length < n → p c.length = 0) : text n p = c.take n := by
  induction n generalizing p c with
  | zero => rfl
  | succ n ih =>
    cases c with
    | nil => exact text_of_zero (hend (Nat.zero_lt_succ n))
    | cons x c =>
      rw [List.mem_cons, not_or] at h0
      have hhead : p 0 = x := hp 0 (Nat.zero_lt_succ n) (Nat.zero_lt_succ _)
      have hrest : text n (next p) = c.take n := by
        refine ih h0.2 ?_ ?_
        · intro j hj hlt
          exact hp (j + 1) (Nat.succ_lt_succ hj) (Nat.succ_lt_succ hlt)
        · intro hlt
          exact hend (Nat.succ_lt_succ hlt)
      rw [text, hhead, if_neg (Ne.symm h0.1), hrest, List.take_succ_cons]

end Xv6Mlfq.Names
