import Xv6Mlfq.Lib.Region
import Mathlib.Data.Int.Notation
import Mathlib.Tactic.NormNum

/-!
# The two `memmove`s

`string.c` has one for the kernel and `ulib.c` one for user programs.  The kernel's looks at how the
regions lie and copies from the end when the destination starts inside the source; the other always
copies from the start.  Addresses are numbers below `2 ^ 32`, and pointers wrap there.

## Main definitions

* `KString.memmove`, `Ulib.memmove` — as in the source.

## Main results

* `KString.moved_memmove` — the kernel's is right for all regions.
* `memmove_agree_iff` — both are, if and only if the one of `ulib.c` does not read a cell that it
  has overwritten with something else.
-/

namespace Xv6Mlfq.Libc

open Function (update)
open Region (Moved)

/-- A pointer moved by `i`, in 32 bits. -/
def ptr (i : ℕ) : ℕ := i % 2 ^ 32

theorem ptr_of_lt {i : ℕ} (h : i < 2 ^ 32) : ptr i = i := Nat.mod_eq_of_lt h

/-- The bytes may be of any type. -/
abbrev Bytes (B : Type) := ℕ → B

variable {B : Type} {m : Bytes B} {d s n : ℕ}

/-- `while(n-- > 0) *d++ = *s++` -/
def copyForward : ℕ → ℕ → ℕ → Bytes B → Bytes B
  | 0, _, _, m => m
  | n + 1, d, s, m => copyForward n (ptr (d + 1)) (ptr (s + 1)) (update m d (m s))

/-- `while(n-- > 0) *--d = *--s` -/
def copyBackward : ℕ → ℕ → ℕ → Bytes B → Bytes B
  | 0, _, _, m => m
  | n + 1, d, s, m =>
    let d := ptr (d + 2 ^ 32 - 1)
    let s := ptr (s + 2 ^ 32 - 1)
    copyBackward n d s (update m d (m s))

/-- `memmove` of `string.c` -/
def KString.memmove (dst src n : ℕ) (m : Bytes B) : Bytes B :=
  if src < dst ∧ dst < ptr (src + n) then copyBackward n (ptr (dst + n)) (ptr (src + n)) m
  else copyForward n dst src m

/-- `memmove` of `ulib.c`, where `n` is an `int` -/
def Ulib.memmove (dst src : ℕ) (n : ℤ) (m : Bytes B) : Bytes B := copyForward n.toNat dst src m

/-! ## Without a wrap -/

theorem copyForward_eq (hd : d + n < 2 ^ 32) (hs : s + n < 2 ^ 32) :
    copyForward n d s m = Region.up n d s m := by
  induction n generalizing d s m with
  | zero => rfl
  | succ n ih =>
    rw [copyForward, Region.up, ptr_of_lt (by omega), ptr_of_lt (by omega),
      ih (by omega) (by omega)]

theorem copyBackward_eq (hd : d + n < 2 ^ 32) (hs : s + n < 2 ^ 32) :
    copyBackward n (d + n) (s + n) m = Region.down n d s m := by
  induction n generalizing m with
  | zero => rfl
  | succ n ih =>
    have hback : ∀ a, a + (n + 1) < 2 ^ 32 → ptr (a + (n + 1) + 2 ^ 32 - 1) = a + n := by
      intro a ha
      unfold ptr
      omega
    rw [copyBackward, Region.down, hback d hd, hback s hs, ih (by omega) (by omega)]

/-- The `memmove` of the kernel is right for all regions. -/
theorem KString.moved_memmove (hd : d + n < 2 ^ 32) (hs : s + n < 2 ^ 32) :
    Moved m (KString.memmove d s n m) d s n := by
  rw [KString.memmove, ptr_of_lt hd, ptr_of_lt hs]
  split_ifs with h
  · rw [copyBackward_eq hd hs]
    exact Region.moved_down (Nat.le_of_lt h.1)
  · rw [copyForward_eq hd hs]
    exact Region.moved_up h

theorem Ulib.moved_memmove_iff (hd : d + n < 2 ^ 32) (hs : s + n < 2 ^ 32) :
    Moved m (Ulib.memmove d s n m) d s n ↔
      (s < d → d < s + n → ∀ i, i + (d - s) < n → m (s + i) = m (d + i)) := by
  rw [Ulib.memmove, Int.toNat_natCast, copyForward_eq hd hs]
  exact Region.moved_up_iff

/-- **When the two `memmove`s do what they should.**  For every memory and all regions that do not
wrap around: both leave in `[dst, dst+n)` what was in `[src, src+n)`, and change nothing else, if
and only if `dst` does not lie inside the source or the bytes of the source there are, one distance
apart, the same. -/
theorem memmove_agree_iff (m : Bytes B) {dst src n : ℕ} (hd : dst + n < 2 ^ 32)
    (hs : src + n < 2 ^ 32) :
    (Moved m (KString.memmove dst src n m) dst src n ∧
    Moved m (Ulib.memmove dst src n m) dst src n) ↔
      (src < dst → dst < src + n → ∀ i, i + (dst - src) < n → m (src + i) = m (dst + i)) := by
  rw [Ulib.moved_memmove_iff hd hs]
  exact and_iff_right (KString.moved_memmove hd hs)

/-- Apart, and with the destination below the source. -/
theorem memmove_agree_iff_below :
    Moved (fun a => UInt8.ofNat a) (KString.memmove 4096 4097 3 fun a => UInt8.ofNat a)
    4096 4097 3 ∧
      Moved (fun a => UInt8.ofNat a) (Ulib.memmove 4096 4097 (3 : ℕ) fun a => UInt8.ofNat a)
      4096 4097 3 :=
  (memmove_agree_iff _ (by norm_num) (by norm_num)).mpr fun h => absurd h (by norm_num)

/-- Two bytes, moved up by one: the second is overwritten before it is read. -/
theorem ulib_memmove_overlap :
    Moved (fun a => UInt8.ofNat a) (KString.memmove 4097 4096 2 fun a => UInt8.ofNat a)
    4097 4096 2 ∧
      Ulib.memmove 4097 4096 2 (fun a => UInt8.ofNat a) 4098 = UInt8.ofNat 4096 ∧
      ¬ Moved (fun a => UInt8.ofNat a) (Ulib.memmove 4097 4096 2 fun a => UInt8.ofNat a)
      4097 4096 2 := by
  have hvalue : Ulib.memmove 4097 4096 2 (fun a => UInt8.ofNat a) 4098 = UInt8.ofNat 4096 := by
    decide
  refine ⟨KString.moved_memmove (by norm_num) (by norm_num), hvalue, ?_⟩
  intro h
  have hcopied := h.copied 1 (by norm_num)
  rw [hvalue] at hcopied
  revert hcopied
  decide

end Xv6Mlfq.Libc
