import Mathlib.Data.List.Basic
import Mathlib.Data.List.Range
import Mathlib.Tactic.Ring
import Mathlib.Tactic.Linarith

/-!
# Fixed-size arrays indexed by machine integers, and their live window

A `CArray α n` has exactly the cells `0, …, n-1`.  It is indexed by an arbitrary
integer: a read outside the cells returns a default value, and a write outside them
reaches none of the cells.  What such an access does to the memory around the array
is not described here; a client that has to exclude it states the bound itself.

Programs that keep a list in an array use the first `e` cells and a length `e`.
`window a e` is that list, and the lemmas say what the usual loops — append, linear
search, shift left over a hole, exchange with the first cell — do to it.

## Main definitions

* `CArray.get`, `CArray.set` — one access.
* `CArray.window a e` — the cells `0, …, e-1` as a list.
* `CArray.search test a e` — the first index below `e` that passes `test`, else `e`.
* `CArray.shiftFrom k j a` — `k` rounds of `a[j] = a[j+1]; j++`.
-/

universe u

/-- An array of `n` cells. -/
def CArray (α : Type u) (n : ℕ) : Type u := Fin n → α

namespace CArray

variable {α : Type u} {n : ℕ}

instance [Inhabited α] : Inhabited (CArray α n) := ⟨fun _ => default⟩

/-- `a[i] = v`.  No cell is reached when `i` is out of range. -/
def set (a : CArray α n) (i : ℤ) (v : α) : CArray α n :=
  fun j => if (j.val : ℤ) = i then v else a j

variable [Inhabited α]

/-- `a[i]`, with a default value when `i` is out of range. -/
def get (a : CArray α n) (i : ℤ) : α :=
  if h : 0 ≤ i ∧ i < n then a ⟨i.toNat, by omega⟩ else default

variable {i e : ℤ} {a : CArray α n}

theorem get_of_lt (a : CArray α n) (h₀ : 0 ≤ i) (h : i < n) : a.get i = a ⟨i.toNat, by omega⟩ := by
  simp only [get, h₀, h, and_self, dif_pos]

theorem get_of_not (a : CArray α n) (h : ¬ (0 ≤ i ∧ i < n)) : a.get i = default := by
  rw [get, dif_neg h]

theorem get_set (a : CArray α n) (i j : ℤ) (v : α) :
    (a.set i v).get j = if j = i ∧ 0 ≤ i ∧ i < n then v else a.get j := by
  by_cases hj : 0 ≤ j ∧ j < n
  · rw [get_of_lt _ hj.1 hj.2, get_of_lt _ hj.1 hj.2, set]
    have hval : ((j.toNat : ℕ) : ℤ) = j := by omega
    by_cases hji : j = i
    · rw [if_pos (hval.trans hji), if_pos ⟨hji, hji ▸ hj⟩]
    · rw [if_neg (by rwa [hval]), if_neg fun h => hji h.1]
  · have hji : ¬ (j = i ∧ 0 ≤ i ∧ i < n) := by
      rintro ⟨rfl, h⟩
      exact hj h
    simp only [get, hj, hji, dif_neg, if_false, not_false_eq_true]

theorem get_set_self (a : CArray α n) (v : α) (h₀ : 0 ≤ i) (h : i < n) : (a.set i v).get i = v := by
  rw [get_set, if_pos ⟨rfl, h₀, h⟩]

theorem get_set_ne (a : CArray α n) {j : ℤ} (v : α) (h : j ≠ i) : (a.set i v).get j = a.get j := by
  rw [get_set, if_neg]
  exact fun h' => h h'.1

theorem get_set_of_not (a : CArray α n) (j : ℤ) (v : α) (h : ¬ (0 ≤ i ∧ i < n)) :
    (a.set i v).get j = a.get j := by
  rw [get_set, if_neg]
  exact fun h' => h h'.2

/-- A write that keeps a part of the value keeps that part of every cell. -/
theorem apply_get_set {β : Type*} (g : α → β) (a : CArray α n) {v : α}
    (hv : g v = g (a.get i)) (j : ℤ) : g ((a.set i v).get j) = g (a.get j) := by
  rw [get_set]
  split_ifs with h
  · rw [hv, h.1]
  · rfl

/-! ## The window -/

/-- The first `e` cells, as a list. -/
def window (a : CArray α n) (e : ℤ) : List α := (List.range e.toNat).map fun i : ℕ => a.get i

@[simp] theorem length_window (a : CArray α n) (e : ℤ) : (a.window e).length = e.toNat := by
  simp [window]

theorem getElem?_window (a : CArray α n) (e : ℤ) (i : ℕ) :
    (a.window e)[i]? = if (i : ℤ) < e then some (a.get i) else none := by
  by_cases h : (i : ℤ) < e
  · simp [window, h]
  · simp [window, h]

theorem window_succ (a : CArray α n) (h : 0 ≤ e) : a.window (e + 1) = a.window e ++ [a.get e] := by
  have he : (e + 1).toNat = e.toNat + 1 := by omega
  have hc : ((e.toNat : ℕ) : ℤ) = e := by omega
  simp [window, he, List.range_succ, hc]

theorem window_eq_window {b : CArray α n} :
    a.window e = b.window e ↔ ∀ i : ℕ, (i : ℤ) < e → a.get i = b.get i := by
  simp only [window, List.map_inj_left, List.mem_range]
  constructor
  · intro h i hi
    exact h i (by omega)
  · intro h i hi
    exact h i (by omega)

/-- Shortening the window drops its last entry. -/
theorem window_pred (a : CArray α n) (e : ℤ) : a.window (e - 1) = (a.window e).dropLast := by
  apply List.ext_getElem?
  intro i
  rw [getElem?_window, List.getElem?_dropLast, length_window, getElem?_window]
  by_cases h : (i : ℤ) < e - 1
  · rw [if_pos h, if_pos (by omega), if_pos (by omega)]
  · rw [if_neg h, if_neg (by omega)]

theorem window_set (a : CArray α n) (e : ℤ) (v : α) (h₀ : 0 ≤ i) (h : i < n) :
    (a.set i v).window e = (a.window e).set i.toNat v := by
  apply List.ext_getElem?
  intro j
  rw [getElem?_window, List.getElem?_set, length_window, getElem?_window, get_set]
  by_cases hji : (j : ℤ) = i
  · have hj : i.toNat = j := by omega
    by_cases hje : (j : ℤ) < e
    · rw [if_pos hje, if_pos ⟨hji, h₀, h⟩, if_pos hj, if_pos (by omega)]
    · rw [if_neg hje, if_pos hj, if_neg (by omega)]
  · have hj : i.toNat ≠ j := by omega
    simp only [hj, hji, false_and, if_false]

/-- Writing past the window does not change it. -/
theorem window_set_of_ge (a : CArray α n) (v : α) (h : e ≤ i) :
    (a.set i v).window e = a.window e := by
  apply List.ext_getElem?
  intro j
  rw [getElem?_window, getElem?_window]
  by_cases hje : (j : ℤ) < e
  · rw [if_pos hje, if_pos hje, get_set_ne]
    omega
  · rw [if_neg hje, if_neg hje]

/-- Append: write the cell after the window, then lengthen it. -/
theorem window_push (a : CArray α n) (v : α) (h₀ : 0 ≤ e) (h : e < n) :
    (a.set e v).window (e + 1) = a.window e ++ [v] := by
  rw [window_succ _ h₀, window_set_of_ge _ _ le_rfl, get_set_self _ _ h₀ h]

/-! ## Linear search -/

/-- `k` rounds of a search that starts at `i`. -/
def searchFrom (test : α → Bool) (a : CArray α n) : ℕ → ℕ → ℕ
  | 0, i => i
  | k + 1, i => if test (a.get i) then i else searchFrom test a k (i + 1)

/-- `for (i = 0; i < e; i++) if (test(a[i])) break;`: the final value of `i`. -/
def search (test : α → Bool) (a : CArray α n) (e : ℤ) : ℕ := searchFrom test a e.toNat 0

/-- The indices that `searchFrom` reads, in order. -/
def searchFromUses (test : α → Bool) (a : CArray α n) : ℕ → ℕ → List ℤ
  | 0, _ => []
  | k + 1, i => (i : ℤ) :: if test (a.get i) then [] else searchFromUses test a k (i + 1)

/-- The indices that `search` reads, in order. -/
def searchUses (test : α → Bool) (a : CArray α n) (e : ℤ) : List ℤ :=
  searchFromUses test a e.toNat 0

theorem searchFrom_eq (test : α → Bool) (a : CArray α n) (k i : ℕ) :
    searchFrom test a k i = i + ((List.range' i k).map fun j : ℕ => a.get j).findIdx test := by
  induction k generalizing i with
  | zero => rfl
  | succ k ih =>
    rw [searchFrom, List.range'_succ, List.map_cons, List.findIdx_cons]
    cases test (a.get i) with
    | true => simp
    | false =>
      rw [if_neg Bool.false_ne_true, ih (i + 1)]
      simp only [cond_false]
      omega

/-- The search finds the first entry of the window that passes the test. -/
theorem search_eq_findIdx (test : α → Bool) (a : CArray α n) (e : ℤ) :
    search test a e = (a.window e).findIdx test := by
  rw [search, searchFrom_eq, Nat.zero_add, window, List.range_eq_range']

/-- A successful search splits the window at the entry it found. -/
theorem search_found {test : α → Bool} (h : (search test a e : ℤ) < e) :
    ∃ l₁ l₂, a.window e = l₁ ++ a.get (search test a e) :: l₂ ∧
      l₁.length = search test a e ∧ test (a.get (search test a e)) = true ∧
      ∀ x ∈ l₁, test x = false := by
  have hlen : (a.window e).findIdx test < (a.window e).length := by
    rw [← search_eq_findIdx, length_window]
    omega
  have hget : a.get (search test a e) = (a.window e)[(a.window e).findIdx test] := by
    have := getElem?_window a e (search test a e)
    rw [if_pos h, search_eq_findIdx, List.getElem?_eq_getElem hlen] at this
    rw [search_eq_findIdx]
    exact (Option.some.inj this).symm
  refine ⟨(a.window e).take (search test a e), (a.window e).drop (search test a e + 1), ?_, ?_,
    ?_, ?_⟩
  · rw [hget, search_eq_findIdx, List.getElem_cons_drop, List.take_append_drop]
  · rw [List.length_take, search_eq_findIdx]
    omega
  · rw [hget]
    exact List.findIdx_getElem
  · intro x hx
    rw [search_eq_findIdx, List.mem_take_iff_getElem] at hx
    obtain ⟨i, hi, rfl⟩ := hx
    simpa using List.not_of_lt_findIdx (p := test) (lt_of_lt_of_le hi (Nat.min_le_left _ _))

/-- A search succeeds when some entry of the window passes the test. -/
theorem search_lt_iff {test : α → Bool} :
    (search test a e : ℤ) < e ↔ ∃ x ∈ a.window e, test x = true := by
  rw [search_eq_findIdx, ← List.findIdx_lt_length, length_window]
  omega

theorem searchUses_bounds (test : α → Bool) (a : CArray α n) (k i : ℕ) :
    ∀ j ∈ searchFromUses test a k i, (i : ℤ) ≤ j ∧ j < i + k := by
  induction k generalizing i with
  | zero => simp [searchFromUses]
  | succ k ih =>
    intro j hj
    rw [searchFromUses, List.mem_cons] at hj
    rcases hj with rfl | hj
    · omega
    · split at hj
      · simp at hj
      · have := ih (i + 1) j hj
        push_cast at this
        omega

/-- A search reads only inside the window. -/
theorem mem_searchUses {test : α → Bool} {j : ℤ}
    (hj : j ∈ searchUses test a e) : 0 ≤ j ∧ j < e := by
  have := searchUses_bounds test a e.toNat 0 j hj
  push_cast at this
  omega

/-! ## Closing a hole -/

/-- `k` rounds of `a[j] = a[j+1]; j++`. -/
def shiftFrom : ℕ → ℕ → CArray α n → CArray α n
  | 0, _, a => a
  | k + 1, j, a => shiftFrom k (j + 1) (a.set j (a.get (j + 1)))

/-- The indices that `shiftFrom` reads and writes, in order. -/
def shiftFromUses : ℕ → ℕ → List ℤ
  | 0, _ => []
  | k + 1, j => ((j : ℤ) + 1) :: (j : ℤ) :: shiftFromUses k (j + 1)

theorem get_shiftFrom (k j : ℕ) (a : CArray α n) (i : ℤ) :
    (shiftFrom k j a).get i = if (j : ℤ) ≤ i ∧ i < j + k then a.get (i + 1) else a.get i := by
  induction k generalizing j a with
  | zero =>
    rw [shiftFrom, if_neg]
    omega
  | succ k ih =>
    have hup : (a.set j (a.get (j + 1))).get (i + 1) = a.get (i + 1) ∨ i + 1 ≤ j := by
      by_cases h : i + 1 ≤ j
      · exact .inr h
      · exact .inl (get_set_ne _ _ (by omega))
    rw [shiftFrom, ih]
    push_cast
    by_cases hij : i = j
    · -- the cell this round writes; it may lie outside the array
      subst hij
      rw [if_neg (by omega), if_pos (by omega), get_set]
      by_cases hn : (j : ℤ) < n
      · rw [if_pos ⟨rfl, by omega, hn⟩]
      · rw [if_neg (by tauto), get_of_not _ (by omega), get_of_not _ (by omega)]
    · rw [get_set_ne _ _ hij]
      by_cases h : (j : ℤ) + 1 ≤ i ∧ i < j + 1 + k
      · rw [if_pos h, if_pos (by omega)]
        rcases hup with hup | hup
        · exact hup
        · omega
      · rw [if_neg h, if_neg (by omega)]

theorem shiftFromUses_bounds (k j : ℕ) :
    ∀ i ∈ shiftFromUses k j, (j : ℤ) ≤ i ∧ i ≤ j + k := by
  induction k generalizing j with
  | zero => simp [shiftFromUses]
  | succ k ih =>
    intro i hi
    rw [shiftFromUses, List.mem_cons, List.mem_cons] at hi
    rcases hi with rfl | rfl | hi
    · push_cast; omega
    · push_cast; omega
    · have := ih (j + 1) i hi
      push_cast at this ⊢
      omega

/-- Shifting the entries above `i` down by one, then shortening the window, removes
entry `i`. -/
theorem window_shiftFrom (a : CArray α n) {i : ℕ} (h : (i : ℤ) < e) :
    (shiftFrom (e.toNat - i) i a).window (e - 1) = (a.window e).eraseIdx i := by
  apply List.ext_getElem?
  intro j
  rw [getElem?_window, List.getElem?_eraseIdx, getElem?_window, getElem?_window, get_shiftFrom]
  by_cases hj : j < i
  · have hlow : ¬ ((i : ℤ) ≤ j ∧ (j : ℤ) < i + ((e.toNat - i : ℕ) : ℤ)) := by omega
    have hje : (j : ℤ) < e - 1 := by omega
    have hje' : (j : ℤ) < e := by omega
    simp only [hj, hlow, hje, hje', if_true, if_false]
  · rw [if_neg hj]
    by_cases hje : (j : ℤ) < e - 1
    · rw [if_pos hje, if_pos (by omega), if_pos (by push_cast; omega)]
      rfl
    · rw [if_neg hje, if_neg (by push_cast; omega)]

/-! ## Exchange with the first cell -/

/-- `t = a[0]; v = a[i]; a[i] = t; a[0] = v`. -/
def swapFirst (a : CArray α n) (i : ℕ) : CArray α n := (a.set i (a.get 0)).set 0 (a.get i)

@[simp] theorem swapFirst_zero (a : CArray α n) : a.swapFirst 0 = a := by
  funext j
  by_cases hj : (j.val : ℤ) = 0
  · have hn : (0 : ℤ) < n := by have := j.isLt; omega
    have hj' : (⟨(0 : ℤ).toNat, by omega⟩ : Fin n) = j := by
      apply Fin.ext
      simp only [Int.toNat_zero]
      omega
    simp only [swapFirst, set, Nat.cast_zero, hj, if_true, get_of_lt a le_rfl hn, hj']
  · simp only [swapFirst, set, Nat.cast_zero, hj, if_false]

/-- The exchange moves entry `i` to the front and the front to position `i`; the
entries between them and after them stay. -/
theorem window_swapFirst (a : CArray α n) {i : ℕ} (hi : (i : ℤ) < e) (he : e ≤ n)
    {x y : α} {l₁ l₂ : List α} (hw : a.window e = x :: l₁ ++ y :: l₂)
    (hl : l₁.length + 1 = i) : (a.swapFirst i).window e = y :: l₁ ++ x :: l₂ := by
  have hx : a.get 0 = x := by
    have := getElem?_window a e 0
    rw [hw, if_pos (by omega)] at this
    simpa using this.symm
  have hy : a.get i = y := by
    have := getElem?_window a e i
    rw [hw, if_pos hi, ← hl] at this
    simpa [← hl] using this.symm
  rw [swapFirst, window_set _ _ _ le_rfl (by omega), window_set _ _ _ (by omega) (by omega), hw,
    hx, hy]
  have hi' : ((i : ℤ)).toNat = l₁.length + 1 := by omega
  simp [hi']

end CArray
