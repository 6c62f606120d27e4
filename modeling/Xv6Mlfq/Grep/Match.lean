import Mathlib.Data.List.Basic
import Mathlib.Tactic.Common

/-!
# The matcher of `grep`

`match`, `matchhere` and `matchstar` of `grep.c`, on the strings that their pointers point to,
without the NUL.  `Here re text` says in what way a pattern matches at the start of a text.

## Main results

* `matchhere_iff` — `matchhere` finds such a way if there is one.
* `matchRe_iff` — and `match` looks for it at the start only, or at every place of the text.
-/

namespace Xv6Mlfq.Grep

/-- `matchstar(c, re, text)`, where `here` is `matchhere` with `re` -/
def matchstar (c : Char) (here : List Char → Bool) : List Char → Bool
  | [] => here []
  | t :: text => here (t :: text) || ((t == c || c == '.') && matchstar c here text)

/-- search for `re` at beginning of text -/
def matchhere : List Char → List Char → Bool
  | [], _ => true
  | c :: '*' :: re, text => matchstar c (fun text => matchhere re text) text
  | ['$'], text => text.isEmpty
  | _ :: _, [] => false
  | c :: re, t :: text => (c == '.' || c == t) && matchhere re text

/-- The loop of `match`; it must look at the empty string. -/
def matchany (re : List Char) : List Char → Bool
  | [] => matchhere re []
  | t :: text => matchhere re (t :: text) || matchany re text

/-- `match(re, text)` -/
def matchRe (re text : List Char) : Bool :=
  match re with
  | '^' :: re => matchhere re text
  | re => matchany re text

/-! ## What patterns match -/

/-- A character of a pattern and one of a text -/
def Accepts (c t : Char) : Prop := c = '.' ∨ c = t

theorem accepts_iff {c t : Char} : (c == '.' || c == t) = true ↔ Accepts c t := by
  rw [Bool.or_eq_true, beq_iff_eq, beq_iff_eq]
  rfl

theorem accepts_iff_star {c t : Char} : (t == c || c == '.') = true ↔ Accepts c t := by
  rw [Bool.or_eq_true, beq_iff_eq, beq_iff_eq, or_comm, eq_comm (a := t)]
  rfl

/-- The pattern matches at the start of the text. -/
inductive Here : List Char → List Char → Prop
  | nil {text} : Here [] text
  | star {c re s text} : (∀ t ∈ s, Accepts c t) → Here re text → Here (c :: '*' :: re) (s ++ text)
  | eol : Here ['$'] []
  | char {c re t text} : re.head? ≠ some '*' → (c :: re ≠ ['$']) → Accepts c t → Here re text →
      Here (c :: re) (t :: text)

theorem matchstar_iff {c : Char} {here : List Char → Bool} {text : List Char} :
    matchstar c here text = true ↔
      ∃ s r, text = s ++ r ∧ (∀ t ∈ s, Accepts c t) ∧ here r = true := by
  induction text with
  | nil =>
    rw [matchstar]
    constructor
    · intro h
      exact ⟨[], [], rfl, nofun, h⟩
    · rintro ⟨s, r, heq, -, h⟩
      obtain ⟨rfl, rfl⟩ := List.append_eq_nil_iff.mp heq.symm
      exact h
  | cons t text ih =>
    rw [matchstar, Bool.or_eq_true, Bool.and_eq_true, accepts_iff_star, ih]
    constructor
    · rintro (h | ⟨ht, s, r, rfl, hs, h⟩)
      · exact ⟨[], t :: text, rfl, nofun, h⟩
      · exact ⟨t :: s, r, rfl, List.forall_mem_cons.mpr ⟨ht, hs⟩, h⟩
    · rintro ⟨s, r, heq, hs, h⟩
      cases s with
      | nil =>
        left
        rw [heq]
        exact h
      | cons x s =>
        cases heq
        obtain ⟨hx, hs⟩ := List.forall_mem_cons.mp hs
        exact .inr ⟨hx, s, r, rfl, hs, h⟩

/-- `matchhere` finds a way to match if there is one. -/
theorem matchhere_iff {re text : List Char} : matchhere re text = true ↔ Here re text := by
  fun_induction matchhere re text with
  | case1 text => exact ⟨fun _ => .nil, fun _ => rfl⟩
  | case2 text c re ih =>
    rw [matchstar_iff]
    constructor
    · rintro ⟨s, r, rfl, hs, h⟩
      exact .star hs ((ih r).mp h)
    · intro h
      cases h with
      | star hs h => exact ⟨_, _, rfl, hs, (ih _).mpr h⟩
      | char hstar => exact absurd rfl hstar
  | case3 text =>
    rw [List.isEmpty_iff]
    constructor
    · rintro rfl
      exact .eol
    · intro h
      cases h with
      | eol => rfl
      | char _ hne => exact absurd rfl hne
  | case4 c re hstar heol =>
    constructor
    · nofun
    · generalize hu : ([] : List Char) = u
      intro h
      cases h with
      | star => exact absurd rfl (hstar _)
      | eol => exact absurd rfl (heol rfl)
      | char => cases hu
  | case5 c re t text hstar heol ih =>
    rw [Bool.and_eq_true, accepts_iff, ih]
    constructor
    · rintro ⟨hc, h⟩
      refine .char ?_ ?_ hc h
      · intro hhead
        obtain ⟨re', rfl⟩ := List.head?_eq_some_iff.mp hhead
        exact hstar re' rfl
      · intro heq
        cases heq
        exact heol rfl rfl
    · generalize hu : t :: text = u
      intro h
      cases h with
      | star => exact absurd rfl (hstar _)
      | eol => cases hu
      | char _ _ hc h =>
        cases hu
        exact ⟨hc, h⟩

theorem matchany_iff {re text : List Char} :
    matchany re text = true ↔ ∃ r, r <:+ text ∧ Here re r := by
  induction text with
  | nil =>
    rw [matchany, matchhere_iff]
    simp
  | cons t text ih =>
    rw [matchany, Bool.or_eq_true, matchhere_iff, ih]
    simp only [List.suffix_cons_iff]
    constructor
    · rintro (h | ⟨r, hr, h⟩)
      · exact ⟨_, .inl rfl, h⟩
      · exact ⟨r, .inr hr, h⟩
    · rintro ⟨r, rfl | hr, h⟩
      · exact .inl h
      · exact .inr ⟨r, hr, h⟩

/-- A pattern with `^` has to match at the start, and others match anywhere. -/
theorem matchRe_iff {re text : List Char} :
    matchRe re text = true ↔
      (∃ re', re = '^' :: re' ∧ Here re' text) ∨
        (re.head? ≠ some '^' ∧ ∃ r, r <:+ text ∧ Here re r) := by
  unfold matchRe
  split
  · rw [matchhere_iff]
    simp
  · next hne =>
      have hhead : re.head? ≠ some '^' := by
        intro h
        obtain ⟨re', rfl⟩ := List.head?_eq_some_iff.mp h
        exact hne re' rfl
      rw [matchany_iff]
      constructor
      · exact fun h => .inr ⟨hhead, h⟩
      · rintro (⟨re', rfl, -⟩ | ⟨-, h⟩)
        · exact absurd rfl (hne re')
        · exact h

end Xv6Mlfq.Grep
