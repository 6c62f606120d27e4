import Mathlib.Data.Set.Lattice
import Mathlib.Order.Interval.Set.Disjoint
import Mathlib.Tactic.Common
import Mathlib.Order.CompletePartialOrder

/-!
# Extents of memory

An extent is a number of units of `w` bytes from an address on.  A list of extents is spaced if they
are in the order of their addresses, and no one ends where the next begins.  An extent that lies
between two of them is put into the list, and becomes one with those that it touches; and units are
cut off the end of one.

What a list of extents covers is a set of addresses: all bytes, or only those where a unit begins.
The rules are the same for both.

## Main definitions

* `Extent`, `Spaced w l`.
* `cover g l` — what the extents of `l` cover; `bytes w` and `cells w` are such `g`.
* `insertAfter w p e l` — `e` is put between `p` and `l`.

## Main results

* `Spaced.insertAfter`, `cover_insertAfter` — the list is spaced, and covers `e` as well.
* `Spaced.cut`, `cover_cut` — units are cut off.
-/

namespace Extents

structure Extent where
  addr : ℕ
  units : ℕ
  deriving DecidableEq, Repr

variable {w : ℕ} {e f p : Extent} {l l₁ l₂ : List Extent}

/-- The first address after the extent -/
def Extent.stop (w : ℕ) (e : Extent) : ℕ := e.addr + w * e.units

/-- In the order of addresses, and no one ends where the next begins -/
def Spaced (w : ℕ) (l : List Extent) : Prop := l.Pairwise fun e f => e.stop w < f.addr

/-! ## What is covered -/

/-- All addresses of an extent -/
def bytes (w : ℕ) (e : Extent) : Set ℕ := Set.Ico e.addr (e.stop w)

/-- The addresses where its units begin -/
def cells (w : ℕ) (e : Extent) : Set ℕ := {x | ∃ k < e.units, x = e.addr + w * k}

/-- The union over a list -/
def cover (g : Extent → Set ℕ) (l : List Extent) : Set ℕ := {x | ∃ e ∈ l, x ∈ g e}

/-- An extent covers what its two parts cover. -/
def Additive (w : ℕ) (g : Extent → Set ℕ) : Prop :=
  ∀ a m n, g ⟨a, m + n⟩ = g ⟨a, m⟩ ∪ g ⟨a + w * m, n⟩

theorem additive_bytes (w : ℕ) : Additive w (bytes w) := by
  intro a m n
  have hstop : a + w * (m + n) = a + w * m + w * n := by rw [Nat.mul_add, Nat.add_assoc]
  have hle : a ≤ a + w * m := Nat.le_add_right ..
  have hle' : a + w * m ≤ a + w * m + w * n := Nat.le_add_right ..
  rw [bytes, bytes, bytes, Extent.stop, Extent.stop, Extent.stop, hstop,
    Set.Ico_union_Ico_eq_Ico hle hle']

theorem additive_cells (w : ℕ) : Additive w (cells w) := by
  intro a m n
  ext x
  refine ⟨?_, ?_⟩
  · rintro ⟨k, hk, rfl⟩
    have hk' : k < m + n := hk
    by_cases hkm : k < m
    · exact .inl ⟨k, hkm, rfl⟩
    · refine .inr ⟨k - m, ?_, ?_⟩
      · show k - m < n
        omega
      · rw [Nat.add_assoc, ← Nat.mul_add, Nat.add_sub_cancel' (not_lt.mp hkm)]
  · rintro (⟨k, hk, rfl⟩ | ⟨k, hk, rfl⟩)
    · exact ⟨k, Nat.lt_add_right n hk, rfl⟩
    · have hk' : k < n := hk
      refine ⟨m + k, Nat.add_lt_add_left hk' m, ?_⟩
      rw [Nat.mul_add, Nat.add_assoc]

variable {g : Extent → Set ℕ}

theorem mem_cover {x : ℕ} : x ∈ cover g l ↔ ∃ e ∈ l, x ∈ g e := Iff.rfl

theorem cover_nil (g : Extent → Set ℕ) : cover g [] = ∅ := by
  ext x
  simp [mem_cover]

theorem cover_cons (g : Extent → Set ℕ) (e : Extent) (l : List Extent) :
    cover g (e :: l) = g e ∪ cover g l := by
  ext x
  simp [mem_cover]

theorem cover_append (g : Extent → Set ℕ) (l₁ l₂ : List Extent) :
    cover g (l₁ ++ l₂) = cover g l₁ ∪ cover g l₂ := by
  ext x
  simp [mem_cover, or_and_right, exists_or]

theorem cover_middle (g : Extent → Set ℕ) (e : Extent) (l₁ l₂ : List Extent) :
    cover g (l₁ ++ e :: l₂) = g e ∪ cover g (l₁ ++ l₂) := by
  rw [cover_append, cover_cons, Set.union_left_comm, ← cover_append]

/-- Disjoint extents that are not empty: one ends before the other begins. -/
theorem disjoint_bytes (he : 0 < w * e.units) (hf : 0 < w * f.units) :
    Disjoint (bytes w e) (bytes w f) ↔ e.stop w ≤ f.addr ∨ f.stop w ≤ e.addr := by
  rw [bytes, bytes, Set.Ico_disjoint_Ico, Extent.stop, Extent.stop]
  omega

/-- Where an address belongs in a list that begins before it -/
theorem Spaced.exists_before {a : ℕ} (h : Spaced w (e :: l)) (he : e.addr < a) :
    ∃ l₁ p l₂, e :: l = l₁ ++ p :: l₂ ∧ p.addr < a ∧ ∀ f ∈ l₂, a ≤ f.addr := by
  induction l generalizing e with
  | nil => exact ⟨[], e, [], rfl, he, nofun⟩
  | cons f l ih =>
    have htail := (List.pairwise_cons.mp h).2
    by_cases hf : f.addr < a
    · obtain ⟨l₁, p, l₂, hl, hp, hlater⟩ := ih htail hf
      exact ⟨e :: l₁, p, l₂, by rw [hl, List.cons_append], hp, hlater⟩
    · refine ⟨[], e, f :: l, rfl, he, ?_⟩
      intro g hg
      rcases List.mem_cons.mp hg with rfl | hg
      · exact not_lt.mp hf
      · have hfg := (List.pairwise_cons.mp htail).1 g hg
        have hff : f.addr ≤ f.stop w := Nat.le_add_right ..
        omega

/-- The addresses of a spaced list ascend. -/
theorem Spaced.addr_lt (h : Spaced w l) : (l.map Extent.addr).Pairwise (· < ·) := by
  apply List.pairwise_map.mpr
  apply h.imp
  intro e f hef
  exact lt_of_le_of_lt (Nat.le_add_right ..) hef

/-- No byte is in two extents of a spaced list. -/
theorem Spaced.disjoint (h : Spaced w (l₁ ++ e :: l₂)) :
    Disjoint (bytes w e) (cover (bytes w) (l₁ ++ l₂)) := by
  obtain ⟨-, h₂, hcross⟩ := List.pairwise_append.mp h
  rw [Set.disjoint_right]
  rintro x ⟨f, hf, hfx⟩ hex
  have hfx' : f.addr ≤ x ∧ x < f.stop w := hfx
  have hex' : e.addr ≤ x ∧ x < e.stop w := hex
  rcases List.mem_append.mp hf with hf | hf
  · have hlt := hcross f hf e List.mem_cons_self
    omega
  · have hlt := (List.pairwise_cons.mp h₂).1 f hf
    omega

/-! ## Insertion -/

/-- `e`, with the extent that begins where it ends -/
def joined (w : ℕ) (e : Extent) : List Extent → Extent
  | [] => e
  | f :: _ => if e.stop w = f.addr then ⟨e.addr, e.units + f.units⟩ else e

/-- The extents that `joined` does not take -/
def rest (w : ℕ) (e : Extent) : List Extent → List Extent
  | [] => []
  | f :: l => if e.stop w = f.addr then l else f :: l

/-- `e` is put between `p` and `l`. -/
def insertAfter (w : ℕ) (p e : Extent) (l : List Extent) : List Extent :=
  if p.stop w = e.addr then ⟨p.addr, p.units + (joined w e l).units⟩ :: rest w e l
  else p :: joined w e l :: rest w e l

theorem joined_addr (w : ℕ) (e : Extent) (l : List Extent) : (joined w e l).addr = e.addr := by
  cases l with
  | nil => rfl
  | cons f l =>
    rw [joined]
    split_ifs <;> rfl

theorem le_joined_units (w : ℕ) (e : Extent) (l : List Extent) :
    e.units ≤ (joined w e l).units := by
  cases l with
  | nil => exact le_rfl
  | cons f l =>
    rw [joined]
    split_ifs
    · exact Nat.le_add_right ..
    · exact le_rfl

theorem joined_stop_le {b : ℕ} (he : e.stop w ≤ b) (hl : ∀ f ∈ l, f.stop w ≤ b) :
    (joined w e l).stop w ≤ b := by
  cases l with
  | nil => exact he
  | cons f l =>
    rw [joined]
    split_ifs with heq
    · have hf := hl f List.mem_cons_self
      rw [Extent.stop, ← heq, Extent.stop] at hf
      rw [Extent.stop, Nat.mul_add, ← Nat.add_assoc]
      exact hf
    · exact he

theorem rest_subset (h : f ∈ rest w e l) : f ∈ l := by
  cases l with
  | nil => exact h
  | cons g l =>
    rw [rest] at h
    split_ifs at h
    · exact List.mem_cons_of_mem g h
    · exact h

/-- After `e` and what it touches, there is room. -/
theorem spaced_joined (h : Spaced w l) (hl : ∀ f ∈ l, e.stop w ≤ f.addr) :
    Spaced w (joined w e l :: rest w e l) := by
  cases l with
  | nil => exact List.pairwise_singleton _ _
  | cons f l =>
    have hf := List.pairwise_cons.mp h
    rw [joined, rest]
    split_ifs with heq
    · refine List.pairwise_cons.mpr ⟨?_, hf.2⟩
      intro g hg
      have hstop : Extent.stop w ⟨e.addr, e.units + f.units⟩ = f.stop w := by
        rw [Extent.stop, Extent.stop, ← heq, Extent.stop, Nat.mul_add, Nat.add_assoc]
      rw [hstop]
      exact hf.1 g hg
    · refine List.pairwise_cons.mpr ⟨?_, h⟩
      intro g hg
      have hlt : e.stop w < f.addr := lt_of_le_of_ne (hl f List.mem_cons_self) heq
      rcases List.mem_cons.mp hg with rfl | hg
      · exact hlt
      · have hfg := hf.1 g hg
        have hff : f.addr ≤ f.stop w := Nat.le_add_right ..
        omega

/-- **An extent is put into a spaced list.** -/
theorem Spaced.insertAfter (h : Spaced w (l₁ ++ p :: l₂)) (hp : p.stop w ≤ e.addr)
    (hl : ∀ f ∈ l₂, e.stop w ≤ f.addr) : Spaced w (l₁ ++ insertAfter w p e l₂) := by
  obtain ⟨h₁, h₂, hcross⟩ := List.pairwise_append.mp h
  have hjoined := spaced_joined (List.pairwise_cons.mp h₂).2 hl
  have haddr := joined_addr w e l₂
  have hpp : p.addr ≤ p.stop w := Nat.le_add_right ..
  have hbefore : ∀ g ∈ l₁, g.stop w < p.addr := fun g hg => hcross g hg p List.mem_cons_self
  refine List.pairwise_append.mpr ⟨h₁, ?_, ?_⟩
  · rw [Extents.insertAfter]
    have hrest := List.pairwise_cons.mp hjoined
    split_ifs with heq
    · refine List.pairwise_cons.mpr ⟨?_, hrest.2⟩
      intro g hg
      have hstop : Extent.stop w ⟨p.addr, p.units + (joined w e l₂).units⟩ =
          (joined w e l₂).stop w := by
        rw [Extent.stop, Extent.stop, haddr, ← heq, Extent.stop, Nat.mul_add, Nat.add_assoc]
      rw [hstop]
      exact hrest.1 g hg
    · refine List.pairwise_cons.mpr ⟨?_, hjoined⟩
      intro g hg
      have hlt : p.stop w < e.addr := lt_of_le_of_ne hp heq
      rcases List.mem_cons.mp hg with rfl | hg
      · rw [haddr]
        exact hlt
      · have hjg := hrest.1 g hg
        have hjj : (joined w e l₂).addr ≤ (joined w e l₂).stop w := Nat.le_add_right ..
        omega
  · intro g hg f hf
    have hgp := hbefore g hg
    rw [Extents.insertAfter] at hf
    split_ifs at hf
    · rcases List.mem_cons.mp hf with rfl | hf
      · exact hgp
      · exact hcross g hg f (List.mem_cons_of_mem p (rest_subset hf))
    · rcases List.mem_cons.mp hf with rfl | hf
      · exact hgp
      · rcases List.mem_cons.mp hf with rfl | hf
        · rw [haddr]
          omega
        · exact hcross g hg f (List.mem_cons_of_mem p (rest_subset hf))

theorem cover_joined (hg : Additive w g) (e : Extent) (l : List Extent) :
    g (joined w e l) ∪ cover g (rest w e l) = g e ∪ cover g l := by
  cases l with
  | nil => rfl
  | cons f l =>
    rw [joined, rest]
    split_ifs with heq
    · rw [hg e.addr e.units f.units, cover_cons, ← Set.union_assoc]
      have hf : (⟨e.addr + w * e.units, f.units⟩ : Extent) = f := by
        rw [← Extent.stop, heq]
      rw [hf]
    · rfl

/-- What the list covers, with the new extent -/
theorem cover_insertAfter (hg : Additive w g) (p e : Extent)
    (l : List Extent) : cover g (insertAfter w p e l) = g e ∪ cover g (p :: l) := by
  have hjoined := cover_joined hg e l
  rw [insertAfter]
  split_ifs with heq
  · have hj : (⟨p.addr + w * p.units, (joined w e l).units⟩ : Extent) = joined w e l := by
      rw [← Extent.stop, heq, ← joined_addr w e l]
    rw [cover_cons, hg p.addr p.units, hj, Set.union_assoc, hjoined, cover_cons,
      Set.union_left_comm]
  · rw [cover_cons, cover_cons, hjoined, cover_cons, Set.union_left_comm]

/-! ## Cutting -/

/-- The first units stay, and the others are cut off. -/
theorem cover_cut (hg : Additive w g) {n : ℕ} (hn : n ≤ e.units) (l₁ l₂ : List Extent) :
    g ⟨e.addr + w * (e.units - n), n⟩ ∪ cover g (l₁ ++ ⟨e.addr, e.units - n⟩ :: l₂) =
      cover g (l₁ ++ e :: l₂) := by
  have he : g e = g ⟨e.addr, e.units - n⟩ ∪ g ⟨e.addr + w * (e.units - n), n⟩ := by
    rw [← hg, Nat.sub_add_cancel hn]
  rw [cover_middle, cover_middle, he, Set.union_left_comm, Set.union_assoc]

theorem Spaced.cut (h : Spaced w (l₁ ++ e :: l₂)) (n : ℕ) :
    Spaced w (l₁ ++ ⟨e.addr, e.units - n⟩ :: l₂) := by
  obtain ⟨h₁, h₂, hcross⟩ := List.pairwise_append.mp h
  have he := List.pairwise_cons.mp h₂
  have hstop : Extent.stop w ⟨e.addr, e.units - n⟩ ≤ e.stop w :=
    Nat.add_le_add_left (Nat.mul_le_mul_left w (Nat.sub_le ..)) _
  refine List.pairwise_append.mpr ⟨h₁, List.pairwise_cons.mpr ⟨?_, he.2⟩, ?_⟩
  · intro f hf
    exact hstop.trans_lt (he.1 f hf)
  · intro g hg f hf
    rcases List.mem_cons.mp hf with rfl | hf
    · exact hcross g hg e List.mem_cons_self
    · exact hcross g hg f (List.mem_cons_of_mem e hf)

theorem Spaced.remove (h : Spaced w (l₁ ++ e :: l₂)) : Spaced w (l₁ ++ l₂) :=
  List.Pairwise.sublist ((List.sublist_cons_self e l₂).append_left l₁) h

end Extents
