import Mathlib.Data.List.Nodup
import Mathlib.Logic.Function.Basic
import Mathlib.Tactic.Common

/-!
# Doubly linked rings

A ring is given by its pointers: `next` and `prev` of every node, where `none` is the head.
`Holds l xs` says that following `next` from the head visits `xs` and comes back to the head, and
following `prev` visits them in the other order.

## Main definitions

* `Links.unlink`, `Links.pushFront` — the pointer updates.
* `scan` — a loop along the pointers, up to the first node with a property.

## Main results

* `Holds.unlink`, `Holds.pushFront` — what the updates do to the list.
* `Holds.scan_next`, `Holds.scan_prev` — what the loops find; enough fuel is one more than the
  number of nodes.
-/

namespace LinkedRing

open Function (update update_self update_of_ne)

/-- The pointers; `none` is the head. -/
structure Links (α : Type*) where
  next : Option α → Option α
  prev : Option α → Option α

variable {α : Type*}

/-- The node `b` comes after `a`. -/
def Link (l : Links α) (a b : Option α) : Prop := l.next a = b ∧ l.prev b = a

/-- The nodes `xs`, in this order, are what lies between `a` and `b`. -/
def Path (l : Links α) : Option α → List α → Option α → Prop
  | a, [], b => Link l a b
  | a, x :: xs, b => Link l a (some x) ∧ Path l (some x) xs b

/-- The ring with the nodes `xs`. -/
structure Holds (l : Links α) (xs : List α) : Prop where
  nodup : xs.Nodup
  path : Path l none xs none

variable {l : Links α} {a b : Option α} {xs ys : List α} {x : α}

theorem path_append : Path l a (xs ++ x :: ys) b ↔ Path l a xs (some x) ∧ Path l (some x) ys b := by
  induction xs generalizing a with
  | nil => exact Iff.rfl
  | cons y xs ih =>
    rw [List.cons_append, Path, Path, ih, and_assoc]

/-! ## Loops along the pointers -/

/-- `for(b = start; b != &head; b = b->step) if(p(b)) ...`, with fuel. -/
def scan (step : Option α → Option α) (p : α → Bool) : ℕ → Option α → Option (Option α)
  | 0, _ => none
  | _ + 1, none => some none
  | k + 1, some x => if p x then some (some x) else scan step p k (step (some x))

theorem scan_path (p : α → Bool)
    (h : Path l a xs none) : scan l.next p (xs.length + 1) (l.next a) = some (xs.find? p) := by
  induction xs generalizing a with
  | nil => rw [h.1]; rfl
  | cons x xs ih =>
    rw [h.1.1, List.length_cons, scan, List.find?_cons]
    cases p x with
    | true => rfl
    | false => exact ih h.2

theorem Holds.scan_next (h : Holds l xs) (p : α → Bool) :
    scan l.next p (xs.length + 1) (l.next none) = some (xs.find? p) :=
  scan_path p h.path

/-- The ring in the other direction. -/
def Links.swap (l : Links α) : Links α := ⟨l.prev, l.next⟩

theorem path_swap (h : Path l a xs b) : Path l.swap b xs.reverse a := by
  induction xs generalizing a with
  | nil => exact ⟨h.2, h.1⟩
  | cons x xs ih =>
    rw [List.reverse_cons]
    exact path_append.mpr ⟨ih h.2, h.1.2, h.1.1⟩

theorem Holds.scan_prev (h : Holds l xs) (p : α → Bool) :
    scan l.prev p (xs.length + 1) (l.prev none) = some (xs.reverse.find? p) := by
  have hs := scan_path p (path_swap h.path)
  rwa [List.length_reverse] at hs

/-! ## Pointer updates -/

/-- The last node of `xs`, or `a`. -/
def endOf (a : Option α) : List α → Option α
  | [] => a
  | x :: xs => endOf (some x) xs

/-- The links from `a` through `xs`. -/
def Seg (l : Links α) : Option α → List α → Prop
  | _, [] => True
  | a, x :: xs => Link l a (some x) ∧ Seg l (some x) xs

theorem path_iff : Path l a xs b ↔ Seg l a xs ∧ Link l (endOf a xs) b := by
  induction xs generalizing a with
  | nil => exact ⟨fun h => ⟨trivial, h⟩, fun h => h.2⟩
  | cons x xs ih => rw [Path, Seg, ih, endOf, and_assoc]

theorem seg_append : Seg l a (xs ++ ys) ↔ Seg l a xs ∧ Seg l (endOf a xs) ys := by
  induction xs generalizing a with
  | nil => exact ⟨fun h => ⟨trivial, h⟩, fun h => h.2⟩
  | cons x xs ih => rw [List.cons_append, Seg, Seg, ih, endOf, and_assoc]

theorem endOf_append : endOf a (xs ++ ys) = endOf (endOf a xs) ys := by
  induction xs generalizing a with
  | nil => rfl
  | cons x xs ih => exact ih

theorem endOf_mem (x : α) (xs : List α) : ∃ y ∈ x :: xs, endOf (some x) xs = some y := by
  induction xs generalizing x with
  | nil => exact ⟨x, List.mem_cons_self, rfl⟩
  | cons z xs ih =>
    obtain ⟨y, hy, he⟩ := ih z
    exact ⟨y, List.mem_cons_of_mem x hy, he⟩

theorem endOf_eq (a : Option α) (xs : List α) :
    endOf a xs = a ∨ ∃ y ∈ xs, endOf a xs = some y := by
  cases xs with
  | nil => exact .inl rfl
  | cons x xs => exact .inr (endOf_mem x xs)

/-- Pointers of other nodes. -/
theorem Seg.congr {l' : Links α} (h : Seg l a xs)
    (hn : l'.next a = l.next a) (hnext : ∀ x ∈ xs, l'.next (some x) = l.next (some x))
    (hprev : ∀ x ∈ xs, l'.prev (some x) = l.prev (some x)) : Seg l' a xs := by
  induction xs generalizing a with
  | nil => trivial
  | cons x xs ih =>
    obtain ⟨⟨h₁, h₂⟩, h⟩ := h
    refine ⟨⟨hn.trans h₁, (hprev x List.mem_cons_self).trans h₂⟩, ?_⟩
    exact ih h (hnext x List.mem_cons_self) (fun y hy => hnext y (List.mem_cons_of_mem x hy))
      fun y hy => hprev y (List.mem_cons_of_mem x hy)

variable [DecidableEq α]

/-- The `next` of the last node is not part of the segment. -/
theorem Seg.update_end {c : Option α}
    (h : Seg l a xs) (hnodup : xs.Nodup) (ha : ∀ x ∈ xs, a ≠ some x)
    (hc : ∀ x ∈ xs, c ≠ some x) (d : Option α) :
    Seg ⟨update l.next (endOf a xs) b, update l.prev c d⟩ a xs := by
  induction xs generalizing a with
  | nil => trivial
  | cons x xs ih =>
    obtain ⟨⟨h₁, h₂⟩, h⟩ := h
    obtain ⟨hx, hnodup⟩ := List.nodup_cons.mp hnodup
    obtain ⟨y, hy, he⟩ := endOf_mem x xs
    have hne : a ≠ endOf a (x :: xs) := by
      rw [endOf, he]
      exact ha y hy
    refine ⟨⟨?_, ?_⟩, ?_⟩
    · rw [← h₁]
      exact update_of_ne hne ..
    · rw [← h₂]
      exact update_of_ne (hc x List.mem_cons_self).symm ..
    · refine ih h hnodup (fun z hz he' => hx ?_) fun z hz => hc z (List.mem_cons_of_mem x hz)
      rwa [Option.some.inj he']

/-- `b->next->prev = b->prev; b->prev->next = b->next` -/
def Links.unlink (l : Links α) (x : α) : Links α :=
  ⟨update l.next (l.prev (some x)) (l.next (some x)),
    update l.prev (l.next (some x)) (l.prev (some x))⟩

/-- `b->next = head.next; b->prev = &head; head.next->prev = b; head.next = b` -/
def Links.pushFront (l : Links α) (x : α) : Links α :=
  ⟨update (update l.next (some x) (l.next none)) none (some x),
    update (update l.prev (some x) none) (l.next none) (some x)⟩

theorem Holds.unlink (h : Holds l (xs ++ x :: ys)) : Holds (l.unlink x) (xs ++ ys) := by
  obtain ⟨hnodup, hpath⟩ := h
  obtain ⟨hxs, hxys, hdisj⟩ := List.nodup_append.mp hnodup
  obtain ⟨hxy, hys⟩ := List.nodup_cons.mp hxys
  refine ⟨hnodup.sublist (List.Sublist.append_left (List.sublist_cons_self x ys) xs), ?_⟩
  obtain ⟨hleft, hright⟩ := path_append.mp hpath
  obtain ⟨hseg, -, hprev⟩ := path_iff.mp hleft
  rw [path_iff, seg_append, endOf_append]
  rw [Links.unlink, hprev]
  cases ys with
  | nil =>
    rw [show l.next (some x) = none from hright.1]
    exact ⟨⟨hseg.update_end (c := none) hxs (fun _ _ => nofun) (fun _ _ => nofun) _, trivial⟩,
      update_self (endOf none xs) none l.next, update_self none (endOf none xs) l.prev⟩
  | cons y ys =>
    obtain ⟨⟨hnext, -⟩, hpathy⟩ := hright
    obtain ⟨hsegy, hendn, hendp⟩ := path_iff.mp hpathy
    obtain ⟨hyys, -⟩ := List.nodup_cons.mp hys
    -- the end of `xs` is neither `y` nor in `ys`
    have hend : ∀ z ∈ y :: ys, some z ≠ endOf none xs := by
      intro z hz he
      rcases endOf_eq none xs with h' | ⟨w, hw, h'⟩
      · rw [h'] at he
        cases he
      · rw [h'] at he
        cases he
        exact hdisj z hw z (List.mem_cons_of_mem x hz) rfl
    have hy : ∀ z ∈ xs, some y ≠ some z := by
      rintro z hz he
      cases he
      exact hdisj y hz y (List.mem_cons_of_mem x List.mem_cons_self) rfl
    rw [hnext]
    refine ⟨⟨hseg.update_end hxs (fun _ _ => nofun) hy _, ⟨update_self .., update_self ..⟩, ?_⟩,
      ?_, ?_⟩
    · refine hsegy.congr (update_of_ne (hend y List.mem_cons_self) ..) (fun z hz => ?_)
        fun z hz => ?_
      · exact update_of_ne (hend z (List.mem_cons_of_mem y hz)) ..
      · refine update_of_ne (fun he => hyys ?_) ..
        rwa [← Option.some.inj he]
    · obtain ⟨w, hw, he⟩ := endOf_mem y ys
      have hne : endOf (some y) ys ≠ endOf none xs := he ▸ hend w hw
      exact (update_of_ne hne (some y) l.next).trans hendn
    · exact (update_of_ne (nofun : none ≠ some y) (endOf none xs) l.prev).trans hendp

theorem Holds.pushFront (h : Holds l xs) (hx : x ∉ xs) : Holds (l.pushFront x) (x :: xs) := by
  obtain ⟨hnodup, hpath⟩ := h
  refine ⟨List.nodup_cons.mpr ⟨hx, hnodup⟩, ?_⟩
  rw [Links.pushFront]
  cases xs with
  | nil =>
    rw [show l.next none = none from hpath.1]
    exact ⟨⟨by simp, by simp⟩, by simp, by simp⟩
  | cons y ys =>
    obtain ⟨⟨hnext, -⟩, hpath⟩ := hpath
    obtain ⟨hseg, hendn, hendp⟩ := path_iff.mp hpath
    obtain ⟨hy, -⟩ := List.nodup_cons.mp hnodup
    have hne : ∀ z ∈ y :: ys, z ≠ x := by
      rintro z hz rfl
      exact hx hz
    have hyx : y ≠ x := hne y List.mem_cons_self
    rw [hnext]
    refine ⟨⟨by simp, by simp [Ne.symm hyx]⟩, ⟨by simp, by simp⟩, path_iff.mpr ⟨?_, ?_, ?_⟩⟩
    · refine hseg.congr (by simp [hyx]) (fun z hz => ?_) fun z hz => ?_
      · simp [hne z (List.mem_cons_of_mem y hz)]
      · have hzy : z ≠ y := by
          rintro rfl
          exact hy hz
        simp [hne z (List.mem_cons_of_mem y hz), hzy]
    · obtain ⟨w, hw, he⟩ := endOf_mem y ys
      rw [he] at hendn ⊢
      simp [hne w hw, hendn]
    · simp [hendp]

/-- A node is moved to the front. -/
theorem Holds.moveFront (h : Holds l xs) (hx : x ∈ xs) :
    ∃ ys, Holds ((l.unlink x).pushFront x) ys ∧ ys.Perm xs := by
  obtain ⟨as, bs, rfl⟩ := List.append_of_mem hx
  have hn : x ∉ as ++ bs := (List.nodup_cons.mp (List.nodup_middle.mp h.nodup)).1
  exact ⟨x :: (as ++ bs), h.unlink.pushFront hn, List.perm_middle.symm⟩

/-- The ring without nodes. -/
def Links.empty : Links α := ⟨fun _ => none, fun _ => none⟩

/-- The loop that puts the nodes into the ring, one after the other. -/
theorem holds_foldl (h : Holds l xs) (hn : (xs ++ ys).Nodup) :
    Holds (ys.foldl Links.pushFront l) (ys.reverse ++ xs) := by
  induction ys generalizing l xs with
  | nil => exact h
  | cons y ys ih =>
    obtain ⟨hy, -⟩ := List.nodup_cons.mp (List.nodup_middle.mp hn)
    have hy' : y ∉ xs := fun hm => hy (List.mem_append_left ys hm)
    have := ih (h.pushFront hy') (List.nodup_middle.mp hn)
    rwa [List.reverse_cons, List.append_assoc, List.singleton_append]

theorem holds_of_nodup (hn : ys.Nodup) :
    Holds (ys.foldl Links.pushFront Links.empty) ys.reverse := by
  have hempty : Holds (Links.empty : Links α) [] := ⟨List.nodup_nil, rfl, rfl⟩
  have h := holds_foldl hempty hn
  rwa [List.append_nil] at h

end LinkedRing
