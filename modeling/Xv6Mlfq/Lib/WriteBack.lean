import Mathlib.Logic.Function.Basic
import Mathlib.Tactic.Common

/-!
# Write-back caches

A cache has lines over a disk.  A line carries at most one address; it may be valid, and it may be
*ahead* of the disk.  `Coherent c m` says that cache and disk together stand for the contents `m`:
a valid line has the contents of its address, and so has the disk, unless a line is ahead of it.

## Main definitions

* `storeStep` — the plain store: a load gives what was stored last.
* `Coherent` — the cache stands for the contents of a plain store.

## Main results

* `Coherent.retag`, `Coherent.fill`, `Coherent.store`, `Coherent.mark`, `Coherent.flush`,
  `Coherent.clean` — what a cache can do to a line.
* `Coherent.load` — a load from a valid line is a load of the plain store.
-/

namespace WriteBack

open Function (update update_self update_of_ne)

structure Line (A V : Type*) where
  tag : Option A
  valid : Bool
  ahead : Bool
  data : V

structure Cache (ι A V : Type*) where
  line : ι → Line A V
  disk : A → V

inductive Event (A V : Type*)
  | load (a : A) (v : V)
  | store (a : A) (v : V)
  deriving DecidableEq

variable {ι A V : Type*}

/-- The plain store. -/
def storeStep [DecidableEq A] [DecidableEq V] : Event A V → (A → V) → Option (A → V)
  | .load a v, m => if m a = v then some m else none
  | .store a v, m => some (update m a v)

/-- The cache stands for the contents `m`. -/
structure Coherent (c : Cache ι A V) (m : A → V) : Prop where
  unique : ∀ {i j a}, (c.line i).tag = some a → (c.line j).tag = some a → i = j
  data : ∀ {i a}, (c.line i).tag = some a → (c.line i).valid = true → (c.line i).data = m a
  disk : ∀ a, c.disk a = m a ∨
    ∃ i, (c.line i).tag = some a ∧ (c.line i).valid = true ∧ (c.line i).ahead = true

/-- Lines without an address. -/
theorem coherent_of_untagged {c : Cache ι A V} (h : ∀ i, (c.line i).tag = none) :
    Coherent c c.disk where
  unique hi := by simp [h] at hi
  data hi := by simp [h] at hi
  disk _ := .inl rfl

section Load

variable [DecidableEq A] [DecidableEq V]

theorem Coherent.load {c : Cache ι A V} {m : A → V} (h : Coherent c m) {i : ι} {a : A}
    (hi : (c.line i).tag = some a) (hv : (c.line i).valid = true) :
    storeStep (.load a (c.line i).data) m = some m := by
  rw [storeStep, if_pos (h.data hi hv).symm]

end Load

section Update

variable {c : Cache ι A V} {m : A → V} {i : ι} {a : A}

/-- The line with the address `a` is the only place where the disk can be behind. -/
theorem Coherent.disk_of_ne (h : Coherent c m) (hi : (c.line i).tag = some a) {a' : A}
    (ha : a' ≠ a) : c.disk a' = m a' ∨
      ∃ j, j ≠ i ∧ (c.line j).tag = some a' ∧ (c.line j).valid = true ∧
        (c.line j).ahead = true := by
  refine (h.disk a').imp_right fun ⟨j, hj, hrest⟩ => ⟨j, ?_, hj, hrest⟩
  rintro rfl
  exact ha (Option.some.inj (hj.symm.trans hi))

/-- The disk is right about an address whose line is not valid. -/
theorem Coherent.disk_eq (h : Coherent c m) (hi : (c.line i).tag = some a)
    (hv : (c.line i).valid = false) : c.disk a = m a := by
  refine (h.disk a).resolve_right ?_
  rintro ⟨j, hj, hv', -⟩
  obtain rfl := h.unique hj hi
  rw [hv] at hv'
  cases hv'

variable [DecidableEq ι]

variable {l : Line A V}

/-- A line keeps its address, and the contents change for that address only. -/
theorem Coherent.update_line (h : Coherent c m) (hi : (c.line i).tag = some a)
    (hl : l.tag = some a) {disk m' : A → V} (hm : ∀ a', a' ≠ a → m' a' = m a')
    (hdisk : ∀ a', a' ≠ a → disk a' = c.disk a') (hdata : l.valid = true → l.data = m' a)
    (ha : disk a = m' a ∨ l.valid = true ∧ l.ahead = true) :
    Coherent ⟨update c.line i l, disk⟩ m' := by
  have htag : ∀ j, (update c.line i l j).tag = (c.line j).tag := by
    intro j
    by_cases hj : j = i
    · subst hj
      rw [update_self, hl, hi]
    · rw [update_of_ne hj]
  constructor
  case unique =>
    intro j k b hj hk
    exact h.unique ((htag j).symm.trans hj) ((htag k).symm.trans hk)
  case data =>
    intro j b hj hv
    by_cases hji : j = i
    · subst hji
      obtain rfl : a = b := Option.some.inj (hi.symm.trans ((htag j).symm.trans hj))
      simp only [update_self] at hv ⊢
      exact hdata hv
    · simp only [update_of_ne hji] at hj hv ⊢
      have hb : b ≠ a := by
        rintro rfl
        exact hji (h.unique hj hi)
      rw [hm b hb, h.data hj hv]
  case disk =>
    intro b
    by_cases hb : b = a
    · subst hb
      exact ha.imp_right fun ⟨hv, hah⟩ => ⟨i, by simp [hl, hv, hah]⟩
    · show disk b = m' b ∨ _
      rw [hm b hb, hdisk b hb]
      exact (h.disk_of_ne hi hb).imp_right fun ⟨j, hj, hrest⟩ => ⟨j, by simpa [hj] using hrest⟩

/-- A line that is not ahead is given a new address, which no line has. -/
theorem Coherent.retag (h : Coherent c m) (hi : (c.line i).valid = true → (c.line i).ahead = false)
    (ha : ∀ j, (c.line j).tag ≠ some a) (hl : l.tag = some a)
    (hv : l.valid = false) : Coherent ⟨update c.line i l, c.disk⟩ m := by
  constructor
  case unique =>
    intro j k b hj hk
    by_cases hji : j = i <;> by_cases hki : k = i
    · rw [hji, hki]
    · simp only [hji, update_self, update_of_ne hki, hl] at hj hk
      exact absurd (hk.trans hj.symm) (ha k)
    · simp only [hki, update_self, update_of_ne hji, hl] at hj hk
      exact absurd (hj.trans hk.symm) (ha j)
    · simp only [update_of_ne hji, update_of_ne hki] at hj hk
      exact h.unique hj hk
  case data =>
    intro j b hj hv'
    by_cases hji : j = i
    · simp [hji, hv] at hv'
    · simp only [update_of_ne hji] at hj hv' ⊢
      exact h.data hj hv'
  case disk =>
    intro b
    refine (h.disk b).imp_right fun ⟨j, hj, hv', hah⟩ => ⟨j, ?_⟩
    have hji : j ≠ i := by
      rintro rfl
      rw [hi hv'] at hah
      cases hah
    simp only [update_of_ne hji]
    exact ⟨hj, hv', hah⟩

/-- A line is read from the disk. -/
theorem Coherent.fill (h : Coherent c m) (hi : (c.line i).tag = some a)
    (hv : (c.line i).valid = false) (hl : l.tag = some a)
    (hd : l.data = c.disk a) : Coherent ⟨update c.line i l, c.disk⟩ m :=
  h.update_line hi hl (fun _ _ => rfl) (fun _ _ => rfl) (fun _ => hd.trans (h.disk_eq hi hv))
    (.inl (h.disk_eq hi hv))

/-- New contents are stored in a line. -/
theorem Coherent.store [DecidableEq A] (h : Coherent c m) (hi : (c.line i).tag = some a)
    (hl : l.tag = some a) (hv : l.valid = true) (hah : l.ahead = true) :
    Coherent ⟨update c.line i l, c.disk⟩ (update m a l.data) :=
  h.update_line hi hl (fun _ ha => update_of_ne ha ..) (fun _ _ => rfl)
    (fun _ => (update_self a l.data m).symm) (.inr ⟨hv, hah⟩)

/-- A line is kept from being dropped. -/
theorem Coherent.mark (h : Coherent c m) (hi : (c.line i).tag = some a)
    (hv : (c.line i).valid = true) (hl : l.tag = some a) (hv' : l.valid = true)
    (hah : l.ahead = true) (hd : l.data = (c.line i).data) :
    Coherent ⟨update c.line i l, c.disk⟩ m :=
  h.update_line hi hl (fun _ _ => rfl) (fun _ _ => rfl) (fun _ => hd.trans (h.data hi hv))
    (.inr ⟨hv', hah⟩)

/-- A line that the disk agrees with need not be ahead any more. -/
theorem Coherent.clean (h : Coherent c m) (hi : (c.line i).tag = some a)
    (hv : (c.line i).valid = true) (hdisk : c.disk a = (c.line i).data)
    (hl : l.tag = some a) (hd : l.data = (c.line i).data) :
    Coherent ⟨update c.line i l, c.disk⟩ m :=
  h.update_line hi hl (fun _ _ => rfl) (fun _ _ => rfl) (fun _ => hd.trans (h.data hi hv))
    (.inl (hdisk.trans (h.data hi hv)))

/-- A line is written to the disk. -/
theorem Coherent.flush [DecidableEq A] (h : Coherent c m) (hi : (c.line i).tag = some a)
    (hv : (c.line i).valid = true) :
    Coherent ⟨c.line, update c.disk a (c.line i).data⟩ m := by
  have hdisk : update c.disk a (c.line i).data a = m a := by
    rw [update_self, h.data hi hv]
  have := h.update_line hi hi (fun _ _ => rfl) (fun _ ha => update_of_ne ha ..)
    (fun _ => h.data hi hv) (.inl hdisk)
  rwa [Function.update_eq_self] at this

end Update

end WriteBack
