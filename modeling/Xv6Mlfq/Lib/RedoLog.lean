import Mathlib.Data.List.Basic
import Mathlib.Data.Set.Basic
import Mathlib.Tactic.Common

/-!
# A physical redo log

A store of blocks with addresses in `α` keeps a log in some of its blocks: a header that lists
home addresses, and for the `i`-th of them its new contents in the block `slot i`.  An update of
many blocks is made atomic in four phases: the new contents are copied to the slots while the
header is empty, the header is written, the slots are copied to the home addresses, the header is
emptied.

`Recovers header disk G` says that the home blocks are those of `G` once the log has been
installed.  It is a property of the disk alone, so what holds of it at a crash holds after it.
There is one lemma for each kind of block write: only the write of the header changes `G`.

## Main results

* `Recovers.slot`, `Recovers.commit`, `Recovers.install`, `Recovers.clear` — the phases.
* `Installed.succ`, `Recovers.eq_of_installed` — recovery, and what it arrives at.
-/

namespace RedoLog

open Function (update update_self update_of_ne)

/-- Where the log is, and which blocks are not part of it. -/
structure Layout (α : Type*) where
  slot : ℕ → α
  home : Set α
  cap : ℕ
  apart : ∀ i, i < cap → slot i ∉ home
  inj : ∀ i j, i < cap → j < cap → slot i = slot j → i = j

variable {α δ : Type*} {l : Layout α} {header : List α} {disk G : α → δ}

/-- With the log installed, the home blocks are those of `G`. -/
structure Recovers (l : Layout α) (header : List α) (disk G : α → δ) : Prop where
  fits : header.length ≤ l.cap
  home : ∀ b ∈ header, b ∈ l.home
  logged : ∀ i (h : i < header.length), disk (l.slot i) = G header[i]
  rest : ∀ b ∈ l.home, b ∉ header → disk b = G b

/-- The first `k` blocks of the log are installed. -/
def Installed (header : List α) (disk G : α → δ) (k : ℕ) : Prop :=
  ∀ i (h : i < header.length), i < k → disk header[i] = G header[i]

/-- The first `k` of the blocks `L` have been copied to the log. -/
def Copied (l : Layout α) (L : List α) (disk G : α → δ) (k : ℕ) : Prop :=
  ∀ i (h : i < L.length), i < k → disk (l.slot i) = G L[i]

theorem recovers_nil (h : ∀ b ∈ l.home, disk b = G b) : Recovers l [] disk G where
  fits := Nat.zero_le _
  home b hb := by cases hb
  logged i hi := by simp at hi
  rest b hb _ := h b hb

/-- With an empty header the home blocks are up to date. -/
theorem Recovers.eq_of_nil (h : Recovers l [] disk G) {b : α} (hb : b ∈ l.home) :
    disk b = G b :=
  h.rest b hb (by simp)

/-- With all of the log installed, too. -/
theorem Recovers.eq_of_installed (h : Recovers l header disk G)
    (hk : Installed header disk G header.length) {b : α} (hb : b ∈ l.home) : disk b = G b := by
  by_cases hm : b ∈ header
  · obtain ⟨i, hi, rfl⟩ := List.getElem_of_mem hm
    exact hk i hi hi
  · exact h.rest b hb hm

/-- A write of the header that empties it. -/
theorem Recovers.clear (h : Recovers l header disk G)
    (hk : Installed header disk G header.length) : Recovers l [] disk G :=
  recovers_nil fun _ hb => h.eq_of_installed hk hb

/-- A write of the header that fills it: the home blocks are those of `G'` from now on. -/
theorem Recovers.commit {G' : α → δ} {L : List α} (h : Recovers l [] disk G)
    (hfits : L.length ≤ l.cap) (hhome : ∀ b ∈ L, b ∈ l.home)
    (hlog : Copied l L disk G' L.length) (hrest : ∀ b ∈ l.home, b ∉ L → G' b = G b) :
    Recovers l L disk G' where
  fits := hfits
  home := hhome
  logged i hi := hlog i hi hi
  rest b hb hm := by rw [h.eq_of_nil hb, hrest b hb hm]

variable [DecidableEq α]

/-- A write to a block that is neither home nor a slot in use, such as the header's own. -/
theorem Recovers.outside {a : α} (h : Recovers l header disk G) (ha : a ∉ l.home)
    (hslot : ∀ i, i < header.length → l.slot i ≠ a) (d : δ) :
    Recovers l header (update disk a d) G where
  fits := h.fits
  home := h.home
  logged i hi := by rw [update_of_ne (hslot i hi), h.logged i hi]
  rest b hb hm := by
    rw [update_of_ne (by rintro rfl; exact ha hb), h.rest b hb hm]

/-- A write to a slot while the header is empty. -/
theorem Recovers.slot (h : Recovers l [] disk G) {i : ℕ} (hi : i < l.cap) (d : δ) :
    Recovers l [] (update disk (l.slot i) d) G :=
  h.outside (l.apart i hi) (fun j hj => by simp at hj) d

theorem Copied.succ {L : List α} {k : ℕ} (h : Copied l L disk G k) (hk : k < L.length)
    (hfits : L.length ≤ l.cap) : Copied l L (update disk (l.slot k) (G L[k])) G (k + 1) := by
  intro i hi hik
  by_cases he : i = k
  · subst he
    rw [update_self]
  · have hne : l.slot i ≠ l.slot k := fun hs =>
      he (l.inj i k (hi.trans_le hfits) (hk.trans_le hfits) hs)
    rw [update_of_ne hne]
    exact h i hi (by omega)

/-- A write of a slot to its home. -/
theorem Recovers.install (h : Recovers l header disk G) {k : ℕ} (hk : k < header.length) :
    Recovers l header (update disk header[k] (disk (l.slot k))) G where
  fits := h.fits
  home := h.home
  logged i hi := by
    have hne : l.slot i ≠ header[k] := by
      intro he
      exact l.apart i (hi.trans_le h.fits) (he ▸ h.home _ (List.getElem_mem hk))
    rw [update_of_ne hne, h.logged i hi]
  rest b hb hm := by
    have hne : b ≠ header[k] := by
      rintro rfl
      exact hm (List.getElem_mem hk)
    rw [update_of_ne hne, h.rest b hb hm]

theorem Installed.succ {k : ℕ} (hr : Recovers l header disk G) (h : Installed header disk G k)
    (hk : k < header.length) :
    Installed header (update disk header[k] (disk (l.slot k))) G (k + 1) := by
  intro i hi hik
  by_cases he : header[i] = header[k]
  · rw [he, update_self, hr.logged k hk]
  · rw [update_of_ne he]
    refine h i hi ?_
    have : i ≠ k := by
      rintro rfl
      exact he rfl
    omega

end RedoLog
