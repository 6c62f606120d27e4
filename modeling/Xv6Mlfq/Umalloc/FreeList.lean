import Xv6Mlfq.Umalloc.Malloc
import Mathlib.Data.List.Nodup
import Mathlib.Data.List.Perm.Subperm
import Mathlib.Tactic.NormNum

/-!
# The free list

What `free`, `morecore` and `malloc` do to the free list and the blocks in use, as long as no sum
and no product wraps: the list stays a cycle through spaced extents, and the extents in the list and
those in use are what `sbrk` has returned.

## Main definitions

* `Sound base bound s R A` — the free list `R`, of which `base` is the first, and the blocks `A` in
  use.
* `Fresh bound sbrk` — memory from `sbrk` is above all that there was.

## Main results

* `Sound.wp_free` — a block in use goes to the list.
* `Sound.wp_morecore` — a new block does.
* `Sound.wp_malloc` — a block is taken from the list, if there is memory.
-/

namespace Xv6Mlfq.Umalloc

open Function (update update_self update_of_ne)
open Wp (wp wp_mono wp_bind wp_pure wp_look wp_modify)
open Cycle (path_split)
open Extents (Extent Spaced cover bytes cells insertAfter joined rest)

/-- A block between `base` and `brk` -/
def IsBlock (base brk : ℕ) (e : Extent) : Prop :=
  base + HEADER ≤ e.addr ∧ 0 < e.units ∧ e.stop HEADER ≤ brk

/-- The memory from `sbrk`, in units -/
def Heap.obtained (s : Heap) : List Extent := s.got.map fun r => ⟨r.1, r.2 / HEADER⟩

/-- The free list is `R`, and the blocks `A` are in use. -/
structure Sound (base bound : ℕ) (s : Heap) (R A : List Extent) : Prop where
  cycle : Cycle.Path s.ptr base (R.map Extent.addr) base
  freep : s.freep ∈ R.map Extent.addr
  sizes : ∀ e ∈ R ++ A, s.size e.addr = e.units
  spaced : Spaced HEADER R
  listed : ∀ e ∈ R, e = ⟨base, 0⟩ ∨ IsBlock base s.brk e
  used : ∀ e ∈ A, IsBlock base s.brk e
  apart : Disjoint (cover (bytes HEADER) R) (cover (bytes HEADER) A)
  distinct : A.Pairwise fun e f => Disjoint (bytes HEADER e) (bytes HEADER f)
  all : cover (cells HEADER) R ∪ cover (cells HEADER) A = cover (cells HEADER) s.obtained
  low : base + HEADER ≤ s.brk
  high : s.brk < bound

section Free

variable {F : String → Prop} {base bound fuel : ℕ} {s : Heap} {R R₁ R₂ A : List Extent}
  {e f p : Extent}

theorem Sound.disjoint (h : Sound base bound s R A) (he : e ∈ R) (hf : f ∈ A) :
    Disjoint (bytes HEADER e) (bytes HEADER f) := by
  apply Disjoint.mono _ _ h.apart
  · exact fun x hx => ⟨e, he, hx⟩
  · exact fun x hx => ⟨f, hf, hx⟩

/-- Blocks that are disjoint: one ends before the other begins. -/
theorem IsBlock.apart {brk : ℕ} (he : IsBlock base brk e) (hf : IsBlock base brk f) :
    Disjoint (bytes HEADER e) (bytes HEADER f) ↔ e.stop HEADER ≤ f.addr ∨ f.stop HEADER ≤ e.addr :=
  Extents.disjoint_bytes (Nat.mul_pos (by norm_num) he.2.1) (Nat.mul_pos (by norm_num) hf.2.1)

theorem IsBlock.addr_ne {brk : ℕ} (he : IsBlock base brk e) (hf : IsBlock base brk f)
    (h : Disjoint (bytes HEADER e) (bytes HEADER f)) : e.addr ≠ f.addr := by
  have hep := he.2.1
  have hfp := hf.2.1
  have happ := (he.apart hf).mp h
  rw [Extent.stop, Extent.stop] at happ
  lia

/-- No two blocks have one header. -/
theorem Sound.nodup (h : Sound base bound s R A) : ((R ++ A).map Extent.addr).Nodup := by
  rw [List.map_append]
  refine List.Nodup.append ?_ ?_ ?_
  · exact h.spaced.addr_lt.imp fun hlt => hlt.ne
  · apply List.pairwise_map.mpr
    apply h.distinct.imp_of_mem
    intro e f he hf hdis
    exact (h.used e he).addr_ne (h.used f hf) hdis
  · intro x hx hx'
    obtain ⟨e, he, rfl⟩ := List.mem_map.mp hx
    obtain ⟨f, hf, heq⟩ := List.mem_map.mp hx'
    rcases h.listed e he with rfl | hblock
    · have hlow : base + 8 ≤ f.addr := (h.used f hf).1
      dsimp only at heq
      omega
    · exact hblock.addr_ne (h.used f hf) (h.disjoint he hf) heq.symm

/-- The pointer of a node is the next node, or `base` at the end. -/
theorem Sound.ptr_eq (h : Sound base bound s (R₁ ++ p :: R₂) A) :
    s.ptr p.addr = (R₂.map Extent.addr).headD base := by
  have hcycle := h.cycle
  rw [List.map_append, List.map_cons] at hcycle
  have hrest := (path_split.mp hcycle).2
  cases R₂ with
  | nil => exact hrest
  | cons f R₂ => exact hrest.1

theorem Sound.base_le (h : Sound base bound s R A) (he : e ∈ R) : base ≤ e.addr := by
  rcases h.listed e he with rfl | hblock
  · exact le_rfl
  · exact (Nat.le_add_right _ _).trans hblock.1

theorem Sound.stop_le (h : Sound base bound s R A) (he : e ∈ R) : e.stop HEADER ≤ s.brk := by
  rcases h.listed e he with rfl | hblock
  · have hlow := h.low
    rw [Extent.stop]
    lia
  · exact hblock.2.2

/-! ## The loop of `free` -/

/-- The loop of `free` stops at `p`. -/
def Stops (s : Heap) (bp p : ℕ) : Prop :=
  (bp > p ∧ bp < s.ptr p) ∨ (p ≥ s.ptr p ∧ (bp > p ∨ bp < s.ptr p))

/-- It stops at the last node before the block. -/
theorem Sound.stops_iff {bp : ℕ} (h : Sound base bound s (R₁ ++ p :: R₂) A) (hbp : base < bp) :
    Stops s bp p.addr ↔ p.addr < bp ∧ ∀ f ∈ R₂, bp < f.addr := by
  have hbase : base ≤ p.addr := h.base_le (List.mem_append_right R₁ List.mem_cons_self)
  have hnext := h.ptr_eq
  have hspaced := (List.pairwise_append.mp h.spaced).2.1
  rw [Stops, hnext]
  cases R₂ with
  | nil =>
    have hhead : (([] : List Extent).map Extent.addr).headD base = base := rfl
    rw [hhead]
    refine ⟨fun hstop => ⟨by omega, nofun⟩, fun hlt => .inr ⟨hbase, .inl hlt.1⟩⟩
  | cons f R₂ =>
    have hpf := (List.pairwise_cons.mp hspaced).1 f List.mem_cons_self
    have hpp : p.addr ≤ p.stop HEADER := Nat.le_add_right ..
    have hhead : ((f :: R₂).map Extent.addr).headD base = f.addr := rfl
    rw [hhead]
    refine ⟨fun hstop => ⟨by omega, ?_⟩, fun hlt => .inl ⟨hlt.1, hlt.2 f List.mem_cons_self⟩⟩
    intro g hg
    rcases List.mem_cons.mp hg with rfl | hg
    · omega
    · have hfg := (List.pairwise_cons.mp (List.pairwise_cons.mp hspaced).2).1 g hg
      have hff : f.addr ≤ f.stop HEADER := Nat.le_add_right ..
      omega

/-- The loop goes along a path until it stops.  By induction on the path -/
theorem wp_freeLoop {bp a b : ℕ} {l : List ℕ} (hpath : Cycle.Path s.ptr a l b)
    (hstop : ∃ p ∈ l, Stops s bp p) (hfuel : l.length ≤ fuel) :
    wp F (freeLoop bp fuel a) (fun p s' => s' = s ∧ p ∈ l ∧ Stops s bp p) s := by
  induction l generalizing a fuel with
  | nil =>
    obtain ⟨p, hp, -⟩ := hstop
    exact absurd hp List.not_mem_nil
  | cons x l ih =>
    obtain ⟨rfl, hrest⟩ := hpath
    cases fuel with
    | zero => exact absurd hfuel (Nat.not_succ_le_zero _)
    | succ fuel =>
      rw [freeLoop, wp_bind, wp_look]
      by_cases h₁ : bp > a ∧ bp < s.ptr a
      · rw [if_pos h₁, wp_pure]
        exact ⟨rfl, List.mem_cons_self, .inl h₁⟩
      rw [if_neg h₁]
      by_cases h₂ : a ≥ s.ptr a ∧ (bp > a ∨ bp < s.ptr a)
      · rw [if_pos h₂, wp_pure]
        exact ⟨rfl, List.mem_cons_self, .inr h₂⟩
      rw [if_neg h₂]
      have hlater : ∃ p ∈ l, Stops s bp p := by
        obtain ⟨p, hp, hs⟩ := hstop
        rcases List.mem_cons.mp hp with rfl | hp
        · exact absurd hs (not_or.mpr ⟨h₁, h₂⟩)
        · exact ⟨p, hp, hs⟩
      apply wp_mono (ih hrest hlater (Nat.le_of_succ_le_succ hfuel))
      rintro p s' ⟨hs, hp, hsp⟩
      exact ⟨hs, List.mem_cons_of_mem a hp, hsp⟩

/-! ## Joining -/

/-- The header at `a` is written. -/
def Heap.setBlock (s : Heap) (a ptr size : ℕ) : Heap :=
  { s with ptr := update s.ptr a ptr, size := update s.size a size }

theorem setBlock_ptr {a x n : ℕ} (h : s.size a = n) :
    s.setBlock a x n = { s with ptr := update s.ptr a x } := by
  rw [Heap.setBlock, ← h, Function.update_eq_self]

/-- Before `joinNext`, the block `e` belongs between `p` and `R₂`. -/
theorem Sound.wp_joinNext (h : Sound base bound s (R₁ ++ p :: R₂) (e :: A))
    (hbound : bound ≤ 2 ^ 32) :
    wp F (joinNext e.addr p.addr) (fun _ s' => ∃ x,
    s' = s.setBlock e.addr x (joined HEADER e R₂).units ∧
      Cycle.Path s.ptr x ((rest HEADER e R₂).map Extent.addr) base) s := by
  have he : IsBlock base s.brk e := h.used e List.mem_cons_self
  have hsize : s.size e.addr = e.units := h.sizes e (List.mem_append_right _ List.mem_cons_self)
  have hstop : header e.addr (s.size e.addr) = e.stop HEADER := by
    rw [header, hsize, ← Extent.stop, Nat.mod_eq_of_lt]
    have := h.high
    have := he.2.2
    omega
  have hcycle := h.cycle
  rw [List.map_append, List.map_cons] at hcycle
  have hpath := (path_split.mp hcycle).2
  have hnext := h.ptr_eq
  rw [joinNext, wp_bind, wp_look, hstop]
  by_cases hjoin : e.stop HEADER = s.ptr p.addr
  · -- the block is followed by one of the list, which is not `base`
    cases R₂ with
    | nil =>
      have hbase : s.ptr p.addr = base := hnext
      have hlow : base + 8 ≤ e.addr := he.1
      have hle : e.addr ≤ e.stop HEADER := Nat.le_add_right ..
      omega
    | cons f R₂ =>
      have hf : s.ptr p.addr = f.addr := hnext
      have hmem : f ∈ R₁ ++ p :: f :: R₂ :=
        List.mem_append_right R₁ (List.mem_cons_of_mem p List.mem_cons_self)
      have hfsize : s.size f.addr = f.units := h.sizes f (List.mem_append_left _ hmem)
      have hfstop : f.stop HEADER ≤ s.brk := h.stop_le hmem
      rw [hf] at hjoin
      have hsum : (e.units + f.units) % 2 ^ 32 = e.units + f.units := by
        have hhigh := h.high
        rw [Extent.stop, ← hjoin, Extent.stop] at hfstop
        lia
      rw [hf, if_pos (by simpa using hjoin), wp_bind, wp_modify, wp_modify]
      refine ⟨s.ptr f.addr, ?_, ?_⟩
      · rw [Heap.setBlock, joined, if_pos hjoin]
        rw [hf, hsize, hfsize, hsum]
      · rw [rest, if_pos hjoin]
        exact hpath.2
  · rw [if_neg (by simpa using hjoin), wp_modify]
    have hsame : joined HEADER e R₂ = e ∧ rest HEADER e R₂ = R₂ := by
      cases R₂ with
      | nil => exact ⟨rfl, rfl⟩
      | cons f R₂ =>
        have hf : s.ptr p.addr = f.addr := hnext
        rw [joined, rest, if_neg (hf ▸ hjoin), if_neg (hf ▸ hjoin)]
        exact ⟨rfl, rfl⟩
    refine ⟨s.ptr p.addr, ?_, ?_⟩
    · rw [hsame.1, setBlock_ptr hsize]
    · rw [hsame.2]
      exact hpath

/-- The pointers and sizes after `free`: the block has been joined with the one before it, or
not. -/
def freedPtr (s : Heap) (p e : Extent) (x : ℕ) : ℕ → ℕ :=
  update (update s.ptr e.addr x) p.addr (if p.stop HEADER = e.addr then x else e.addr)

def freedSize (s : Heap) (p e : Extent) (m : ℕ) : ℕ → ℕ :=
  update (update s.size e.addr m) p.addr (if p.stop HEADER = e.addr then p.units + m else p.units)

/-- After `joinNext` -/
theorem Sound.wp_joinPrev {x m : ℕ} (h : Sound base bound s (R₁ ++ p :: R₂) A)
    (hbound : bound ≤ 2 ^ 32) (hne : p.addr ≠ e.addr) (hm : e.addr + HEADER * m ≤ s.brk) :
    wp F (joinPrev e.addr p.addr) (fun _ s' => s' = { s with
      ptr := freedPtr s p e x
      size := freedSize s p e m }) (s.setBlock e.addr x m) := by
  have hmem : p ∈ R₁ ++ p :: R₂ := List.mem_append_right R₁ List.mem_cons_self
  have hhigh := h.high
  have hpsize : (s.setBlock e.addr x m).size p.addr = p.units :=
    (update_of_ne hne _ _).trans (h.sizes p (List.mem_append_left A hmem))
  have hesize : (s.setBlock e.addr x m).size e.addr = m := update_self ..
  have heptr : (s.setBlock e.addr x m).ptr e.addr = x := update_self ..
  have hstop : header p.addr p.units = p.stop HEADER := by
    rw [header, ← Extent.stop, Nat.mod_eq_of_lt]
    have := h.stop_le hmem
    omega
  rw [joinPrev, wp_bind, wp_look, hpsize, hstop, freedPtr, freedSize]
  by_cases hjoin : p.stop HEADER = e.addr
  · have hsum : (p.units + m) % 2 ^ 32 = p.units + m := by
      rw [← hjoin, Extent.stop] at hm
      lia
    rw [if_pos (by simpa using hjoin), if_pos hjoin, if_pos hjoin, wp_bind, wp_modify,
      wp_modify, hpsize, hesize, hsum, heptr]
    rfl
  · rw [if_neg (by simpa using hjoin), if_neg hjoin, if_neg hjoin, wp_modify, ← setBlock_ptr hpsize]
    rfl

/-- The headers of the list and of the blocks in use, without those of `p` and `e` -/
theorem Sound.other (h : Sound base bound s (R₁ ++ p :: R₂) (e :: A)) :
    p.addr ≠ e.addr ∧ ∀ f ∈ R₁ ++ R₂ ++ A, f.addr ≠ p.addr ∧ f.addr ≠ e.addr := by
  have hperm : (R₁ ++ p :: R₂ ++ e :: A).Perm (p :: e :: (R₁ ++ R₂ ++ A)) := by
    refine List.perm_middle.trans ?_
    rw [List.append_assoc, List.cons_append, List.append_assoc]
    refine (List.Perm.cons e List.perm_middle).trans ?_
    exact List.Perm.swap p e _
  have hnodup := (hperm.map Extent.addr).nodup_iff.mp h.nodup
  rw [List.map_cons, List.map_cons, List.nodup_cons, List.nodup_cons, List.mem_cons,
    not_or] at hnodup
  obtain ⟨⟨hpe, hp⟩, he, -⟩ := hnodup
  refine ⟨hpe, ?_⟩
  intro f hf
  have hmem := List.mem_map_of_mem (f := Extent.addr) hf
  refine ⟨?_, ?_⟩
  · rintro heq
    exact hp (heq ▸ hmem)
  · rintro heq
    exact he (heq ▸ hmem)

theorem not_mem_map_addr {l : List Extent} {a : ℕ} (h : ∀ f ∈ l, f.addr ≠ a) :
    a ∉ l.map Extent.addr := by
  intro hmem
  obtain ⟨f, hf, heq⟩ := List.mem_map.mp hmem
  exact h f hf heq

/-- The cycle goes through the block. -/
theorem path_freed {x : ℕ} (hpe : p.addr ≠ e.addr)
    (hother : ∀ f ∈ R₁ ++ rest HEADER e R₂, f.addr ≠ p.addr ∧ f.addr ≠ e.addr)
    (hbefore : Cycle.Path s.ptr base (R₁.map Extent.addr) p.addr)
    (hx : Cycle.Path s.ptr x ((rest HEADER e R₂).map Extent.addr) base) :
    Cycle.Path (freedPtr s p e x) base
    ((R₁ ++ insertAfter HEADER p e R₂).map Extent.addr) base := by
  have hkeep : ∀ {a b : ℕ} {l : List Extent}, (∀ f ∈ l, f.addr ≠ p.addr ∧ f.addr ≠ e.addr) →
      Cycle.Path s.ptr a (l.map Extent.addr) b → Cycle.Path (freedPtr s p e x) a
      (l.map Extent.addr) b := by
    intro a b l hl hpath
    exact (hpath.update (not_mem_map_addr fun f hf => (hl f hf).2)).update
      (not_mem_map_addr fun f hf => (hl f hf).1)
  have hbefore' := hkeep (fun f hf => hother f (List.mem_append_left _ hf)) hbefore
  have hx' := hkeep (fun f hf => hother f (List.mem_append_right _ hf)) hx
  have hptr : freedPtr s p e x p.addr = if p.stop HEADER = e.addr then x else e.addr :=
    update_self ..
  have heptr : freedPtr s p e x e.addr = x := by rw [freedPtr, update_of_ne hpe.symm, update_self]
  rw [List.map_append]
  apply hbefore'.append
  rw [insertAfter]
  by_cases hjoin : p.stop HEADER = e.addr
  · rw [if_pos hjoin] at hptr ⊢
    refine ⟨rfl, ?_⟩
    rw [hptr]
    exact hx'
  · rw [if_neg hjoin] at hptr ⊢
    refine ⟨rfl, ?_, ?_⟩
    · rw [hptr, Extents.joined_addr]
    · rw [Extents.joined_addr, heptr]
      exact hx'

/-- The sizes are those of the new list. -/
theorem size_freed {m : ℕ} (hpe : p.addr ≠ e.addr) (hm : m = (joined HEADER e R₂).units)
    (hother : ∀ f ∈ R₁ ++ rest HEADER e R₂ ++ A, f.addr ≠ p.addr ∧ f.addr ≠ e.addr)
    (hsizes : ∀ f ∈ R₁ ++ rest HEADER e R₂ ++ A, s.size f.addr = f.units) :
    ∀ f ∈ R₁ ++ insertAfter HEADER p e R₂ ++ A, freedSize s p e m f.addr = f.units := by
  have hkeep : ∀ f ∈ R₁ ++ rest HEADER e R₂ ++ A, freedSize s p e m f.addr = f.units := by
    intro f hf
    rw [freedSize, update_of_ne (hother f hf).1, update_of_ne (hother f hf).2]
    exact hsizes f hf
  have hpsize : freedSize s p e m p.addr = if p.stop HEADER = e.addr then p.units +
      m else p.units :=
    update_self ..
  have hesize : freedSize s p e m e.addr = m := by
    rw [freedSize, update_of_ne hpe.symm, update_self]
  intro f hf
  rw [List.append_assoc, List.mem_append, List.mem_append, insertAfter] at hf
  rcases hf with hf | hf | hf
  · exact hkeep f (List.mem_append_left _ (List.mem_append_left _ hf))
  · by_cases hjoin : p.stop HEADER = e.addr
    · rw [if_pos hjoin] at hf hpsize
      rcases List.mem_cons.mp hf with rfl | hf
      · rw [← hm]
        exact hpsize
      · exact hkeep f (List.mem_append_left _ (List.mem_append_right _ hf))
    · rw [if_neg hjoin] at hf hpsize
      rcases List.mem_cons.mp hf with rfl | hf
      · exact hpsize
      rcases List.mem_cons.mp hf with rfl | hf
      · rw [Extents.joined_addr, hesize, hm]
      · exact hkeep f (List.mem_append_left _ (List.mem_append_right _ hf))
  · exact hkeep f (List.mem_append_right _ hf)

/-- The extents of the new list are blocks. -/
theorem Sound.listed_insertAfter (h : Sound base bound s (R₁ ++ p :: R₂) A)
    (he : IsBlock base s.brk e) :
    ∀ f ∈ R₁ ++ insertAfter HEADER p e R₂, f = ⟨base, 0⟩ ∨ IsBlock base s.brk f := by
  have hR₂ : ∀ f ∈ R₂, f.stop HEADER ≤ s.brk :=
    fun f hf => h.stop_le (List.mem_append_right R₁ (List.mem_cons_of_mem p hf))
  have hstop : (joined HEADER e R₂).stop HEADER ≤ s.brk := Extents.joined_stop_le he.2.2 hR₂
  have hpos : 0 < (joined HEADER e R₂).units := he.2.1.trans_le (Extents.le_joined_units ..)
  have hrest : ∀ f ∈ rest HEADER e R₂, f = ⟨base, 0⟩ ∨ IsBlock base s.brk f :=
    fun f hf => h.listed f (List.mem_append_right R₁
      (List.mem_cons_of_mem p (Extents.rest_subset hf)))
  intro f hf
  rw [List.mem_append, insertAfter] at hf
  rcases hf with hf | hf
  · exact h.listed f (List.mem_append_left _ hf)
  · by_cases hjoin : p.stop HEADER = e.addr
    · rw [if_pos hjoin] at hf
      rcases List.mem_cons.mp hf with rfl | hf
      · refine .inr ⟨?_, Nat.add_pos_right _ hpos, ?_⟩
        · -- `base` has no units, and does not touch the block
          rcases h.listed p (List.mem_append_right R₁ List.mem_cons_self) with rfl | hp
          · have hlow := he.1
            rw [← hjoin, Extent.stop] at hlow
            norm_num at hlow
          · exact hp.1
        · rw [Extent.stop, Extents.joined_addr, ← hjoin, Extent.stop] at hstop
          rw [Extent.stop, Nat.mul_add, ← Nat.add_assoc]
          exact hstop
      · exact hrest f hf
    · rw [if_neg hjoin] at hf
      rcases List.mem_cons.mp hf with rfl | hf
      · exact h.listed f (List.mem_append_right R₁ List.mem_cons_self)
      rcases List.mem_cons.mp hf with rfl | hf
      · refine .inr ⟨?_, hpos, hstop⟩
        rw [Extents.joined_addr]
        exact he.1
      · exact hrest f hf

/-- **The block has become part of the list.** -/
theorem Sound.insert {x m : ℕ} {s' : Heap} (h : Sound base bound s (R₁ ++ p :: R₂) (e :: A))
    (hp : p.stop HEADER ≤ e.addr) (hl : ∀ f ∈ R₂, e.stop HEADER ≤ f.addr)
    (hx : Cycle.Path s.ptr x ((rest HEADER e R₂).map Extent.addr) base)
    (hm : m = (joined HEADER e R₂).units)
    (hs' : s' = { s with ptr := freedPtr s p e x, size := freedSize s p e m, freep := p.addr }) :
    Sound base bound s' (R₁ ++ insertAfter HEADER p e R₂) A := by
  subst hs'
  obtain ⟨hpe, hother⟩ := h.other
  have he : IsBlock base s.brk e := h.used e List.mem_cons_self
  have hcycle := h.cycle
  rw [List.map_append, List.map_cons] at hcycle
  have hdistinct := List.pairwise_cons.mp h.distinct
  -- what is left of the old list is part of it
  have hsub : ∀ f ∈ R₁ ++ rest HEADER e R₂, f ∈ R₁ ++ R₂ := by
    intro f hf
    rcases List.mem_append.mp hf with hf | hf
    · exact List.mem_append_left R₂ hf
    · exact List.mem_append_right R₁ (Extents.rest_subset hf)
  have hsub' : ∀ f ∈ R₁ ++ rest HEADER e R₂ ++ A, f ∈ R₁ ++ R₂ ++ A := by
    intro f hf
    rcases List.mem_append.mp hf with hf | hf
    · exact List.mem_append_left A (hsub f hf)
    · exact List.mem_append_right _ hf
  have hcover : ∀ {g : Extent → Set ℕ}, Extents.Additive HEADER g →
      cover g (R₁ ++ insertAfter HEADER p e R₂) = g e ∪ cover g (R₁ ++ p :: R₂) := by
    intro g hg
    rw [Extents.cover_append, Extents.cover_insertAfter hg, Extents.cover_append,
      Set.union_left_comm]
  refine ⟨?_, ?_, ?_, h.spaced.insertAfter hp hl, h.listed_insertAfter he, ?_, ?_,
    hdistinct.2, ?_, h.low, h.high⟩
  · exact path_freed hpe (fun f hf => hother f (List.mem_append_left A (hsub f hf)))
      (path_split.mp hcycle).1 hx
  · show p.addr ∈ _
    rw [List.map_append, insertAfter]
    split_ifs
    · exact List.mem_append_right _ List.mem_cons_self
    · exact List.mem_append_right _ List.mem_cons_self
  · apply size_freed hpe hm fun f hf => hother f (hsub' f hf)
    intro f hf
    apply h.sizes
    have hmem := hsub' f hf
    rw [List.append_assoc, List.mem_append, List.mem_append] at hmem
    rcases hmem with hf | hf | hf
    · exact List.mem_append_left _ (List.mem_append_left _ hf)
    · exact List.mem_append_left _ (List.mem_append_right R₁ (List.mem_cons_of_mem p hf))
    · exact List.mem_append_right _ (List.mem_cons_of_mem e hf)
  · exact fun f hf => h.used f (List.mem_cons_of_mem e hf)
  · rw [hcover (Extents.additive_bytes HEADER), Set.disjoint_union_left]
    refine ⟨?_, ?_⟩
    · rw [Set.disjoint_right]
      rintro y ⟨f, hf, hy⟩ hy'
      exact Set.disjoint_left.mp (hdistinct.1 f hf) hy' hy
    · have hapart := h.apart
      rw [Extents.cover_cons, Set.disjoint_union_right] at hapart
      exact hapart.2
  · have hall := h.all
    rw [Extents.cover_cons] at hall
    rw [hcover (Extents.additive_cells HEADER), Set.union_assoc, Set.union_left_comm]
    exact hall

/-- A node before the block ends before it. -/
theorem Sound.stop_le_of_lt (h : Sound base bound s R (e :: A)) (hp : p ∈ R)
    (hlt : p.addr < e.addr) : p.stop HEADER ≤ e.addr := by
  have he := h.used e List.mem_cons_self
  rcases h.listed p hp with rfl | hblock
  · exact hlt.le
  · have hapart := (hblock.apart he).mp (h.disjoint hp List.mem_cons_self)
    have hle : e.addr ≤ e.stop HEADER := Nat.le_add_right ..
    omega

/-- The block ends before a node after it. -/
theorem Sound.stop_le_of_gt (h : Sound base bound s R (e :: A)) (hf : f ∈ R)
    (hlt : e.addr < f.addr) : e.stop HEADER ≤ f.addr := by
  have he := h.used e List.mem_cons_self
  rcases h.listed f hf with rfl | hblock
  · have hlow : base + 8 ≤ e.addr := he.1
    dsimp only at hlt
    omega
  · have hapart := (hblock.apart he).mp (h.disjoint hf List.mem_cons_self)
    have hle : f.addr ≤ f.stop HEADER := Nat.le_add_right ..
    omega

/-- The loop of `free` has somewhere to stop. -/
theorem Sound.exists_stops (h : Sound base bound s R (e :: A)) :
    ∃ p ∈ R.map Extent.addr, Stops s e.addr p := by
  have hlow : base + 8 ≤ e.addr := (h.used e List.mem_cons_self).1
  cases hR : R with
  | nil =>
    have hfreep := h.freep
    rw [hR] at hfreep
    exact absurd hfreep List.not_mem_nil
  | cons f l =>
    have hspaced := h.spaced
    have hcycle := h.cycle
    rw [hR] at hspaced hcycle
    have hbase : base = f.addr := hcycle.1
    obtain ⟨R₁, p, R₂, hsplit, hp, hlater⟩ := hspaced.exists_before (a := e.addr) (by omega)
    rw [hR, hsplit] at h
    refine ⟨p.addr, ?_, (h.stops_iff (by omega)).mpr ⟨hp, ?_⟩⟩
    · rw [hsplit]
      exact List.mem_map_of_mem (List.mem_append_right R₁ List.mem_cons_self)
    · intro g hg
      have hne := (h.other.2 g (List.mem_append_left A (List.mem_append_right R₁ hg))).2
      have hle := hlater g hg
      omega

/-- Into an extent of the list that is not smaller -/
theorem exists_insertAfter (p e : Extent) (l : List Extent) :
    ∃ f ∈ insertAfter HEADER p e l, e.units ≤ f.units := by
  have hle := Extents.le_joined_units HEADER e l
  rw [insertAfter]
  split_ifs
  · exact ⟨_, List.mem_cons_self, hle.trans (Nat.le_add_left ..)⟩
  · exact ⟨_, List.mem_cons_of_mem p List.mem_cons_self, hle⟩

/-- **`free` puts the block into the list.** -/
theorem Sound.wp_free (h : Sound base bound s R (e :: A)) (hbound : bound ≤ 2 ^ 32)
    (hfuel : R.length ≤ fuel) :
    wp F (free fuel (header e.addr 1)) (fun _ s' => s'.brk = s.brk ∧ s'.got = s.got ∧
      ∃ R', Sound base bound s' R' A ∧ ∃ f ∈ R', e.units ≤ f.units) s := by
  have he : IsBlock base s.brk e := h.used e List.mem_cons_self
  have hbp : (header e.addr 1 + 2 ^ 32 - HEADER) % 2 ^ 32 = e.addr := by
    have hhigh := h.high
    obtain ⟨-, hpos, hstop⟩ := he
    rw [Extent.stop] at hstop
    rw [header]
    lia
  -- the loop goes around the cycle, from `freep`
  obtain ⟨l₁, l₂, hl⟩ := List.append_of_mem h.freep
  have hcycle := h.cycle
  rw [hl] at hcycle
  have haround : Cycle.Path s.ptr s.freep (s.freep :: l₂ ++ l₁) s.freep := hcycle.rotate
  have hperm : (s.freep :: l₂ ++ l₁).Perm (R.map Extent.addr) := by
    rw [hl]
    exact List.perm_append_comm
  have hlen : (s.freep :: l₂ ++ l₁).length ≤ fuel := by
    rw [hperm.length_eq, List.length_map]
    exact hfuel
  have hstop : ∃ p ∈ s.freep :: l₂ ++ l₁, Stops s e.addr p := by
    obtain ⟨p, hp, hs⟩ := h.exists_stops
    exact ⟨p, hperm.mem_iff.mpr hp, hs⟩
  rw [free, hbp, wp_bind, wp_look, wp_bind]
  apply wp_mono (wp_freeLoop haround hstop hlen)
  rintro _ s₁ ⟨rfl, hmem, hstops⟩
  -- the node where it has stopped
  obtain ⟨p, hp, rfl⟩ := List.mem_map.mp (hperm.mem_iff.mp hmem)
  obtain ⟨R₁, R₂, rfl⟩ := List.append_of_mem hp
  have hlow : base + 8 ≤ e.addr := he.1
  obtain ⟨hlt, hlater⟩ := (h.stops_iff (by omega)).mp hstops
  have hpe : p.stop HEADER ≤ e.addr := h.stop_le_of_lt hp hlt
  have hR₂ : ∀ f ∈ R₂, e.stop HEADER ≤ f.addr := fun f hf =>
    h.stop_le_of_gt (List.mem_append_right R₁ (List.mem_cons_of_mem p hf)) (hlater f hf)
  have hm : e.addr + HEADER * (joined HEADER e R₂).units ≤ s₁.brk := by
    rw [← Extents.joined_addr HEADER e R₂, ← Extent.stop]
    exact Extents.joined_stop_le he.2.2 fun f hf =>
      h.stop_le (List.mem_append_right R₁ (List.mem_cons_of_mem p hf))
  rw [wp_bind]
  apply wp_mono (h.wp_joinNext hbound)
  rintro _ _ ⟨x, rfl, hx⟩
  rw [wp_bind]
  apply wp_mono (h.wp_joinPrev hbound h.other.1 hm)
  rintro _ _ rfl
  rw [wp_modify]
  refine ⟨rfl, rfl, R₁ ++ insertAfter HEADER p e R₂, h.insert hpe hR₂ hx rfl rfl, ?_⟩
  obtain ⟨f, hf, hle⟩ := exists_insertAfter p e R₂
  exact ⟨f, List.mem_append_right R₁ hf, hle⟩

end Free

/-! ## `morecore` -/

section Malloc

variable {F : String → Prop} {base bound fuel : ℕ} {s : Heap} {R R₁ R₂ A : List Extent}
  {e f p q : Extent}

/-- Memory from `sbrk` is above all that there was, and below `bound`. -/
def Fresh (bound : ℕ) (sbrk : ℤ → HeapM ℕ) : Prop :=
  ∀ (n : ℕ) (s : Heap), 0 < n → n < 2 ^ 31 → s.brk < bound →
    wp (fun _ => False) (sbrk n) (fun a s' => a = FAILED ∧ s' = s ∨
      s.brk ≤ a ∧ a + n < bound ∧ s' = { s with brk := a + n, got := (a, n) :: s.got }) s

theorem IsBlock.mono {brk brk' : ℕ} (h : IsBlock base brk e) (hle : brk ≤ brk') :
    IsBlock base brk' e :=
  ⟨h.1, h.2.1, h.2.2.trans hle⟩

/-- A new block is in use, as it were. -/
theorem Sound.grow {a n : ℕ} (h : Sound base bound s R A) (hn : 0 < n) (ha : s.brk ≤ a)
    (hhigh : a + HEADER * n < bound) :
    Sound base bound { s with
      size := update s.size a n
      brk := a + HEADER * n
      got := (a, HEADER * n) :: s.got } R (⟨a, n⟩ :: A) := by
  have hle : s.brk ≤ a + HEADER * n := ha.trans (Nat.le_add_right ..)
  -- all that there was ends before the new block
  have hstop : ∀ e ∈ R ++ A, e.stop HEADER ≤ s.brk := by
    intro e he
    rcases List.mem_append.mp he with he | he
    · exact h.stop_le he
    · exact (h.used e he).2.2
  have haddr : ∀ e ∈ R ++ A, e.addr ≠ a := by
    intro e he
    rcases List.mem_append.mp he with he | he
    · rcases h.listed e he with rfl | hblock
      · have hlow := h.low
        lia
      · have := hblock.2
        rw [Extent.stop] at this
        lia
    · have := (h.used e he).2
      rw [Extent.stop] at this
      lia
  have hdis : ∀ e ∈ R ++ A, Disjoint (bytes HEADER e) (bytes HEADER ⟨a, n⟩) := by
    intro e he
    rw [bytes, bytes, Set.Ico_disjoint_Ico]
    have := hstop e he
    exact (min_le_left _ _).trans ((this.trans ha).trans (le_max_right _ _))
  refine ⟨h.cycle, h.freep, ?_, h.spaced, ?_, ?_, ?_, ?_, ?_, h.low.trans hle, hhigh⟩
  · intro e he
    rw [List.mem_append, List.mem_cons, or_left_comm, ← List.mem_append] at he
    rcases he with rfl | he
    · exact update_self ..
    · exact (update_of_ne (haddr e he) _ _).trans (h.sizes e he)
  · exact fun e he => (h.listed e he).imp_right fun hblock => hblock.mono hle
  · intro e he
    rcases List.mem_cons.mp he with rfl | he
    · exact ⟨h.low.trans ha, hn, le_rfl⟩
    · exact (h.used e he).mono hle
  · rw [Extents.cover_cons, Set.disjoint_union_right]
    refine ⟨?_, h.apart⟩
    rw [Set.disjoint_left]
    rintro x ⟨e, he, hx⟩
    exact Set.disjoint_left.mp (hdis e (List.mem_append_left A he)) hx
  · exact List.pairwise_cons.mpr ⟨fun e he => (hdis e (List.mem_append_right R he)).symm,
      h.distinct⟩
  · have hnew : Heap.obtained { s with
        size := update s.size a n
        brk := a + HEADER * n
        got := (a, HEADER * n) :: s.got } = ⟨a, n⟩ :: s.obtained := by
      rw [Heap.obtained, List.map_cons, Nat.mul_div_cancel_left n (by norm_num)]
      rfl
    rw [hnew, Extents.cover_cons, Extents.cover_cons, Set.union_left_comm, h.all]

theorem toInt_of_lt {x : ℕ} (h : x < 2 ^ 31) : toInt x = x := if_pos h

/-- **`morecore` fails, or puts a block into the list that is large enough.** -/
theorem Sound.wp_morecore {sbrk : ℤ → HeapM ℕ} {nunits : ℕ} (h : Sound base bound s R A)
    (hbase : 0 < base) (hbound : bound ≤ 2 ^ 32) (hsbrk : Fresh bound sbrk)
    (hn : HEADER * nunits < 2 ^ 31) (hfuel : R.length ≤ fuel) :
    wp (fun _ => False) (morecore fuel sbrk nunits) (fun r s' => r = 0 ∧ s' = s ∨ r ≠ 0 ∧
    r = s'.freep ∧
      ∃ R', Sound base bound s' R' A ∧ ∃ f ∈ R', nunits ≤ f.units) s := by
  rw [morecore]
  -- the units that are asked for, and how many bytes they are
  have hnu : ∃ nu, (if nunits < 4096 then 4096 else nunits) = nu ∧ 0 < nu ∧ nunits ≤ nu ∧
      HEADER * nu < 2 ^ 31 := by
    split_ifs with hlt
    · exact ⟨4096, rfl, by norm_num, hlt.le, by norm_num⟩
    · exact ⟨nunits, rfl, by omega, le_rfl, hn⟩
  obtain ⟨nu, heq, hpos, hle, hlt⟩ := hnu
  have hbytes : toInt (nu * HEADER % 2 ^ 32) = (HEADER * nu : ℕ) := by
    rw [Nat.mul_comm, Nat.mod_eq_of_lt (by omega), toInt_of_lt hlt]
  rw [heq, hbytes, wp_bind]
  apply wp_mono (hsbrk (HEADER * nu) s (by lia) hlt h.high)
  rintro a s₁ (⟨rfl, rfl⟩ | ⟨ha, hhigh, rfl⟩)
  · rw [if_pos rfl, wp_pure]
    exact .inl ⟨rfl, rfl⟩
  · have hne : a ≠ 2 ^ 32 - 1 := by lia
    rw [if_neg hne, wp_bind, wp_modify, wp_bind]
    apply wp_mono ((h.grow hpos ha hhigh).wp_free hbound hfuel)
    rintro _ s₂ ⟨_, _, R', hsound, f, hf, hfu⟩
    rw [wp_look]
    refine .inr ⟨?_, rfl, R', hsound, f, hf, hle.trans hfu⟩
    obtain ⟨g, hg, hgaddr⟩ := List.mem_map.mp hsound.freep
    have := hsound.base_le hg
    omega

/-! ## Taking units -/

/-- A block of the list comes into use. -/
theorem Sound.take (h : Sound base bound s (R₁ ++ q :: e :: R₂) A) (he : IsBlock base s.brk e) :
    Sound base bound { s with ptr := update s.ptr q.addr (s.ptr e.addr), freep := q.addr }
      (R₁ ++ q :: R₂) (e :: A) := by
  have hsplit : R₁ ++ q :: e :: R₂ = (R₁ ++ [q]) ++ e :: R₂ := by rw [List.append_assoc]; rfl
  have hsplit' : R₁ ++ q :: R₂ = (R₁ ++ [q]) ++ R₂ := by rw [List.append_assoc]; rfl
  have hmem : e ∈ R₁ ++ q :: e :: R₂ := List.mem_append_right R₁
      (List.mem_cons_of_mem q List.mem_cons_self)
  have hsub : ∀ f ∈ R₁ ++ q :: R₂, f ∈ R₁ ++ q :: e :: R₂ := by
    intro f hf
    rcases List.mem_append.mp hf with hf | hf
    · exact List.mem_append_left _ hf
    · rcases List.mem_cons.mp hf with rfl | hf
      · exact List.mem_append_right R₁ List.mem_cons_self
      · exact List.mem_append_right R₁ (List.mem_cons_of_mem q (List.mem_cons_of_mem e hf))
  have hspaced := h.spaced
  rw [hsplit] at hspaced
  have hcover : ∀ g : Extent → Set ℕ, g e ∪ cover g (R₁ ++ q :: R₂) =
      cover g (R₁ ++ q :: e :: R₂) := by
    intro g
    rw [hsplit, hsplit', Extents.cover_middle]
  have hnodup := h.spaced.addr_lt.imp (S := (· ≠ ·)) fun hlt => hlt.ne
  rw [List.map_append, List.map_cons, List.pairwise_append, List.pairwise_cons] at hnodup
  obtain ⟨-, ⟨hq, -⟩, hR₁⟩ := hnodup
  have hcycle := h.cycle
  rw [List.map_append, List.map_cons, List.map_cons, path_split] at hcycle
  refine ⟨?_, ?_, ?_, ?_, ?_, ?_, ?_, ?_, ?_, h.low, h.high⟩
  · rw [List.map_append, List.map_cons, path_split]
    dsimp only
    rw [update_self]
    refine ⟨hcycle.1.update ?_, hcycle.2.2.update ?_⟩
    · exact fun hx => hR₁ q.addr hx q.addr List.mem_cons_self rfl
    · exact fun hx => hq q.addr (List.mem_cons_of_mem e.addr hx) rfl
  · rw [List.map_append]
    exact List.mem_append_right _ List.mem_cons_self
  · intro f hf
    apply h.sizes
    rcases List.mem_append.mp hf with hf | hf
    · exact List.mem_append_left A (hsub f hf)
    · rcases List.mem_cons.mp hf with rfl | hf
      · exact List.mem_append_left A hmem
      · exact List.mem_append_right _ hf
  · rw [hsplit']
    exact hspaced.remove
  · exact fun f hf => h.listed f (hsub f hf)
  · intro f hf
    rcases List.mem_cons.mp hf with rfl | hf
    · exact he
    · exact h.used f hf
  · rw [Extents.cover_cons, Set.disjoint_union_right]
    refine ⟨?_, ?_⟩
    · rw [hsplit']
      exact hspaced.disjoint.symm
    · have hapart := h.apart
      rw [← hcover, Set.disjoint_union_left] at hapart
      exact hapart.2
  · exact List.pairwise_cons.mpr ⟨fun f hf => h.disjoint hmem hf, h.distinct⟩
  · have hall := h.all
    rw [← hcover, Set.union_assoc, Set.union_left_comm] at hall
    rw [Extents.cover_cons]
    exact hall

/-- The end of a block of the list comes into use. -/
theorem Sound.cut {x n : ℕ} (h : Sound base bound s (R₁ ++ e :: R₂) A)
    (he : IsBlock base s.brk e) (hn : 0 < n) (hlt : n < e.units) (hx : x ∈ R₁.map Extent.addr) :
    Sound base bound { s with
      size := update (update s.size e.addr (e.units - n)) (e.addr + HEADER * (e.units - n)) n
      freep := x } (R₁ ++ ⟨e.addr, e.units - n⟩ :: R₂)
      (⟨e.addr + HEADER * (e.units - n), n⟩ :: A) := by
  have hmem : e ∈ R₁ ++ e :: R₂ := List.mem_append_right R₁ List.mem_cons_self
  -- the two parts of the block
  have hbytes := Extents.additive_bytes HEADER e.addr (e.units - n) n
  rw [Nat.sub_add_cancel hlt.le] at hbytes
  have htail : bytes HEADER ⟨e.addr + HEADER * (e.units - n), n⟩ ⊆ bytes HEADER e := by
    rw [hbytes]
    exact Set.subset_union_right
  have hcover : ∀ {g : Extent → Set ℕ}, Extents.Additive HEADER g →
      g ⟨e.addr + HEADER * (e.units - n), n⟩ ∪ cover g (R₁ ++ ⟨e.addr, e.units - n⟩ :: R₂) =
        cover g (R₁ ++ e :: R₂) := fun hg => Extents.cover_cut hg hlt.le R₁ R₂
  have hstop : Extent.stop HEADER ⟨e.addr + HEADER * (e.units - n), n⟩ = e.stop HEADER := by
    rw [Extent.stop, Extent.stop, Nat.add_assoc, ← Nat.mul_add, Nat.sub_add_cancel hlt.le]
  have hhead : e.addr ∈ bytes HEADER e ∧ e.addr + HEADER * (e.units - n) ∈ bytes HEADER e := by
    rw [bytes, Set.mem_Ico, Set.mem_Ico, Extent.stop]
    lia
  -- no other header is in the block
  have hother : ∀ f ∈ R₁ ++ R₂ ++ A, f.addr ∉ bytes HEADER e := by
    have hin : ∀ {f}, IsBlock base s.brk f → f.addr ∈ bytes HEADER f := fun hf =>
      ⟨le_rfl, Nat.lt_add_of_pos_right (Nat.mul_pos (by norm_num) hf.2.1)⟩
    intro f hf hfe
    rcases List.mem_append.mp hf with hf | hf
    · have hmem' : f ∈ R₁ ++ e :: R₂ := by
        rcases List.mem_append.mp hf with hf | hf
        · exact List.mem_append_left _ hf
        · exact List.mem_append_right R₁ (List.mem_cons_of_mem e hf)
      rcases h.listed f hmem' with rfl | hblock
      · have hlow : base + 8 ≤ e.addr := he.1
        have hle : e.addr ≤ base := hfe.1
        omega
      · exact Set.disjoint_left.mp h.spaced.disjoint hfe ⟨f, hf, hin hblock⟩
    · exact Set.disjoint_left.mp (h.disjoint hmem hf) hfe (hin (h.used f hf))
  have hne : e.addr ≠ e.addr + HEADER * (e.units - n) := by lia
  refine ⟨?_, ?_, ?_, h.spaced.cut n, ?_, ?_, ?_, ?_, ?_, h.low, h.high⟩
  · have hcycle := h.cycle
    rw [List.map_append, List.map_cons] at hcycle ⊢
    exact hcycle
  · rw [List.map_append]
    exact List.mem_append_left _ hx
  · intro f hf
    have hcases : f = ⟨e.addr, e.units - n⟩ ∨ f = ⟨e.addr + HEADER * (e.units - n), n⟩ ∨
        f ∈ R₁ ++ R₂ ++ A := by
      simp only [List.mem_append, List.mem_cons] at hf ⊢
      tauto
    dsimp only
    rcases hcases with rfl | rfl | hf
    · rw [update_of_ne hne, update_self]
    · rw [update_self]
    · have hnot := hother f hf
      have hne₁ : f.addr ≠ e.addr := fun heq => hnot (heq ▸ hhead.1)
      have hne₂ : f.addr ≠ e.addr + HEADER * (e.units - n) := fun heq => hnot (heq ▸ hhead.2)
      rw [update_of_ne hne₂, update_of_ne hne₁]
      apply h.sizes
      simp only [List.mem_append, List.mem_cons] at hf ⊢
      tauto
  · intro f hf
    have hcases : f = ⟨e.addr, e.units - n⟩ ∨ f ∈ R₁ ++ e :: R₂ := by
      simp only [List.mem_append, List.mem_cons] at hf ⊢
      tauto
    rcases hcases with rfl | hf
    · refine .inr ⟨he.1, Nat.sub_pos_of_lt hlt, le_trans ?_ he.2.2⟩
      exact Nat.add_le_add_left (Nat.mul_le_mul_left _ (Nat.sub_le ..)) _
    · exact h.listed f hf
  · intro f hf
    rcases List.mem_cons.mp hf with rfl | hf
    · exact ⟨he.1.trans (Nat.le_add_right ..), hn, hstop ▸ he.2.2⟩
    · exact h.used f hf
  · rw [Extents.cover_cons, Set.disjoint_union_right]
    refine ⟨?_, ?_⟩
    · rw [Extents.cover_middle, Set.disjoint_union_left]
      refine ⟨?_, (h.spaced.disjoint.mono_left htail).symm⟩
      rw [bytes, bytes, Set.Ico_disjoint_Ico]
      exact (min_le_left _ _).trans (le_max_right _ _)
    · apply h.apart.mono_left
      rw [← hcover (Extents.additive_bytes HEADER)]
      exact Set.subset_union_right
  · exact List.pairwise_cons.mpr ⟨fun f hf => (h.disjoint hmem hf).mono_left htail, h.distinct⟩
  · have hall := h.all
    rw [← hcover (Extents.additive_cells HEADER), Set.union_assoc, Set.union_left_comm] at hall
    rw [Extents.cover_cons]
    exact hall

/-- `malloc` has returned a block of `n` units. -/
def Returned (base bound : ℕ) (A : List Extent) (n r : ℕ) (s' : Heap) : Prop :=
  ∃ R' b, Sound base bound s' R' (b :: A) ∧ b.units = n ∧ r = b.addr + HEADER

theorem Sound.returned {b : Extent} (h : Sound base bound s R (b :: A)) (hbound : bound ≤ 2 ^ 32) :
    Returned base bound A b.units (header b.addr 1) s := by
  refine ⟨R, b, h, rfl, ?_⟩
  have hhigh := h.high
  obtain ⟨-, hpos, hstop⟩ := h.used b List.mem_cons_self
  rw [Extent.stop] at hstop
  rw [header]
  lia

/-- **Units are taken from a block of the list.** -/
theorem Sound.wp_takeUnits {n : ℕ} (h : Sound base bound s (R₁ ++ q :: e :: R₂) A)
    (hbound : bound ≤ 2 ^ 32) (hn : 0 < n) (hle : n ≤ e.units) :
    wp F (takeUnits n q.addr e.addr) (Returned base bound A n) s := by
  have hmem : e ∈ R₁ ++ q :: e :: R₂ := List.mem_append_right R₁
      (List.mem_cons_of_mem q List.mem_cons_self)
  have he : IsBlock base s.brk e := by
    rcases h.listed e hmem with rfl | hblock
    · exact absurd (hn.trans_le hle) (Nat.lt_irrefl 0)
    · exact hblock
  have hsize : s.size e.addr = e.units := h.sizes e (List.mem_append_left A hmem)
  rw [takeUnits, wp_bind, wp_look, hsize]
  by_cases heq : e.units = n
  · rw [if_pos heq, wp_bind, wp_modify, wp_bind, wp_modify, wp_pure, ← heq]
    exact (h.take he).returned hbound
  · have hlt : n < e.units := lt_of_le_of_ne hle (Ne.symm heq)
    have htail : header e.addr (e.units - n) = e.addr + HEADER * (e.units - n) := by
      have hhigh := h.high
      have hstop := he.2.2
      rw [Extent.stop] at hstop
      rw [header]
      lia
    have hsplit : R₁ ++ q :: e :: R₂ = (R₁ ++ [q]) ++ e :: R₂ := by
      rw [List.append_assoc]
      rfl
    rw [hsplit] at h
    have hq : q.addr ∈ (R₁ ++ [q]).map Extent.addr :=
      List.mem_map_of_mem (List.mem_append_right R₁ List.mem_cons_self)
    rw [if_neg heq, htail, wp_bind, wp_modify, wp_bind, wp_modify, wp_bind, wp_modify, wp_pure]
    exact (h.cut he hn hlt hq).returned hbound

/-! ## The loop of `malloc` -/

theorem Sound.base_mem (h : Sound base bound s R A) : ∃ l, R = ⟨base, 0⟩ :: l := by
  cases R with
  | nil => exact absurd h.freep List.not_mem_nil
  | cons f l =>
    have hbase : base = f.addr := h.cycle.1
    rcases h.listed f List.mem_cons_self with rfl | hblock
    · exact ⟨l, rfl⟩
    · have hlow : base + 8 ≤ f.addr := hblock.1
      omega

/-- There are not more nodes than bytes. -/
theorem Sound.length_le (h : Sound base bound s R A) : R.length ≤ s.brk := by
  have hnodup : (R.map Extent.addr).Nodup := h.spaced.addr_lt.imp fun hlt => hlt.ne
  have hsub : R.map Extent.addr ⊆ List.range s.brk := by
    intro x hx
    obtain ⟨f, hf, rfl⟩ := List.mem_map.mp hx
    rw [List.mem_range]
    rcases h.listed f hf with rfl | hblock
    · have hlow : base + 8 ≤ s.brk := h.low
      dsimp only
      omega
    · obtain ⟨-, hpos, hstop⟩ := hblock
      rw [Extent.stop] at hstop
      lia
  have hlen := (List.subperm_of_subset hnodup hsub).length_le
  rwa [List.length_map, List.length_range] at hlen

/-- The cycle, from the node after `freep` to `freep` -/
theorem Sound.around (h : Sound base bound s R A) :
    ∃ l, Cycle.Path s.ptr (s.ptr s.freep) (l ++ [s.freep]) (s.ptr s.freep) ∧
    s.freep ∉ l ∧ (l ++ [s.freep]).Perm (R.map Extent.addr) := by
  obtain ⟨l₁, l₂, hl⟩ := List.append_of_mem h.freep
  have hcycle := h.cycle
  have hnodup : (R.map Extent.addr).Nodup := h.spaced.addr_lt.imp fun hlt => hlt.ne
  rw [hl] at hcycle hnodup
  obtain ⟨hbefore, hafter⟩ := path_split.mp hcycle
  have hperm : (l₂ ++ l₁ ++ [s.freep]).Perm (R.map Extent.addr) := by
    rw [hl]
    refine (List.perm_append_singleton _ _).trans ?_
    exact (List.Perm.cons _ List.perm_append_comm).trans List.perm_middle.symm
  refine ⟨l₂ ++ l₁, (hafter.append hbefore).append ⟨rfl, rfl⟩, ?_, hperm⟩
  intro hmem
  have hnot := (List.nodup_cons.mp (List.perm_middle.nodup_iff.mp hnodup)).1
  exact hnot (List.mem_append.mpr (List.mem_append.mp hmem).symm)

/-- A node that is large enough is not `base`, and its units are taken. -/
theorem Sound.wp_found {n prevp a : ℕ} (h : Sound base bound s R A)
    (hbound : bound ≤ 2 ^ 32) (hn : 0 < n)
    (hprev : prevp ∈ R.map Extent.addr) (ha : s.ptr prevp = a) (hsize : n ≤ s.size a) :
    wp F (takeUnits n prevp a) (Returned base bound A n) s := by
  obtain ⟨q, hq, rfl⟩ := List.mem_map.mp hprev
  obtain ⟨R₁, R', rfl⟩ := List.append_of_mem hq
  have hnext := h.ptr_eq
  cases R' with
  | nil =>
    have hbase : s.ptr q.addr = base := hnext
    obtain ⟨l, hl⟩ := h.base_mem
    have hzero : s.size base = 0 :=
      h.sizes ⟨base, 0⟩ (List.mem_append_left A (hl ▸ List.mem_cons_self))
    rw [← ha, hbase, hzero] at hsize
    omega
  | cons e R₂ =>
    have haddr : s.ptr q.addr = e.addr := hnext
    have hmem : e ∈ R₁ ++ q :: e :: R₂ :=
      List.mem_append_right R₁ (List.mem_cons_of_mem q List.mem_cons_self)
    rw [← ha, haddr, h.sizes e (List.mem_append_left A hmem)] at hsize
    rw [← ha, haddr]
    exact h.wp_takeUnits hbound hn hsize

section Loop

variable {sbrk : ℤ → HeapM ℕ} {n rounds prevp a b : ℕ} {l : List ℕ}

/-- The loop, when there is a block that is large enough before it comes to `freep` or there.  By
induction on the nodes up to `freep` -/
theorem Sound.wp_mallocLoop_fits (h : Sound base bound s R A) (hbound : bound ≤ 2 ^ 32) (hn : 0 < n)
    (hprev : prevp ∈ R.map Extent.addr) (ha : s.ptr prevp = a)
    (hpath : Cycle.Path s.ptr a (l ++ [s.freep]) b)
    (hmem : ∀ x ∈ l, x ∈ R.map Extent.addr) (hnot : s.freep ∉ l)
    (hfit : ∃ x ∈ l ++ [s.freep], n ≤ s.size x) (hrounds : l.length < rounds) :
    wp F (mallocLoop fuel sbrk n rounds prevp a) (Returned base bound A n) s := by
  induction l generalizing prevp a rounds with
  | nil =>
    obtain ⟨x, hx, hsize⟩ := hfit
    obtain rfl : x = s.freep := List.mem_singleton.mp hx
    obtain rfl : a = s.freep := hpath.1
    cases rounds with
    | zero => exact absurd hrounds (Nat.lt_irrefl 0)
    | succ rounds =>
      rw [mallocLoop, wp_bind, wp_look, if_pos hsize]
      exact h.wp_found hbound hn hprev ha hsize
  | cons x l ih =>
    obtain ⟨rfl, hrest⟩ := hpath
    cases rounds with
    | zero => exact absurd hrounds (Nat.not_lt_zero _)
    | succ rounds =>
      rw [mallocLoop, wp_bind, wp_look]
      by_cases hsize : s.size a ≥ n
      · rw [if_pos hsize]
        exact h.wp_found hbound hn hprev ha hsize
      have hne : a ≠ s.freep := fun heq => hnot (heq ▸ List.mem_cons_self)
      rw [if_neg hsize, wp_bind, wp_look, if_neg (by simpa using hne), wp_bind, wp_look]
      refine ih (hmem a List.mem_cons_self) rfl hrest
        (fun x hx => hmem x (List.mem_cons_of_mem a hx))
        (fun hx => hnot (List.mem_cons_of_mem a hx)) ?_ (Nat.lt_of_succ_lt_succ hrounds)
      obtain ⟨x, hx, hxsize⟩ := hfit
      rcases List.mem_cons.mp hx with rfl | hx
      · exact absurd hxsize hsize
      · exact ⟨x, hx, hxsize⟩

/-- The loop.  When it comes to `freep`, it gets a new block, and goes around once more. -/
theorem Sound.wp_mallocLoop (h : Sound base bound s R A) (hbase : 0 < base)
    (hbound : bound ≤ 2 ^ 32)
    (hsbrk : Fresh bound sbrk) (hn : 0 < n) (hlt : HEADER * n < 2 ^ 31) (hfuel : 2 ^ 32 ≤ fuel)
    (hprev : prevp ∈ R.map Extent.addr) (ha : s.ptr prevp = a)
    (hpath : Cycle.Path s.ptr a (l ++ [s.freep]) b)
    (hmem : ∀ x ∈ l, x ∈ R.map Extent.addr) (hnot : s.freep ∉ l)
    (hrounds : l.length + 2 ^ 32 ≤ rounds) :
    wp (fun _ => False) (mallocLoop fuel sbrk n rounds prevp a) (fun r s' =>
      r = 0 ∧ s' = s ∨ Returned base bound A n r s') s := by
  induction l generalizing prevp a rounds with
  | nil =>
    obtain rfl : a = s.freep := hpath.1
    cases rounds with
    | zero => norm_num at hrounds
    | succ rounds =>
      rw [mallocLoop, wp_bind, wp_look]
      by_cases hsize : s.size s.freep ≥ n
      · rw [if_pos hsize]
        exact wp_mono (h.wp_found hbound hn hprev ha hsize) fun r s' hr => .inr hr
      have hlen : R.length ≤ fuel := by
        have := h.length_le
        have := h.high
        omega
      rw [if_neg hsize, wp_bind, wp_look, if_pos (by simp), wp_bind]
      apply wp_mono (h.wp_morecore hbase hbound hsbrk hlt hlen)
      rintro r s' (⟨rfl, rfl⟩ | ⟨hne, rfl, R', hsound, f, hf, hfn⟩)
      · rw [if_pos rfl, wp_pure]
        exact .inl ⟨rfl, rfl⟩
      · rw [if_neg hne, wp_bind, wp_look]
        obtain ⟨l', hpath', hnot', hperm⟩ := hsound.around
        have hfit : ∃ x ∈ l' ++ [s'.freep], n ≤ s'.size x := by
          refine ⟨f.addr, hperm.mem_iff.mpr (List.mem_map_of_mem hf), ?_⟩
          rw [hsound.sizes f (List.mem_append_left A hf)]
          exact hfn
        have hlen' : l'.length < rounds := by
          have hl' := hperm.length_eq
          rw [List.length_append, List.length_map, List.length_singleton] at hl'
          have := hsound.length_le
          have := hsound.high
          rw [List.length_nil] at hrounds
          omega
        have hmem' : ∀ x ∈ l', x ∈ R'.map Extent.addr :=
          fun x hx => hperm.mem_iff.mp (List.mem_append_left _ hx)
        apply wp_mono (hsound.wp_mallocLoop_fits hbound hn hsound.freep rfl hpath' hmem'
          hnot' hfit hlen')
        exact fun r s'' hr => .inr hr
  | cons x l ih =>
    obtain ⟨rfl, hrest⟩ := hpath
    cases rounds with
    | zero => norm_num at hrounds
    | succ rounds =>
      rw [mallocLoop, wp_bind, wp_look]
      by_cases hsize : s.size a ≥ n
      · rw [if_pos hsize]
        exact wp_mono (h.wp_found hbound hn hprev ha hsize) fun r s' hr => .inr hr
      have hne : a ≠ s.freep := fun heq => hnot (heq ▸ List.mem_cons_self)
      rw [if_neg hsize, wp_bind, wp_look, if_neg (by simpa using hne), wp_bind, wp_look]
      rw [List.length_cons] at hrounds
      exact ih (hmem a List.mem_cons_self) rfl hrest
        (fun x hx => hmem x (List.mem_cons_of_mem a hx))
        (fun hx => hnot (List.mem_cons_of_mem a hx)) (by omega)

end Loop

end Malloc

end Xv6Mlfq.Umalloc
