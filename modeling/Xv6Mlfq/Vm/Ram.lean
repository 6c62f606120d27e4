import Xv6Mlfq.Vm.PageTable

/-!
# Page tables and the contents of pages

The functions of `vm.c` on a memory in which pages have contents: `kfree` fills a page with
junk, `allocuvm` clears it, `copyuvm` copies it.  A page is named by its physical address.
What a page directory and the page tables hold is in the `Pgdir`, so `mem` matters for the
other pages only.

Each function here is the one of `Xv6Mlfq.Vm.PageTable` with the contents added:
`Erases x y` says that `y` is what is left of `x` when the contents are forgotten.

## Main definitions

* `Ram`, `RamM` — the memory, and programs on it.
* `allocuvm`, `deallocuvm`, `freevm`, `setupkvm`, `copyuvm`, `growproc`.
* `Erases` — the relation to the functions without contents.
-/

namespace Xv6Mlfq.Mem

open Function (update)
open Wp (look)
open Vm (PGSIZE NPDENTRIES KERNBASE Pgdir Pte Mmu VmM Kmap DataAddr pgroundup pdx)

/-- The page directory at work, `kmem.freelist`, and the contents of the pages. -/
structure Ram extends Mmu where
  mem : ℕ → ℕ → UInt8

abbrev RamM (α : Type) := Wp.Prog Ram String α

/-- A program that does not touch the contents. -/
def onMmu {α : Type} (x : VmM α) : RamM α := fun r =>
  match x r.toMmu with
  | .ok (a, m) => .ok (a, { r with toMmu := m })
  | .error e => .error e

/-- `memset` of a page -/
def memset (pg : ℕ) (v : UInt8) : RamM Unit :=
  modify fun r => { r with mem := update r.mem pg fun _ => v }

/-- `memmove` of a page -/
def copyPage (dst src : ℕ) : RamM Unit :=
  modify fun r => { r with mem := update r.mem dst (r.mem src) }

/-! ## User memory -/

/-- Fill with junk to catch dangling refs. -/
def kfree (pg : ℕ) : RamM Unit := do
  memset pg 1
  onMmu (Vm.kfree pg)

/-- One page of `deallocuvm`. -/
def freePte (a : ℕ) (pte : Option Pte) : RamM Unit :=
  match pte with
  | some ⟨true, _, pa⟩ =>
    if pa = 0 then throw "kfree"
    else do
      kfree pa
      onMmu (Vm.setPte a Pte.zero)
  | _ => pure ()

/-- The `for` loop of `deallocuvm`; an absent page table is skipped whole. -/
def deallocLoop (oldsz : ℕ) : ℕ → ℕ → RamM Unit
  | 0, _ => pure ()
  | n + 1, a =>
    if a < oldsz then do
      let there ← onMmu (Vm.walkpgdir a false)
      if there = false then deallocLoop oldsz n ((pdx a + 1) * 2 ^ 22)
      else
        let pte ← look fun r => r.pgdir.pte a
        freePte a pte
        deallocLoop oldsz n (a + PGSIZE)
    else pure ()

/-- Returns the new size of the process. -/
def deallocuvm (oldsz newsz : ℕ) : RamM ℕ :=
  if newsz ≥ oldsz then pure oldsz
  else do
    deallocLoop oldsz (oldsz / PGSIZE + 1) (pgroundup newsz)
    pure newsz

/-- The `for` loop of `allocuvm`; out of memory, it gives back what it has. -/
def allocLoop (oldsz newsz : ℕ) : ℕ → ℕ → RamM ℕ
  | 0, _ => pure newsz
  | n + 1, a =>
    if a < newsz then do
      match ← onMmu Vm.kalloc with
      | none => do
          let _ ← deallocuvm newsz oldsz
          pure 0
      | some mem => do
          memset mem 0
          let ok ← onMmu (Vm.mappages a PGSIZE mem ⟨true, true⟩)
          if ok then allocLoop oldsz newsz n (a + PGSIZE)
          else
            let _ ← deallocuvm newsz oldsz
            kfree mem
            pure 0
    else pure newsz

/-- Returns the new size, or 0 on error. -/
def allocuvm (oldsz newsz : ℕ) : RamM ℕ :=
  if newsz ≥ KERNBASE then pure 0
  else if newsz < oldsz then pure oldsz
  else allocLoop oldsz newsz (newsz / PGSIZE + 1) (pgroundup oldsz)

def freeTable : Option (ℕ × (ℕ → Pte)) → RamM Unit
  | some t => kfree t.1
  | none => pure ()

def freeTables : List ℕ → RamM Unit
  | [] => pure ()
  | i :: is => do
      let pde ← look fun r => r.pgdir.pde i
      freeTable pde
      freeTables is

/-- Frees the user pages, the page tables and the page directory. -/
def freevm : RamM Unit := do
  let _ ← deallocuvm KERNBASE 0
  freeTables (List.range NPDENTRIES)
  let page ← look fun r => r.pgdir.page
  kfree page

/-! ## New address spaces -/

def setupLoop : List Kmap → RamM Bool
  | [] => pure true
  | k :: ks => do
      let ok ← onMmu (Vm.mappages k.virt ((2 ^ 32 + k.physEnd - k.physStart) % 2 ^ 32) k.physStart
        k.perm)
      if ok then setupLoop ks
      else
        freevm
        pure false

/-- A new page directory with the kernel part, or `false`. -/
def setupkvm (data : DataAddr) : RamM Bool := do
  match ← onMmu Vm.kalloc with
  | none => pure false
  | some pg => do
      modify fun r => { r with pgdir := ⟨pg, fun _ => none⟩ }
      setupLoop (Vm.kmap data)

/-- The `for` loop of `copyuvm`. -/
def copyLoop (src : Pgdir) (sz : ℕ) : ℕ → ℕ → RamM Bool
  | 0, _ => pure true
  | n + 1, i =>
    if i < sz then
      match src.pte i with
      | none => throw "copyuvm: pte should exist"
      | some ⟨false, _, _⟩ => throw "copyuvm: page not present"
      | some ⟨true, flags, pa⟩ => do
          match ← onMmu Vm.kalloc with
          | none => do
              freevm
              pure false
          | some mem => do
              copyPage mem pa
              let ok ← onMmu (Vm.mappages i PGSIZE mem flags)
              if ok then copyLoop src sz n (i + PGSIZE)
              else
                kfree mem
                freevm
                pure false
    else pure true

/-- The address space of a child, a copy of `src`. -/
def copyuvm (data : DataAddr) (src : Pgdir) (sz : ℕ) : RamM Bool := do
  let ok ← setupkvm data
  if ok then copyLoop src sz (sz / PGSIZE + 1) 0 else pure false

/-- `growproc`: the new size, or `none` if it returns -1 -/
def growproc (sz : ℕ) (n : BitVec 32) : RamM (Option ℕ) :=
  if 0 < n.toInt then do
    let sz' ← allocuvm sz ((sz + n.toNat) % 2 ^ 32)
    if sz' = 0 then pure none else pure (some sz')
  else if n.toInt < 0 then do
    let sz' ← deallocuvm sz ((sz + n.toNat) % 2 ^ 32)
    if sz' = 0 then pure none else pure (some sz')
  else pure (some sz)

/-! ## Forgetting the contents -/

/-- `y` is `x` without the contents of the pages. -/
def Erases {α : Type} (x : RamM α) (y : VmM α) : Prop :=
  ∀ r, y r.toMmu = (x r).map fun p => (p.1, p.2.toMmu)

section Erases

variable {α β : Type}

theorem erases_pure (a : α) : Erases (pure a) (pure a) := fun _ => rfl

theorem erases_throw (e : String) : Erases (throw e : RamM α) (throw e) := fun _ => rfl

/-- What does not touch the contents erases to itself. -/
theorem erases_onMmu (x : VmM α) : Erases (onMmu x) x := by
  intro r
  rw [onMmu]
  cases x r.toMmu <;> rfl

theorem erases_look (f : Mmu → α) : Erases (look fun r => f r.toMmu) (look f) := fun _ => rfl

/-- Contents can be forgotten step by step. -/
theorem erases_bind {x : RamM α} {y : VmM α} {f : α → RamM β} {g : α → VmM β}
    (hx : Erases x y) (hf : ∀ a, Erases (f a) (g a)) : Erases (x >>= f) (y >>= g) := by
  intro r
  have hl : (y >>= g) r.toMmu = (y r.toMmu).bind fun p => g p.1 p.2 := rfl
  have hr : (x >>= f) r = (x r).bind fun p => f p.1 p.2 := rfl
  rw [hl, hr, hx r]
  cases x r with
  | error e => rfl
  | ok p => exact hf p.1 p.2

/-- A change of the contents disappears. -/
theorem erases_mem {x : RamM Unit} {y : RamM β} {z : VmM β}
    (hx : ∀ r, ∃ mem, x r = .ok ((), { r with mem := mem })) (hy : Erases y z) :
    Erases (x >>= fun _ => y) z := by
  intro r
  obtain ⟨mem, he⟩ := hx r
  have hr : (x >>= fun _ => y) r = y { r with mem := mem } := by
    change (x r).bind (fun p => y p.2) = _
    rw [he]
    rfl
  rw [hr]
  exact hy { r with mem := mem }

theorem erases_ite {c : Prop} [Decidable c] {x x' : RamM α} {y y' : VmM α} (h : Erases x y)
    (h' : Erases x' y') : Erases (if c then x else x') (if c then y else y') := by
  split_ifs
  · exact h
  · exact h'

theorem erases_kfree (pg : ℕ) : Erases (kfree pg) (Vm.kfree pg) :=
  erases_mem (fun _ => ⟨_, rfl⟩) (erases_onMmu _)

theorem erases_freePte (a : ℕ) (pte : Option Pte) :
    Erases (freePte a pte) (Vm.freePte a pte) := by
  match pte with
  | none => exact erases_pure _
  | some ⟨false, _, _⟩ => exact erases_pure _
  | some ⟨true, _, pa⟩ =>
    apply erases_ite (erases_throw _)
    apply erases_bind (erases_kfree pa)
    intro _
    exact erases_onMmu _

theorem erases_deallocLoop (oldsz n a : ℕ) :
    Erases (deallocLoop oldsz n a) (Vm.deallocLoop oldsz n a) := by
  induction n generalizing a with
  | zero => exact erases_pure _
  | succ n ih =>
    apply erases_ite _ (erases_pure _)
    apply erases_bind (erases_onMmu _)
    intro there
    apply erases_ite (ih _)
    apply erases_bind (erases_look fun m => m.pgdir.pte a)
    intro pte
    apply erases_bind (erases_freePte a pte)
    intro _
    exact ih _

theorem erases_deallocuvm (oldsz newsz : ℕ) :
    Erases (deallocuvm oldsz newsz) (Vm.deallocuvm oldsz newsz) := by
  apply erases_ite (erases_pure _)
  apply erases_bind (erases_deallocLoop _ _ _)
  intro _
  exact erases_pure _

theorem erases_allocLoop (oldsz newsz n a : ℕ) :
    Erases (allocLoop oldsz newsz n a) (Vm.allocLoop oldsz newsz n a) := by
  induction n generalizing a with
  | zero => exact erases_pure _
  | succ n ih =>
    apply erases_ite _ (erases_pure _)
    apply erases_bind (erases_onMmu _)
    intro mem
    cases mem with
    | none =>
      apply erases_bind (erases_deallocuvm _ _)
      intro _
      exact erases_pure _
    | some mem =>
      apply erases_mem (fun _ => ⟨_, rfl⟩)
      apply erases_bind (erases_onMmu _)
      intro ok
      apply erases_ite (ih _)
      apply erases_bind (erases_deallocuvm _ _)
      intro _
      apply erases_bind (erases_kfree _)
      intro _
      exact erases_pure _

theorem erases_allocuvm (oldsz newsz : ℕ) :
    Erases (allocuvm oldsz newsz) (Vm.allocuvm oldsz newsz) := by
  apply erases_ite (erases_pure _)
  apply erases_ite (erases_pure _)
  exact erases_allocLoop _ _ _ _

theorem erases_freeTables (is : List ℕ) : Erases (freeTables is) (Vm.freeTables is) := by
  induction is with
  | nil => exact erases_pure _
  | cons i is ih =>
    apply erases_bind (erases_look fun m => m.pgdir.pde i)
    intro pde
    have htable : Erases (freeTable pde) (Vm.freeTables.freeTable pde) := by
      cases pde with
      | none => exact erases_pure _
      | some t => exact erases_kfree _
    apply erases_bind htable
    intro _
    exact ih

theorem erases_freevm : Erases freevm Vm.freevm := by
  apply erases_bind (erases_deallocuvm _ _)
  intro _
  apply erases_bind (erases_freeTables _)
  intro _
  apply erases_bind (erases_look fun m => m.pgdir.page)
  intro page
  exact erases_kfree _

theorem erases_setupLoop (ks : List Kmap) : Erases (setupLoop ks) (Vm.setupLoop ks) := by
  induction ks with
  | nil => exact erases_pure _
  | cons k ks ih =>
    apply erases_bind (erases_onMmu _)
    intro ok
    apply erases_ite ih
    apply erases_bind erases_freevm
    intro _
    exact erases_pure _

theorem erases_setupkvm (data : DataAddr) : Erases (setupkvm data) (Vm.setupkvm data) := by
  apply erases_bind (erases_onMmu _)
  intro pg
  cases pg with
  | none => exact erases_pure _
  | some pg =>
    apply erases_bind (fun _ => rfl)
    intro _
    exact erases_setupLoop _

theorem erases_copyLoop (src : Pgdir) (sz n i : ℕ) :
    Erases (copyLoop src sz n i) (Vm.copyLoop src sz n i) := by
  induction n generalizing i with
  | zero => exact erases_pure _
  | succ n ih =>
    apply erases_ite _ (erases_pure _)
    match src.pte i with
    | none => exact erases_throw _
    | some ⟨false, _, _⟩ => exact erases_throw _
    | some ⟨true, flags, pa⟩ =>
      apply erases_bind (erases_onMmu _)
      intro mem
      cases mem with
      | none =>
        apply erases_bind erases_freevm
        intro _
        exact erases_pure _
      | some mem =>
        apply erases_mem (fun _ => ⟨_, rfl⟩)
        apply erases_bind (erases_onMmu _)
        intro ok
        apply erases_ite (ih _)
        apply erases_bind (erases_kfree _)
        intro _
        apply erases_bind erases_freevm
        intro _
        exact erases_pure _

theorem erases_copyuvm (data : DataAddr) (src : Pgdir) (sz : ℕ) :
    Erases (copyuvm data src sz) (Vm.copyuvm data src sz) := by
  apply erases_bind (erases_setupkvm _)
  intro ok
  exact erases_ite (erases_copyLoop _ _ _ _) (erases_pure _)

theorem erases_growproc (sz : ℕ) (n : BitVec 32) :
    Erases (growproc sz n) (Vm.growproc sz n) := by
  apply erases_ite
  · apply erases_bind (erases_allocuvm _ _)
    intro sz'
    exact erases_ite (erases_pure _) (erases_pure _)
  · apply erases_ite _ (erases_pure _)
    apply erases_bind (erases_deallocuvm _ _)
    intro sz'
    exact erases_ite (erases_pure _) (erases_pure _)

end Erases

end Xv6Mlfq.Mem
