import Xv6Mlfq.Vm.Conservation

/-!
# Giving pages back

`deallocuvm` and `freevm` on a memory with contents.  What they take out of the page directory
goes onto the free list, page for page, and a page that is not on the free list at the end
has kept its contents.

## Main definitions

* `Within r r'` — a change of the free pages and of those of the address space only.
* `Freed S r r'` — the pages with a number in `S` have been unmapped and freed.
* `Released r r'` — all of the page directory at work has been freed.

## Main results

* `wp_deallocuvm`, `wp_freevm` — the specifications; there are no faults, as long as page 0
  is not mapped.
-/

namespace Xv6Mlfq.Mem

open Function (update update_self update_of_ne)
open Wp (wp wp_mono wp_bind wp_pure wp_look wp_modify)
open Vm (PGSIZE KERNBASE NPAGES NUSER Pgdir Pte Mmu VmM Single pdx)

variable {F : String → Prop} {r r' : Ram}

/-! ## Programs on the contents -/

theorem wp_onMmu {α : Type} {x : VmM α} {Q : α → Ram → Prop} :
    wp F (onMmu x) Q r ↔ wp F x (fun a m => Q a { r with toMmu := m }) r.toMmu := by
  unfold wp onMmu
  cases x r.toMmu <;> rfl

theorem wp_memset {pg : ℕ} {v : UInt8} {Q : Unit → Ram → Prop} :
    wp F (memset pg v) Q r ↔ Q () { r with mem := update r.mem pg fun _ => v } :=
  wp_modify

theorem wp_kfree {pg : ℕ} {Q : Unit → Ram → Prop} :
    wp F (kfree pg) Q r ↔
      Q () { pgdir := r.pgdir, free := pg :: r.free, mem := update r.mem pg fun _ => 1 } := by
  rw [kfree, wp_bind, wp_memset, wp_onMmu, Vm.kfree, wp_modify]

/-! ## Unmapping -/

/-- No page has come or gone, and those that are neither free nor in the address space have kept
their contents. -/
structure Within (r r' : Ram) : Prop where
  total : ∀ x, r'.total x = r.total x
  mem : ∀ x, r.total x = 0 → r'.mem x = r.mem x

theorem Within.refl (r : Ram) : Within r r := ⟨fun _ => rfl, fun _ _ => rfl⟩

theorem Within.trans {r₁ r₂ : Ram} (h : Within r r₁) (h' : Within r₁ r₂) : Within r r₂ := by
  refine ⟨fun x => (h'.total x).trans (h.total x), ?_⟩
  intro x hx
  rw [h'.mem x ((h.total x).trans hx), h.mem x hx]

/-- A page that is in no place is not free. -/
theorem not_mem_free {x : ℕ} (h : r.total x = 0) : x ∉ r.free :=
  List.count_eq_zero.mp (Nat.eq_zero_of_add_eq_zero_right h)

/-- The pages with a number in `S` have been unmapped and freed. -/
structure Freed (S : ℕ → Prop) (r r' : Ram) : Prop where
  page : r'.pgdir.page = r.pgdir.page
  gone : ∀ j, S j → r'.pgdir.entry j = none
  kept : ∀ j, ¬ S j → r'.pgdir.entry j = r.pgdir.entry j
  total : ∀ x, r'.total x = r.total x
  free : r.free <:+ r'.free
  mem : ∀ x, x ∉ r'.free → r'.mem x = r.mem x

variable {S T : ℕ → Prop}

theorem Freed.refl (h : ∀ j, S j → r.pgdir.entry j = none) : Freed S r r :=
  ⟨rfl, h, fun _ _ => rfl, fun _ => rfl, List.suffix_rfl, fun _ _ => rfl⟩

theorem Freed.trans {r₁ r₂ : Ram} (h : Freed S r r₁) (h' : Freed T r₁ r₂) :
    Freed (fun j => S j ∨ T j) r r₂ := by
  refine ⟨h'.page.trans h.page, ?_, ?_, fun x => (h'.total x).trans (h.total x),
    h.free.trans h'.free, ?_⟩
  · intro j hj
    by_cases hT : T j
    · exact h'.gone j hT
    · rw [h'.kept j hT]
      exact h.gone j (hj.resolve_right hT)
  · intro j hj
    rw [h'.kept j (fun hT => hj (.inr hT)), h.kept j (fun hS => hj (.inl hS))]
  · intro x hx
    rw [h'.mem x hx]
    exact h.mem x fun hx₁ => hx (h'.free.subset hx₁)

/-- Only the pages that were mapped matter. -/
theorem Freed.congr (h : Freed S r r') (hST : ∀ j, r.pgdir.entry j ≠ none → (S j ↔ T j)) :
    Freed T r r' := by
  refine { h with gone := ?_, kept := ?_ }
  · intro j hT
    by_cases hS : S j
    · exact h.gone j hS
    · rw [h.kept j hS]
      by_contra hsome
      exact hS ((hST j hsome).mpr hT)
  · intro j hT
    by_cases hS : S j
    · rw [h.gone j hS]
      by_contra hsome
      exact hT ((hST j (Ne.symm hsome)).mp hS)
    · exact h.kept j hS

/-- No page below `KERNBASE` is mapped to page 0. -/
def NonNull (pd : Pgdir) : Prop := ∀ j < NUSER, ∀ e, pd.entry j = some e → e.addr ≠ 0

theorem NonNull.of_single (h : Single r.toMmu) : NonNull r.pgdir :=
  fun _ hj _ he => h.addr_ne_zero hj he

theorem NonNull.freed (h : NonNull r.pgdir) (hf : Freed S r r') : NonNull r'.pgdir := by
  intro j hj e he
  by_cases hS : S j
  · rw [hf.gone j hS] at he
    cases he
  · rw [hf.kept j hS] at he
    exact h j hj e he

theorem wp_freePte {k : ℕ} (hk : k < NUSER) (h0 : NonNull r.pgdir) :
    wp F (freePte (k * PGSIZE) (r.pgdir.pte (k * PGSIZE))) (fun _ r' => Freed (· = k) r r') r := by
  have hk' : k < NPAGES := Vm.lt_npages hk
  have hnone : r.pgdir.present (k * PGSIZE) = false → Freed (· = k) r r := by
    intro hp
    apply Freed.refl
    rintro j rfl
    exact (Vm.entry_eq_none hk').mpr hp
  match hpte : r.pgdir.pte (k * PGSIZE) with
  | none => exact wp_pure.mpr (hnone (by simp [Pgdir.present, hpte]))
  | some ⟨false, _, _⟩ => exact wp_pure.mpr (hnone (by simp [Pgdir.present, hpte]))
  | some ⟨true, perm, pa⟩ =>
    have he := Vm.entry_of_pte hk' hpte rfl
    obtain ⟨-, hpde, -, -⟩ := Vm.entry_isSome_pde he
    have hentry := Vm.entry_setPte hk' hpde Pte.zero
    rw [freePte, if_neg (h0 k hk _ he), wp_bind, wp_kfree, wp_onMmu, Vm.setPte, wp_modify]
    refine ⟨rfl, ?_, ?_, ?_, List.suffix_cons _ _, ?_⟩
    · rintro j rfl
      rw [hentry, update_self]
      rfl
    · intro j hj
      rw [hentry, update_of_ne hj]
    · intro x
      have htake := Vm.refs_take hk he x
      simp only [Mmu.total, List.count_cons, beq_iff_eq]
      dsimp only at htake ⊢
      omega
    · intro x hx
      apply update_of_ne
      rintro rfl
      exact hx List.mem_cons_self

/-- The loop of `deallocuvm`, by induction on its rounds. -/
theorem wp_deallocLoop {oldsz n k : ℕ} (hn : oldsz ≤ k * PGSIZE + n * PGSIZE)
    (hold : oldsz ≤ KERNBASE) (h0 : NonNull r.pgdir) :
    wp F (deallocLoop oldsz n (k * PGSIZE))
      (fun _ r' => Freed (fun j => k ≤ j ∧ j * PGSIZE < oldsz) r r') r := by
  induction n generalizing k r with
  | zero =>
    apply wp_pure.mpr
    apply Freed.refl
    intro j hj
    have := Nat.mul_le_mul_right PGSIZE hj.1
    omega
  | succ n ih =>
    rw [deallocLoop]
    split_ifs with hlt
    swap
    · apply wp_pure.mpr
      apply Freed.refl
      intro j hj
      have := Nat.mul_le_mul_right PGSIZE hj.1
      omega
    have hk : k < NUSER := by lia
    apply wp_bind.mpr
    apply wp_onMmu.mpr
    apply wp_mono Vm.wp_walkpgdir
    rintro there m₁ ⟨-, hm₁, -, hnone⟩
    obtain rfl := hm₁ rfl
    split_ifs with ht
    · -- no page table: nothing is mapped up to the next one
      have hnext : (pdx (k * PGSIZE) + 1) * 2 ^ 22 = (k / 1024 + 1) * 1024 * PGSIZE := by
        rw [Vm.pdx_page (Vm.lt_npages hk)]
        ring
      rw [hnext]
      apply wp_mono (ih (Vm.next_table hn (by omega)).2 h0)
      intro _ r' hf
      apply hf.congr
      intro j hj
      obtain ⟨e, he⟩ := Option.ne_none_iff_exists'.mp hj
      obtain ⟨hj', hpde, -, -⟩ := Vm.entry_isSome_pde he
      have hd : pdx (j * PGSIZE) ≠ pdx (k * PGSIZE) := by
        intro hd
        rw [hd, hnone ht] at hpde
        cases hpde
      rw [Vm.pdx_page hj', Vm.pdx_page (Vm.lt_npages hk)] at hd
      omega
    · apply wp_bind.mpr
      apply wp_look.mpr
      apply wp_bind.mpr
      apply wp_mono (wp_freePte hk h0)
      intro _ r₁ hf₁
      have hnext : k * PGSIZE + PGSIZE = (k + 1) * PGSIZE := by ring
      rw [hnext]
      apply wp_mono (ih (Vm.next_page hn (by omega)).2 (h0.freed hf₁))
      intro _ r' hf
      apply (hf₁.trans hf).congr
      intro j _
      constructor
      · rintro (rfl | h) <;> omega
      · omega

theorem wp_deallocuvm {oldsz newsz : ℕ} (hold : oldsz ≤ KERNBASE) (h0 : NonNull r.pgdir) :
    wp F (deallocuvm oldsz newsz) (fun sz r' => sz = min oldsz newsz ∧
      Freed (fun j => newsz ≤ j * PGSIZE ∧ j * PGSIZE < oldsz) r r') r := by
  rw [deallocuvm]
  split_ifs with hle
  · apply wp_pure.mpr
    refine ⟨(min_eq_left hle).symm, Freed.refl ?_⟩
    intro j hj
    omega
  · rw [Vm.pgroundup_eq (by omega)]
    apply wp_bind.mpr
    apply wp_mono (wp_deallocLoop (by lia) hold h0)
    intro _ r' hf
    apply wp_pure.mpr
    refine ⟨(min_eq_right (by omega)).symm, hf.congr ?_⟩
    intro j _
    lia

/-! ## Freeing a page directory -/

/-- The pages of the tables in `is`, and then of the page directory, are freed. -/
theorem wp_freeTables {is : List ℕ} :
    wp F (freeTables is) (fun _ r' => r'.pgdir = r.pgdir ∧
      (∀ x, r'.free.count x = r.free.count x + is.countP fun i => r.pgdir.tabs i = some x) ∧
      r.free <:+ r'.free ∧ ∀ x, x ∉ r'.free → r'.mem x = r.mem x) r := by
  induction is generalizing r with
  | nil =>
    apply wp_pure.mpr
    exact ⟨rfl, fun _ => rfl, List.suffix_rfl, fun _ _ => rfl⟩
  | cons i is ih =>
    rw [freeTables, wp_bind, wp_look, wp_bind]
    cases hpde : r.pgdir.pde i with
    | none =>
      have htab : r.pgdir.tabs i = none := by rw [Pgdir.tabs, hpde]; rfl
      apply wp_pure.mpr
      apply wp_mono ih
      rintro _ r' ⟨hpgdir, hcount, hfree, hmem⟩
      refine ⟨hpgdir, ?_, hfree, hmem⟩
      intro x
      rw [hcount, List.countP_cons_of_neg (by simp [htab])]
    | some t =>
      have htab : r.pgdir.tabs i = some t.1 := by rw [Pgdir.tabs, hpde]; rfl
      rw [freeTable, wp_kfree]
      apply wp_mono ih
      rintro _ r' ⟨hpgdir, hcount, hfree, hmem⟩
      refine ⟨hpgdir, ?_, (List.suffix_cons _ _).trans hfree, ?_⟩
      · intro x
        rw [hcount]
        simp only [List.countP_cons, List.count_cons, htab, beq_iff_eq, Option.some.injEq,
          decide_eq_true_eq]
        omega
      · intro x hx
        rw [hmem x hx]
        apply update_of_ne
        rintro rfl
        exact hx (hfree.subset List.mem_cons_self)

/-- All of the page directory at work has been freed. -/
structure Released (r r' : Ram) : Prop where
  count : ∀ x, r'.free.count x = r.total x
  mem : ∀ x, x ∉ r'.free → r'.mem x = r.mem x

theorem wp_freevm (h0 : NonNull r.pgdir) : wp F freevm (fun _ r' => Released r r') r := by
  rw [freevm]
  apply wp_bind.mpr
  apply wp_mono (wp_deallocuvm le_rfl h0)
  rintro _ r₁ ⟨-, hf⟩
  apply wp_bind.mpr
  apply wp_mono wp_freeTables
  rintro _ r₂ ⟨hpgdir, hcount, hfree, hmem⟩
  rw [wp_bind, wp_look, wp_kfree]
  have hnone : ∀ x, r₁.pgdir.mapped x = 0 := by
    intro x
    apply Ledger.holding_eq_zero.mpr
    intro k hk
    rw [Finset.mem_range] at hk
    rw [hf.gone k ⟨Nat.zero_le _, by lia⟩]
    nofun
  refine ⟨?_, ?_⟩
  · intro x
    rw [← hf.total, Mmu.total, Pgdir.refs, hnone, Pgdir.own, Ledger.holding_range, List.count_cons,
      hcount, hpgdir]
    simp only [beq_iff_eq]
    omega
  · intro x hx
    have hx₂ : x ∉ r₂.free := fun h => hx (List.mem_cons_of_mem _ h)
    rw [← hf.mem x fun h => hx₂ (hfree.subset h), ← hmem x hx₂]
    apply update_of_ne
    rintro rfl
    exact hx List.mem_cons_self

end Xv6Mlfq.Mem
