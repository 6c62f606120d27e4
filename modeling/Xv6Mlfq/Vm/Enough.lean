import Xv6Mlfq.Vm.Grow

/-!
# Enough memory

With enough free pages `setupkvm`, `allocuvm` and `copyuvm` do not fail.  Enough is a page for each
page that is wanted, and one for each page table that the page directory does not have yet.

## Main definitions

* `Room n m` — there is memory for `n` pages and all page tables.

## Main results

* `wp_setupkvm_room`, `wp_allocuvm_room`, `wp_copyuvm_room` — there is no failure.
-/

namespace Xv6Mlfq.Mem

open Function (update)
open Wp (wp wp_mono wp_bind wp_pure wp_modify)
open Vm (PGSIZE NPDENTRIES KERNBASE NUSER Pgdir Perm Mmu VmM DataAddr Single)

variable {F : String → Prop} {r : Ram}

/-- There is memory for `n` pages and all page tables that are missing. -/
def Room (n : ℕ) (m : Mmu) : Prop := NPDENTRIES + n < m.free.length + m.pgdir.tables

theorem Room.of_add {n k : ℕ} {m : Mmu} (h : Room (n + k) m) : Room n m := by
  rw [Room] at h ⊢
  omega

/-- What is true without contents is true with contents. -/
theorem wp_of_erases {α : Type} {x : RamM α} {y : VmM α} {Q : α → Mmu → Prop} (h : Erases x y)
    (hy : wp F y Q r.toMmu) : wp F x (fun a r' => Q a r'.toMmu) r := by
  unfold wp at hy ⊢
  rw [h r] at hy
  cases hx : x r with
  | error e =>
    rw [hx] at hy
    exact hy
  | ok p =>
    rw [hx] at hy
    exact hy

/-- A page is taken. -/
theorem wp_kalloc_room {n : ℕ} {Q : Option ℕ → Ram → Prop} (hroom : Room (n + 1) r.toMmu)
    (hs : ∀ pg rest, Room n ⟨r.pgdir, rest⟩ → Q (some pg) ⟨⟨r.pgdir, rest⟩, r.mem⟩) :
    wp F (onMmu Vm.kalloc) Q r := by
  have htables := r.pgdir.tables_le
  rw [Room] at hroom
  apply wp_kalloc
  · intro hnil
    rw [hnil, List.length_nil] at hroom
    omega
  · intro pg rest hfree
    apply hs pg rest
    rw [hfree, List.length_cons] at hroom
    show NPDENTRIES + n < rest.length + r.pgdir.tables
    omega

/-- It is mapped, and there is still memory for the others, which are not mapped. -/
theorem wp_mapNew_room {n k top pg : ℕ} {perm : Perm} (hroom : Room n r.toMmu) (hk : k < top)
    (htop : top ≤ NUSER) (hnone : ∀ j, k ≤ j → j < top → r.pgdir.entry j = none) :
    wp F (onMmu (Vm.mappages (k * PGSIZE) PGSIZE pg perm))
    (fun ok r' => ok = true ∧ Room n r'.toMmu ∧
      ∀ j, k + 1 ≤ j → j < top → r'.pgdir.entry j = none) r := by
  have hbase : k * PGSIZE < KERNBASE := by lia
  have hpages := Vm.lt_npages (hk.trans_le htop)
  have hnew : r.pgdir.present (k * PGSIZE) = false :=
    (Vm.entry_eq_none hpages).mp (hnone k le_rfl hk)
  have henough : Vm.Enough r.toMmu := lt_of_le_of_lt (Nat.le_add_right _ n) hroom
  rw [Vm.mappages_page hbase]
  apply wp_onMmu.mpr
  apply wp_mono (Wp.wp_and (Vm.wp_mapPage_total (F := F) (by lia) hnew henough)
    (Vm.wp_mapOne (F := F) hpages (hnone k le_rfl hk)))
  rintro ok m' ⟨⟨hok, huses, _, _⟩, _, htrue⟩
  refine ⟨hok, ?_, ?_⟩
  · rw [Room, huses.count]
    exact hroom
  · intro j hj hlt
    rw [(htrue hok).2.2.1, Function.update_of_ne (by omega)]
    exact hnone j (by omega) hlt

/-- A new address space, with memory for `n` pages more -/
theorem wp_setupkvm_room {n : ℕ} {data : DataAddr} (hfree : NPDENTRIES + n + 1 < r.free.length) :
    wp F (setupkvm data) (fun ok r' => ok = true ∧ Room n r'.toMmu) r := by
  apply wp_mono (wp_of_erases (erases_setupkvm data) (Vm.wp_setupkvm_total (by omega)))
  rintro ok r' ⟨hok, _, hcount, _⟩
  refine ⟨hok, ?_⟩
  rw [Room]
  omega

/-- The loop of `allocuvm`, by induction on the rounds -/
theorem wp_allocLoop_room {oldsz newsz left n k : ℕ} (hsz : newsz ≤ KERNBASE)
    (hnone : ∀ j, k ≤ j → j < pages newsz → r.pgdir.entry j = none)
    (hroom : Room (left + (pages newsz - k)) r.toMmu) :
    wp F (allocLoop oldsz newsz n (k * PGSIZE)) (fun sz r' => sz = newsz ∧ Room left r'.toMmu)
      r := by
  induction n generalizing k r with
  | zero => exact wp_pure.mpr ⟨rfl, hroom.of_add⟩
  | succ n ih =>
    rw [allocLoop]
    split_ifs with hlt
    swap
    · exact wp_pure.mpr ⟨rfl, hroom.of_add⟩
    have hk : k < pages newsz := lt_pages.mpr hlt
    have hmore : left + (pages newsz - k) = left + (pages newsz - (k + 1)) + 1 := by omega
    have hnext : k * PGSIZE + PGSIZE = (k + 1) * PGSIZE := (Nat.succ_mul _ _).symm
    apply wp_bind.mpr
    apply wp_kalloc_room (hmore ▸ hroom)
    intro pg rest hrest
    rw [wp_bind, wp_memset, wp_bind]
    apply wp_mono (wp_mapNew_room (r := ⟨⟨r.pgdir, rest⟩, update r.mem pg _⟩) hrest hk
      (pages_le hsz) hnone)
    rintro ok r₁ ⟨rfl, hroom₁, hnone₁⟩
    rw [if_pos rfl, hnext]
    exact ih hnone₁ hroom₁

theorem wp_allocuvm_room {oldsz newsz left : ℕ} (hle : oldsz ≤ newsz) (hsz : newsz < KERNBASE)
    (hnone : ∀ j, pages oldsz ≤ j → j < pages newsz → r.pgdir.entry j = none)
    (hroom : Room (left + (pages newsz - pages oldsz)) r.toMmu) :
    wp F (allocuvm oldsz newsz) (fun sz r' => sz = newsz ∧ Room left r'.toMmu) r := by
  rw [allocuvm, if_neg (not_le.mpr hsz), if_neg (not_lt.mpr hle),
    pgroundup_pages (hle.trans hsz.le)]
  exact wp_allocLoop_room hsz.le hnone hroom

/-- The loop of `copyuvm`, by induction on the rounds -/
theorem wp_copyLoop_room {src : Pgdir} {sz n k : ℕ} (hsz : sz ≤ KERNBASE)
    (hsrc : ∀ j < pages sz, src.entry j ≠ none)
    (hnone : ∀ j, k ≤ j → j < pages sz → r.pgdir.entry j = none)
    (hroom : Room (pages sz - k) r.toMmu) :
    wp F (copyLoop src sz n (k * PGSIZE)) (fun ok _ => ok = true) r := by
  induction n generalizing k r with
  | zero => exact wp_pure.mpr rfl
  | succ n ih =>
    rw [copyLoop]
    split_ifs with hlt
    swap
    · exact wp_pure.mpr rfl
    have hk : k < pages sz := lt_pages.mpr hlt
    have hmore : pages sz - k = pages sz - (k + 1) + 1 := by omega
    have hnext : k * PGSIZE + PGSIZE = (k + 1) * PGSIZE := (Nat.succ_mul _ _).symm
    obtain ⟨⟨present, flags, pa⟩, he⟩ := Option.ne_none_iff_exists'.mp (hsrc k hk)
    obtain ⟨-, -, hpte, hpresent⟩ := Vm.entry_isSome_pde he
    obtain rfl : present = true := hpresent
    rw [hpte]
    apply wp_bind.mpr
    apply wp_kalloc_room (hmore ▸ hroom)
    intro pg rest hrest
    rw [wp_bind, copyPage, wp_modify, wp_bind]
    apply wp_mono (wp_mapNew_room (r := ⟨⟨r.pgdir, rest⟩, update r.mem pg _⟩) hrest hk
      (pages_le hsz) hnone)
    rintro ok r₁ ⟨rfl, hroom₁, hnone₁⟩
    rw [if_pos rfl, hnext]
    exact ih hnone₁ hroom₁

theorem wp_copyuvm_room {data : DataAddr} {src : Pgdir} {sz : ℕ} (hsz : sz ≤ KERNBASE)
    (hsrc : ∀ j < pages sz, src.entry j ≠ none)
    (hfree : NPDENTRIES + pages sz + 1 < r.free.length) :
    wp F (copyuvm data src sz) (fun ok _ => ok = true) r := by
  rw [copyuvm, wp_bind]
  apply wp_mono (Wp.wp_and (wp_setupkvm_room (F := F) hfree) (wp_setupkvm (F := F)))
  rintro ok r₁ ⟨⟨rfl, hroom⟩, -, hnew⟩
  have hstart : 0 * PGSIZE = 0 := Nat.zero_mul _
  rw [if_pos rfl, ← hstart]
  apply wp_copyLoop_room hsz hsrc _ hroom
  intro j _ hj
  exact (hnew rfl).1.user j (hj.trans_le (pages_le hsz))

/-! ## A process with room -/

/-- The process of one page, with 4096 free pages -/
def roomy : Ram := ⟨⟨onePage.pgdir, Vm.smallFree⟩, onePage.mem⟩

theorem smallFree_nodup : Vm.smallFree.Nodup := by
  apply List.Nodup.map _ List.nodup_range'
  intro a b hab
  exact Nat.eq_of_mul_eq_mul_right (by norm_num) hab

theorem smallFree_ge {pg : ℕ} (h : pg ∈ Vm.smallFree) : 1024 * PGSIZE ≤ pg := by
  obtain ⟨k, hk, rfl⟩ := List.mem_map.mp h
  exact Nat.mul_le_mul_right _ (List.left_le_of_mem_range' hk)

theorem roomy_single : Single roomy.toMmu := by
  have htotal : ∀ x, roomy.total x = Vm.smallFree.count x + ((if 1 * PGSIZE = x then 1 else 0) +
      (if 2 * PGSIZE = x then 1 else 0) + (if 3 * PGSIZE = x then 1 else 0)) := by
    intro x
    rw [Mmu.total, roomy, onePage_refs]
  refine ⟨?_, ?_⟩
  · intro x
    rw [htotal]
    by_cases hx : x ∈ Vm.smallFree
    · have hge := smallFree_ge hx
      rw [List.count_eq_one_of_mem smallFree_nodup hx]
      lia
    · rw [List.count_eq_zero_of_not_mem hx]
      norm_num
      split_ifs <;> omega
  · have hzero : 0 ∉ Vm.smallFree := fun h => absurd (smallFree_ge h) (by norm_num)
    rw [htotal, List.count_eq_zero_of_not_mem hzero]
    norm_num

end Xv6Mlfq.Mem
