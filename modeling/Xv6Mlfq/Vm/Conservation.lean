import Xv6Mlfq.Lib.Ledger
import Xv6Mlfq.Vm.AddressSpace
import Xv6Mlfq.Vm.Ram

/-!
# Where the pages are

Every page is on the free list or belongs to a page directory: it is the directory, one of
its page tables, or mapped below `KERNBASE`.  `Mmu.total m x` counts how often the page `x`
occurs in these places for the page directory at work; the functions of `vm.c` do not change
it.  This is what their specifications rest on: if no page occurs twice, then a page that is
freed, cleared or filled is no other page of the address space.

## Main definitions

* `Pgdir.entry pd k` — the entry of page number `k`, if it is present.
* `Pgdir.refs`, `Mmu.total` — the ledger.
* `Single m` — no page is in two places, and page 0 is in none.
-/

namespace Xv6Mlfq.Vm

open Function (update update_self update_of_ne)
open Wp (wp wp_mono wp_bind wp_pure wp_look wp_modify)
open Ledger (holding)

/-- The number of pages of the address space -/
abbrev NPAGES : ℕ := 2 ^ 20

/-- The number of pages below `KERNBASE` -/
abbrev NUSER : ℕ := 2 ^ 19

/-! ## Entries -/

/-- The entry of page number `k`, if it is present -/
def Pgdir.entry (pd : Pgdir) (k : ℕ) : Option Pte :=
  if k < NPAGES then (pd.pte (k * PGSIZE)).filter Pte.present else none

/-- The pages of the page tables -/
def Pgdir.tabs (pd : Pgdir) (i : ℕ) : Option ℕ := (pd.pde i).map Prod.fst

def Pgdir.addTable (pd : Pgdir) (i pg : ℕ) : Pgdir :=
  { pd with pde := update pd.pde i (some (pg, fun _ => Pte.zero)) }

variable {k : ℕ} {pd : Pgdir} {e : Pte}

theorem lt_npages (hk : k < NUSER) : k < NPAGES := hk.trans (by norm_num)

theorem page_lt (hk : k < NPAGES) : k * PGSIZE < 2 ^ 32 := by
  lia

theorem pdx_page (hk : k < NPAGES) : pdx (k * PGSIZE) = k / 1024 := by
  unfold pdx
  norm_num at *
  omega

theorem same_page_iff {j : ℕ} (hj : j < NPAGES) (hk : k < NPAGES) :
    pdx (j * PGSIZE) = pdx (k * PGSIZE) ∧ ptx (j * PGSIZE) = ptx (k * PGSIZE) ↔ j = k := by
  rw [same_page (page_lt hj) (page_lt hk), Nat.mul_div_cancel _ (by norm_num),
    Nat.mul_div_cancel _ (by norm_num)]

theorem entry_isSome_pde (h : pd.entry k = some e) :
    k < NPAGES ∧ (pd.pde (pdx (k * PGSIZE))).isSome ∧ pd.pte (k * PGSIZE) = some e ∧
      e.present = true := by
  rw [Pgdir.entry] at h
  split_ifs at h with hk
  obtain ⟨hpte, hpresent⟩ := Option.filter_eq_some_iff.mp h
  refine ⟨hk, ?_, hpte, hpresent⟩
  rw [Pgdir.pte] at hpte
  cases hpde : pd.pde (pdx (k * PGSIZE)) with
  | none =>
    rw [hpde] at hpte
    cases hpte
  | some t => rfl

theorem entry_of_pte (hk : k < NPAGES)
    (h : pd.pte (k * PGSIZE) = some e) (he : e.present = true) : pd.entry k = some e := by
  rw [Pgdir.entry, if_pos hk, h]
  simp [he]

theorem entry_eq_none (hk : k < NPAGES) : pd.entry k = none ↔ pd.present (k * PGSIZE) = false := by
  rw [Pgdir.entry, if_pos hk, Pgdir.present]
  cases pd.pte (k * PGSIZE) with
  | none => simp
  | some e =>
    rw [Option.filter_eq_none_iff]
    simp

/-- An entry is written. -/
theorem entry_setPte (hk : k < NPAGES) (hpde : (pd.pde (pdx (k * PGSIZE))).isSome) (x : Pte) :
    (pd.setPte (k * PGSIZE) x).entry =
      update pd.entry k (if x.present then some x else none) := by
  obtain ⟨t, ht⟩ := Option.isSome_iff_exists.mp hpde
  funext j
  by_cases hj : j < NPAGES
  · rw [Pgdir.entry, if_pos hj]
    by_cases hjk : j = k
    · subst hjk
      rw [update_self]
      have hpte : (pd.setPte (j * PGSIZE) x).pte (j * PGSIZE) = some x := by
        simp [Pgdir.pte, Pgdir.setPte, ht]
      rw [hpte]
      cases hx : x.present <;> simp [hx]
    · rw [update_of_ne hjk, Pgdir.entry, if_pos hj]
      have hne : ¬ (pdx (j * PGSIZE) = pdx (k * PGSIZE) ∧ ptx (j * PGSIZE) = ptx (k * PGSIZE)) :=
        fun h => hjk ((same_page_iff hj hk).mp h)
      have hpte : (pd.setPte (k * PGSIZE) x).pte (j * PGSIZE) = pd.pte (j * PGSIZE) := by
        by_cases hd : pdx (j * PGSIZE) = pdx (k * PGSIZE)
        · have hx : ptx (j * PGSIZE) ≠ ptx (k * PGSIZE) := fun h => hne ⟨hd, h⟩
          simp [Pgdir.pte, Pgdir.setPte, hd, ht, hx]
        · simp [Pgdir.pte, Pgdir.setPte, hd]
      rw [hpte]
  · have hjk : j ≠ k := fun h => hj (h ▸ hk)
    rw [update_of_ne hjk, Pgdir.entry, if_neg hj, Pgdir.entry, if_neg hj]

theorem tabs_setPte (pd : Pgdir) (a : ℕ) (x : Pte) : (pd.setPte a x).tabs = pd.tabs := by
  funext i
  by_cases hi : i = pdx a
  · subst hi
    simp [Pgdir.tabs, Pgdir.setPte, Option.map_map, Function.comp_def]
  · simp [Pgdir.tabs, Pgdir.setPte, hi]

theorem entry_addTable {i : ℕ} (hi : pd.pde i = none) (pg : ℕ) :
    (pd.addTable i pg).entry = pd.entry := by
  funext k
  rw [Pgdir.entry, Pgdir.entry]
  by_cases hk : k < NPAGES
  · rw [if_pos hk, if_pos hk]
    by_cases hki : pdx (k * PGSIZE) = i
    · subst hki
      simp [Pgdir.pte, Pgdir.addTable, hi, Pte.zero]
    · simp [Pgdir.pte, Pgdir.addTable, hki]
  · rw [if_neg hk, if_neg hk]

theorem tabs_addTable (pd : Pgdir) (i pg : ℕ) :
    (pd.addTable i pg).tabs = update pd.tabs i (some pg) := by
  funext j
  by_cases hj : j = i
  · subst hj
    simp [Pgdir.tabs, Pgdir.addTable]
  · simp [Pgdir.tabs, Pgdir.addTable, hj]

/-! ## The ledger -/

/-- How often the page directory and its page tables are the page `x` -/
def Pgdir.own (pd : Pgdir) (x : ℕ) : ℕ :=
  (if pd.page = x then 1 else 0) + holding (Finset.range NPDENTRIES) pd.tabs x

/-- How often the page `x` is mapped below `KERNBASE` -/
def Pgdir.mapped (pd : Pgdir) (x : ℕ) : ℕ :=
  holding (Finset.range NUSER) (fun k => (pd.entry k).map Pte.addr) x

/-- How often the page `x` belongs to the page directory -/
def Pgdir.refs (pd : Pgdir) (x : ℕ) : ℕ := pd.own x + pd.mapped x

/-- How often the page `x` is free or belongs to the page directory at work -/
def Mmu.total (m : Mmu) (x : ℕ) : ℕ := m.free.count x + m.pgdir.refs x

/-- No page is in two places, and page 0 is in none. -/
structure Single (m : Mmu) : Prop where
  le_one : ∀ x, m.total x ≤ 1
  zero : m.total 0 = 0

theorem Single.of_total {m m' : Mmu} (h : Single m) (ht : ∀ x, m'.total x = m.total x) :
    Single m' := by
  refine ⟨?_, ?_⟩
  · intro x
    rw [ht]
    exact h.le_one x
  · rw [ht]
    exact h.zero

theorem mapped_pos (hk : k < NUSER) (h : pd.entry k = some e) : 0 < pd.mapped e.addr :=
  Ledger.holding_pos (Finset.mem_range.mpr hk) (by rw [h]; rfl)

theorem Single.addr_ne_zero {m : Mmu} (h : Single m) (hk : k < NUSER)
    (he : m.pgdir.entry k = some e) : e.addr ≠ 0 := by
  intro h0
  have hpos := mapped_pos hk he
  have hz := h.zero
  rw [h0] at hpos
  simp only [Mmu.total, Pgdir.refs] at hz
  omega

/-- A mapped page is not free. -/
theorem Single.not_free {m : Mmu} (h : Single m) (hk : k < NUSER)
    (he : m.pgdir.entry k = some e) : e.addr ∉ m.free := by
  intro hmem
  have hpos := mapped_pos hk he
  have hone := h.le_one e.addr
  have hcount := List.count_pos_iff.mpr hmem
  simp only [Mmu.total, Pgdir.refs] at hone
  omega

/-- A page is mapped once. -/
theorem Single.inj {m : Mmu} (h : Single m) {j : ℕ} {e' : Pte} (hj : j < NUSER)
    (hk : k < NUSER) (he : m.pgdir.entry j = some e) (he' : m.pgdir.entry k = some e')
    (haddr : e.addr = e'.addr) : j = k := by
  have hone := h.le_one e.addr
  simp only [Mmu.total, Pgdir.refs, Pgdir.mapped] at hone
  apply Ledger.eq_of_holding_le_one (x := e.addr) (s := Finset.range NUSER)
    (f := fun k => (m.pgdir.entry k).map Pte.addr) (by omega)
    (Finset.mem_range.mpr hj) (Finset.mem_range.mpr hk)
  · simp [he]
  · simp [he', haddr]

theorem addr_update (f : ℕ → Option Pte) (k : ℕ) (o : Option Pte) :
    (fun j => (update f k o j).map Pte.addr) =
      update (fun j => (f j).map Pte.addr) k (o.map Pte.addr) := by
  funext j
  by_cases hj : j = k
  · rw [hj, update_self, update_self]
  · rw [update_of_ne hj, update_of_ne hj]

theorem refs_addTable {i : ℕ} (hi : i < NPDENTRIES) (hpde : pd.pde i = none)
    (pg x : ℕ) : (pd.addTable i pg).refs x = pd.refs x + if pg = x then 1 else 0 := by
  have htabs : pd.tabs i = none := by rw [Pgdir.tabs, hpde]; rfl
  have hput := Ledger.holding_put (Finset.mem_range.mpr hi) htabs pg x
  have hmapped : (pd.addTable i pg).mapped x = pd.mapped x := by
    rw [Pgdir.mapped, Pgdir.mapped, entry_addTable hpde]
  rw [Pgdir.refs, Pgdir.refs, hmapped, Pgdir.own, Pgdir.own, tabs_addTable, hput]
  have hpage : (pd.addTable i pg).page = pd.page := rfl
  rw [hpage]
  omega

/-- A page is mapped. -/
theorem refs_put (hk : k < NPAGES)
    (hpde : (pd.pde (pdx (k * PGSIZE))).isSome) (hnone : pd.entry k = none)
    (he : e.present = true) (x : ℕ) :
    (pd.setPte (k * PGSIZE) e).refs x = pd.refs x + if k < NUSER ∧ e.addr = x then 1 else 0 := by
  have hown : (pd.setPte (k * PGSIZE) e).own x = pd.own x := by
    rw [Pgdir.own, Pgdir.own, tabs_setPte]
    rfl
  have hmapped : (pd.setPte (k * PGSIZE) e).mapped x =
      pd.mapped x + if k < NUSER ∧ e.addr = x then 1 else 0 := by
    rw [Pgdir.mapped, entry_setPte hk hpde, if_pos he, addr_update]
    by_cases hu : k < NUSER
    · have hput := Ledger.holding_put (s := Finset.range NUSER)
        (f := fun k => (pd.entry k).map Pte.addr) (Finset.mem_range.mpr hu)
        (by rw [hnone]; rfl) e.addr x
      simpa [hu, Pgdir.mapped] using hput
    · have hout := Ledger.holding_update_of_notMem (s := Finset.range NUSER)
        (f := fun k => (pd.entry k).map Pte.addr) (i := k) (by simpa using hu)
        (some e.addr) x
      simpa [hu, Pgdir.mapped] using hout
  rw [Pgdir.refs, Pgdir.refs, hown, hmapped]
  omega

/-- A page is unmapped. -/
theorem refs_take (hk : k < NUSER) (he : pd.entry k = some e) (x : ℕ) :
    (pd.setPte (k * PGSIZE) Pte.zero).refs x + (if e.addr = x then 1 else 0) = pd.refs x := by
  obtain ⟨hk', hpde, -, -⟩ := entry_isSome_pde he
  have hown : (pd.setPte (k * PGSIZE) Pte.zero).own x = pd.own x := by
    rw [Pgdir.own, Pgdir.own, tabs_setPte]
    rfl
  have hzero : (if Pte.zero.present then some Pte.zero else none : Option Pte) = none := rfl
  have htake := Ledger.holding_take (s := Finset.range NUSER)
    (f := fun k => (pd.entry k).map Pte.addr) (y := e.addr) (Finset.mem_range.mpr hk)
    (by rw [he]; rfl) x
  have hmapped : (pd.setPte (k * PGSIZE) Pte.zero).mapped x + (if e.addr = x then 1 else 0) =
      pd.mapped x := by
    rw [Pgdir.mapped, entry_setPte hk' hpde, hzero, addr_update]
    exact htake
  rw [Pgdir.refs, Pgdir.refs, hown]
  omega

/-- The permissions of a page are changed. -/
theorem refs_perm (he : pd.entry k = some e) (e' : Pte)
    (hpresent : e'.present = true) (haddr : e'.addr = e.addr) (x : ℕ) :
    (pd.setPte (k * PGSIZE) e').refs x = pd.refs x := by
  obtain ⟨hk, hpde, -, -⟩ := entry_isSome_pde he
  have hown : (pd.setPte (k * PGSIZE) e').own x = pd.own x := by
    rw [Pgdir.own, Pgdir.own, tabs_setPte]
    rfl
  have hmapped : (pd.setPte (k * PGSIZE) e').mapped x = pd.mapped x := by
    rw [Pgdir.mapped, Pgdir.mapped, entry_setPte hk hpde, if_pos hpresent, addr_update]
    apply Ledger.holding_congr
    intro j _
    by_cases hj : j = k
    · rw [hj, update_self, he, Option.map_some, Option.map_some, haddr]
    · rw [update_of_ne hj]
  rw [Pgdir.refs, Pgdir.refs, hown, hmapped]

/-! ## Mapping -/

variable {F : String → Prop} {m : Mmu}

/-- Page tables may have been made; nothing else has changed. -/
structure Extends (m m' : Mmu) : Prop where
  page : m'.pgdir.page = m.pgdir.page
  free : m'.free <:+ m.free
  total : ∀ x, m'.total x = m.total x

theorem Extends.refl (m : Mmu) : Extends m m := ⟨rfl, List.suffix_rfl, fun _ => rfl⟩

theorem Extends.trans {m₁ m₂ m₃ : Mmu} (h : Extends m₁ m₂) (h' : Extends m₂ m₃) :
    Extends m₁ m₃ :=
  ⟨h'.page.trans h.page, h'.free.trans h.free, fun x => (h'.total x).trans (h.total x)⟩

/-- `walkpgdir`, which may make a page table -/
theorem wp_walk {va : ℕ} :
    wp F (walkpgdir va true) (fun ok m' => (ok = false → m' = m) ∧
      (ok = true → Extends m m' ∧ m'.pgdir.entry = m.pgdir.entry ∧
        (m'.pgdir.pde (pdx va)).isSome)) m := by
  apply wp_bind.mpr
  apply wp_look.mpr
  cases hpde : m.pgdir.pde (pdx va) with
  | some t =>
    apply wp_pure.mpr
    exact ⟨nofun, fun _ => ⟨.refl m, rfl, by rw [hpde]; rfl⟩⟩
  | none =>
    apply wp_bind.mpr
    apply wp_kalloc
    · intro _
      exact wp_pure.mpr ⟨fun _ => rfl, nofun⟩
    · intro pg rest hfree
      apply wp_bind.mpr
      apply wp_modify.mpr
      apply wp_pure.mpr
      refine ⟨nofun, fun _ => ⟨⟨rfl, ?_, ?_⟩, entry_addTable hpde pg, ?_⟩⟩
      · rw [hfree]
        exact List.suffix_cons pg rest
      · intro x
        have hrefs := refs_addTable (pdx_lt va) hpde pg x
        rw [Mmu.total, Mmu.total, hfree, List.count_cons]
        rw [Pgdir.addTable] at hrefs
        simp only [hrefs, beq_iff_eq]
        omega
      · simp

/-- `mappages` of one page that is not mapped -/
theorem wp_mapOne {perm : Perm} {pa : ℕ} (hk : k < NPAGES) (hnone : m.pgdir.entry k = none) :
    wp F (mapPage perm (k * PGSIZE) pa) (fun ok m' => (ok = false → m' = m) ∧
      (ok = true → m'.pgdir.page = m.pgdir.page ∧ m'.free <:+ m.free ∧
        m'.pgdir.entry = update m.pgdir.entry k (some ⟨true, perm, pa⟩) ∧
        ∀ x, m'.total x = m.total x + if k < NUSER ∧ pa = x then 1 else 0)) m := by
  apply wp_bind.mpr
  apply wp_mono wp_walk
  rintro there m₁ ⟨hfalse, htrue⟩
  split_ifs with ht
  · exact wp_pure.mpr ⟨fun _ => hfalse ht, nofun⟩
  obtain ⟨hext, hentry, hpde⟩ := htrue (by simpa using ht)
  rw [← hentry] at hnone
  apply wp_bind.mpr
  apply wp_look.mpr
  have hpresent : (m₁.pgdir.pte (k * PGSIZE)).any Pte.present = false :=
    (entry_eq_none hk).mp hnone
  rw [hpresent, if_neg Bool.false_ne_true]
  apply wp_bind.mpr
  apply wp_modify.mpr
  apply wp_pure.mpr
  refine ⟨nofun, fun _ => ⟨hext.page, hext.free, ?_, ?_⟩⟩
  · rw [entry_setPte hk hpde, if_pos rfl, hentry]
  · intro x
    have hput := refs_put hk hpde hnone (e := ⟨true, perm, pa⟩) rfl x
    dsimp only at hput
    have htotal := hext.total x
    simp only [Mmu.total] at htotal ⊢
    rw [hput]
    omega

/-! ## The kernel's part -/

/-- The pages `k` to `k + n` are mapped to those from `pa` on. -/
def mapRange (f : ℕ → Option Pte) (perm : Perm) (k n pa : ℕ) (j : ℕ) : Option Pte :=
  if k ≤ j ∧ j ≤ k + n then some ⟨true, perm, pa + (j - k) * PGSIZE⟩ else f j

theorem mapRange_succ (f : ℕ → Option Pte) (perm : Perm) (k n pa : ℕ) :
    mapRange (update f k (some ⟨true, perm, pa⟩)) perm (k + 1) n (pa + PGSIZE) =
      mapRange f perm k (n + 1) pa := by
  funext j
  rw [mapRange, mapRange]
  by_cases hj : j = k
  · subst hj
    rw [if_neg (by omega), if_pos (by omega), update_self, Nat.sub_self, Nat.zero_mul,
      Nat.add_zero]
  · by_cases hin : k + 1 ≤ j ∧ j ≤ k + 1 + n
    · rw [if_pos hin, if_pos (by omega)]
      have hoff : pa + PGSIZE + (j - (k + 1)) * PGSIZE = pa + (j - k) * PGSIZE := by
        have hsplit : j - k = (j - (k + 1)) + 1 := by omega
        rw [hsplit]
        ring
      rw [hoff]
    · rw [if_neg hin, if_neg (by omega), update_of_ne hj]

/-- One page above `KERNBASE`: the ledger does not see what it is mapped to. -/
theorem wp_mapOneKernel {perm : Perm} {pa : ℕ} (hk : NUSER ≤ k) (hlt : k < NPAGES)
    (hnone : m.pgdir.entry k = none) :
    wp F (mapPage perm (k * PGSIZE) pa) (fun ok m' => Extends m m' ∧
      (∀ j < k, m'.pgdir.entry j = m.pgdir.entry j) ∧
      (ok = true → m'.pgdir.entry = update m.pgdir.entry k (some ⟨true, perm, pa⟩))) m := by
  apply wp_mono (wp_mapOne hlt hnone)
  rintro ok m' ⟨hfalse, htrue⟩
  cases ok with
  | false =>
    rw [hfalse rfl]
    exact ⟨.refl m, fun _ _ => rfl, nofun⟩
  | true =>
    obtain ⟨hpage, hfree, hentry, htotal⟩ := htrue rfl
    refine ⟨⟨hpage, hfree, ?_⟩, ?_, fun _ => hentry⟩
    · intro x
      rw [htotal, if_neg (by omega), Nat.add_zero]
    · intro j hj
      rw [hentry, update_of_ne (by omega)]

/-- The loop of `mappages` above `KERNBASE`, by induction on its rounds. -/
theorem wp_mapLoop {perm : Perm} {n pa : ℕ} (hk : NUSER ≤ k) (hn : k + n < NPAGES)
    (hnone : ∀ j, k ≤ j → m.pgdir.entry j = none) :
    wp F (mapLoop perm n (k * PGSIZE) pa) (fun ok m' => Extends m m' ∧
      (∀ j < k, m'.pgdir.entry j = m.pgdir.entry j) ∧
      (ok = true → m'.pgdir.entry = mapRange m.pgdir.entry perm k n pa)) m := by
  induction n generalizing k pa m with
  | zero =>
    rw [mapLoop]
    apply wp_mono (wp_mapOneKernel hk (by omega) (hnone k le_rfl))
    rintro ok m' ⟨hext, hlow, hentry⟩
    refine ⟨hext, hlow, fun hok => ?_⟩
    rw [hentry hok]
    funext j
    rw [mapRange]
    by_cases hj : j = k
    · subst hj
      rw [if_pos (by omega), update_self, Nat.sub_self, Nat.zero_mul, Nat.add_zero]
    · rw [if_neg (by omega), update_of_ne hj]
  | succ n ih =>
    rw [mapLoop]
    apply wp_bind.mpr
    apply wp_mono (wp_mapOneKernel hk (by omega) (hnone k le_rfl))
    rintro ok m₁ ⟨hext, hlow, hentry⟩
    split_ifs with hok
    · have hnext : k * PGSIZE + PGSIZE = (k + 1) * PGSIZE := by ring
      rw [hnext]
      apply wp_mono
      · apply ih (k := k + 1) (by omega) (by omega)
        intro j hj
        rw [hentry hok, update_of_ne (by omega)]
        exact hnone j (by omega)
      · rintro ok' m' ⟨hext', hlow', hall⟩
        refine ⟨hext.trans hext', ?_, ?_⟩
        · intro j hj
          rw [hlow' j (by omega), hlow j hj]
        · intro hok'
          rw [hall hok', hentry hok, mapRange_succ]
    · apply wp_pure.mpr
      refine ⟨hext, hlow, ?_⟩
      intro h
      cases h

end Xv6Mlfq.Vm
