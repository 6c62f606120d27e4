import Xv6Mlfq.Vm.Teardown

/-!
# Taking pages

`allocuvm`, `setupkvm` and `copyuvm` on a memory with contents.  Each page they map comes from
the free list and is filled first; if there are not enough pages, everything taken goes back.

## Main definitions

* `pages sz` — the number of pages below `sz`.
* `Grown fill k₀ k r r'` — the pages from `k₀` up to `k` are new ones.
* `Undone r r'` — nothing is mapped that was not before.
* `kernelEntry ks j` — the entry of page `j` in the kernel's half.
* `NewSpace r r'` — the page directory at work is a new one, with the kernel's pages only.

## Main results

* `wp_allocuvm`, `wp_setupkvm`, `wp_copyuvm` — the specifications.
-/

namespace Xv6Mlfq.Mem

open Function (update update_self update_of_ne)
open Wp (wp wp_mono wp_bind wp_pure wp_throw wp_modify)
open Vm (PGSIZE NPDENTRIES KERNBASE DEVSPACE NPAGES NUSER Pgdir Pte Perm Mmu Kmap
  DataAddr Single Extends pgroundup pgrounddown)

variable {F : String → Prop} {r r' : Ram}

/-! ## Numbers of pages -/

/-- The number of pages below `sz` -/
def pages (sz : ℕ) : ℕ := (sz + PGSIZE - 1) / PGSIZE

variable {j sz k k₀ : ℕ} {r₁ r₂ : Ram} {ks : List Kmap}

theorem lt_pages : j < pages sz ↔ j * PGSIZE < sz := by
  rw [pages]
  lia

theorem pages_mono {sz' : ℕ} (h : sz ≤ sz') : pages sz ≤ pages sz' := by
  by_contra hlt
  have := lt_pages.mp (not_le.mp hlt)
  exact absurd (lt_pages.mpr (this.trans_le h)) (lt_irrefl _)

theorem eq_pages (hk : k ≤ pages sz) (h : sz ≤ k * PGSIZE) : k = pages sz := by
  by_contra hne
  have := lt_pages.mp (lt_of_le_of_ne hk hne)
  omega

theorem range_pages {sz' : ℕ} :
    sz ≤ j * PGSIZE ∧ j * PGSIZE < sz' ↔ pages sz ≤ j ∧ j < pages sz' := by
  rw [lt_pages, ← not_lt, ← not_lt, lt_pages]

theorem pages_le (h : sz ≤ KERNBASE) : pages sz ≤ NUSER := by
  rw [pages]
  lia

theorem pgroundup_pages (h : sz ≤ KERNBASE) : pgroundup sz = pages sz * PGSIZE :=
  Vm.pgroundup_eq h

/-! ## New pages -/

/-- The pages `k₀` to `k - 1` are new ones, with the permissions and contents that `fill` says. -/
structure Grown (fill : ℕ → Perm × (ℕ → UInt8)) (k₀ k : ℕ) (r r' : Ram) : Prop where
  page : r'.pgdir.page = r.pgdir.page
  kept : ∀ j, ¬ (k₀ ≤ j ∧ j < k) → r'.pgdir.entry j = r.pgdir.entry j
  fresh : ∀ j, k₀ ≤ j → j < k → ∃ pa ∈ r.free,
    r'.pgdir.entry j = some ⟨true, (fill j).1, pa⟩ ∧ r'.mem pa = (fill j).2
  total : ∀ x, r'.total x = r.total x
  free : r'.free <:+ r.free
  mem : ∀ x, x ∉ r.free → r'.mem x = r.mem x

variable {fill : ℕ → Perm × (ℕ → UInt8)}

theorem Grown.refl (k : ℕ) (r : Ram) : Grown fill k k r r :=
  ⟨rfl, fun _ _ => rfl, fun _ _ _ => by omega, fun _ => rfl, List.suffix_rfl, fun _ _ => rfl⟩

/-- A page that has been filled is filled no more, since it is not free. -/
theorem Grown.trans {a b c : ℕ} (h : Grown fill a b r r₁) (h' : Grown fill b c r₁ r₂)
    (hs : Single r.toMmu) (hab : a ≤ b) (hbc : b ≤ c) (hb : b ≤ NUSER) :
    Grown fill a c r r₂ := by
  refine ⟨h'.page.trans h.page, ?_, ?_, fun x => (h'.total x).trans (h.total x),
    h'.free.trans h.free, ?_⟩
  · intro j hj
    rw [h'.kept j (by omega), h.kept j (by omega)]
  · intro j haj hjc
    by_cases hjb : j < b
    · obtain ⟨pa, hpa, hentry, hmem⟩ := h.fresh j haj hjb
      have hnot : pa ∉ r₁.free := (hs.of_total h.total).not_free (hjb.trans_le hb) hentry
      refine ⟨pa, hpa, ?_, ?_⟩
      · rw [h'.kept j (by omega), hentry]
      · rw [h'.mem pa hnot, hmem]
    · obtain ⟨pa, hpa, hnew⟩ := h'.fresh j (by omega) hjc
      exact ⟨pa, h.free.subset hpa, hnew⟩
  · intro x hx
    rw [h'.mem x fun hx₁ => hx (h.free.subset hx₁), h.mem x hx]

theorem Grown.within (h : Grown fill k₀ k r r') : Within r r' :=
  ⟨h.total, fun x hx => h.mem x (not_mem_free hx)⟩

theorem wp_kalloc {Q : Option ℕ → Ram → Prop} (hn : r.free = [] → Q none r)
    (hs : ∀ pg rest, r.free = pg :: rest →
      Q (some pg) { pgdir := r.pgdir, free := rest, mem := r.mem }) :
    wp F (onMmu Vm.kalloc) Q r :=
  wp_onMmu.mpr (Vm.wp_kalloc hn hs)

/-- A page taken from the free list and filled is mapped. -/
theorem wp_mapNew {pg : ℕ} {rest : List ℕ} (hfree : r.free = pg :: rest) (hk : k < NUSER)
    (hnone : r.pgdir.entry k = none) {perm : Perm} {c : ℕ → UInt8} (hfill : fill k = (perm, c)) :
    wp F (onMmu (Vm.mappages (k * PGSIZE) PGSIZE pg perm))
      (fun ok r' => (ok = false → r' = ⟨⟨r.pgdir, rest⟩, update r.mem pg c⟩) ∧
        (ok = true → Grown fill k (k + 1) r r'))
      ⟨⟨r.pgdir, rest⟩, update r.mem pg c⟩ := by
  have hbase : k * PGSIZE < KERNBASE := by lia
  rw [Vm.mappages_page hbase]
  apply wp_onMmu.mpr
  apply wp_mono (Vm.wp_mapOne (m := ⟨r.pgdir, rest⟩) (Vm.lt_npages hk) hnone)
  rintro ok m' ⟨hfalse, htrue⟩
  refine ⟨fun hok => by rw [hfalse hok], fun hok => ?_⟩
  obtain ⟨hpage, hsuffix, hentry, htotal⟩ := htrue hok
  refine ⟨hpage, ?_, ?_, ?_, ?_, ?_⟩
  · intro j hj
    rw [hentry, update_of_ne (by omega)]
  · intro j hkj hj
    obtain rfl : j = k := by omega
    refine ⟨pg, by rw [hfree]; exact List.mem_cons_self, ?_, ?_⟩
    · show m'.pgdir.entry j = _
      rw [hentry, update_self, hfill]
    · show update r.mem pg c pg = _
      rw [update_self, hfill]
  · intro x
    rw [htotal, Mmu.total, Mmu.total, hfree, List.count_cons]
    simp only [hk, true_and, beq_iff_eq]
    omega
  · rw [hfree]
    exact hsuffix.trans (List.suffix_cons _ _)
  · intro x hx
    apply update_of_ne
    rintro rfl
    rw [hfree] at hx
    exact hx List.mem_cons_self

/-! ## Growing -/

/-- Nothing is mapped that was not before, and everything that was. -/
structure Undone (r r' : Ram) : Prop where
  page : r'.pgdir.page = r.pgdir.page
  entry : r'.pgdir.entry = r.pgdir.entry
  total : ∀ x, r'.total x = r.total x
  mem : ∀ x, x ∉ r.free → x ∉ r'.free → r'.mem x = r.mem x

theorem Undone.refl (r : Ram) : Undone r r := ⟨rfl, rfl, fun _ => rfl, fun _ _ _ => rfl⟩

theorem Undone.within (h : Undone r r') : Within r r' :=
  ⟨h.total, fun x hx => h.mem x (not_mem_free hx) (not_mem_free ((h.total x).trans hx))⟩

/-- What has been freed is all that was new. -/
theorem Grown.entry_freed {r₃ : Ram} {S : ℕ → Prop} (hg : Grown fill k₀ k r r₁)
    (hf : Freed S r₂ r₃) (hpd : r₂.pgdir = r₁.pgdir) (hin : ∀ j, k₀ ≤ j → j < k → S j)
    (hnone : ∀ j, S j → r.pgdir.entry j = none) : r₃.pgdir.entry = r.pgdir.entry := by
  funext j
  by_cases hS : S j
  · rw [hf.gone j hS, hnone j hS]
  · rw [hf.kept j hS, hpd, hg.kept j fun hj => hS (hin j hj.1 hj.2)]

theorem Undone.of_freed {S : ℕ → Prop} (hg : Grown fill k₀ k r r₁)
    (hf : Freed S r₁ r₂) (hin : ∀ j, k₀ ≤ j → j < k → S j)
    (hnone : ∀ j, S j → r.pgdir.entry j = none) : Undone r r₂ := by
  refine ⟨hf.page.trans hg.page, hg.entry_freed hf rfl hin hnone,
    fun x => (hf.total x).trans (hg.total x), ?_⟩
  intro x hx hx'
  rw [hf.mem x hx', hg.mem x hx]

/-- The page that could not be mapped is freed last. -/
theorem Undone.of_freed_kfree {pg : ℕ} {rest : List ℕ} {c : ℕ → UInt8}
    {S : ℕ → Prop} (hg : Grown fill k₀ k r r₁) (hfree : r₁.free = pg :: rest)
    (hf : Freed S ⟨⟨r₁.pgdir, rest⟩, update r₁.mem pg c⟩ r₂) (hin : ∀ j, k₀ ≤ j → j < k → S j)
    (hnone : ∀ j, S j → r.pgdir.entry j = none) :
    Undone r ⟨⟨r₂.pgdir, pg :: r₂.free⟩, update r₂.mem pg fun _ => 1⟩ := by
  have hentry := hg.entry_freed hf rfl hin hnone
  refine ⟨hf.page.trans hg.page, hentry, ?_, ?_⟩
  · intro x
    have htotal := hf.total x
    rw [← hg.total]
    simp only [Mmu.total, hfree, List.count_cons] at htotal ⊢
    omega
  · intro x hx hx'
    have hne : x ≠ pg := fun h => hx' (h ▸ List.mem_cons_self)
    have hx₂ : x ∉ r₂.free := fun h => hx' (List.mem_cons_of_mem _ h)
    calc update r₂.mem pg (fun _ => 1) x = r₂.mem x := update_of_ne hne _ _
      _ = update r₁.mem pg c x := hf.mem x hx₂
      _ = r₁.mem x := update_of_ne hne _ _
      _ = r.mem x := hg.mem x hx

/-- What `allocuvm` fills pages with -/
def zeroed (_ : ℕ) : Perm × (ℕ → UInt8) := (⟨true, true⟩, fun _ => 0)

/-- The loop of `allocuvm`; the pages up to `k` are new ones already. -/
theorem wp_allocLoop {r₀ : Ram} {oldsz newsz n : ℕ} (hs : Single r₀.toMmu)
    (hnone : ∀ j, pages oldsz ≤ j → j < pages newsz → r₀.pgdir.entry j = none)
    (hnew : newsz < KERNBASE) (hn : newsz ≤ k * PGSIZE + n * PGSIZE)
    (hk : pages oldsz ≤ k) (hk' : k ≤ pages newsz) (hg : Grown zeroed (pages oldsz) k r₀ r) :
    wp F (allocLoop oldsz newsz n (k * PGSIZE)) (fun sz r' => sz = 0 ∧ Undone r₀ r' ∨
      sz = newsz ∧ Grown zeroed (pages oldsz) (pages newsz) r₀ r') r := by
  induction n generalizing k r with
  | zero =>
    apply wp_pure.mpr
    refine .inr ⟨rfl, ?_⟩
    rw [← eq_pages hk' (by simpa using hn)]
    exact hg
  | succ n ih =>
    rw [allocLoop]
    split_ifs with hlt
    swap
    · apply wp_pure.mpr
      refine .inr ⟨rfl, ?_⟩
      rw [← eq_pages hk' (not_lt.mp hlt)]
      exact hg
    have hkn : k < pages newsz := lt_pages.mpr hlt
    have hku : k < NUSER := hkn.trans_le (pages_le hnew.le)
    have hkept : r.pgdir.entry k = none := by
      rw [hg.kept k (by omega)]
      exact hnone k hk hkn
    have hnull : NonNull r.pgdir := .of_single (hs.of_total hg.total)
    have hin : ∀ j, pages oldsz ≤ j → j < k → oldsz ≤ j * PGSIZE ∧ j * PGSIZE < newsz := by
      intro j h₁ h₂
      exact range_pages.mpr ⟨h₁, by omega⟩
    have hout : ∀ j, oldsz ≤ j * PGSIZE ∧ j * PGSIZE < newsz → r₀.pgdir.entry j = none := by
      intro j hj
      exact hnone j (range_pages.mp hj).1 (range_pages.mp hj).2
    apply wp_bind.mpr
    apply wp_kalloc
    · intro _
      apply wp_bind.mpr
      apply wp_mono (wp_deallocuvm hnew.le hnull)
      rintro _ r' ⟨_, hf⟩
      apply wp_pure.mpr
      exact .inl ⟨rfl, .of_freed hg hf hin hout⟩
    · intro pg rest hfree
      rw [wp_bind, wp_memset, wp_bind]
      have hfill : zeroed k = (⟨true, true⟩, fun _ => 0) := rfl
      apply wp_mono (wp_mapNew hfree hku hkept hfill)
      rintro ok r₁ ⟨hfalse, htrue⟩
      split_ifs with hok
      · have hnext : k * PGSIZE + PGSIZE = (k + 1) * PGSIZE := by ring
        rw [hnext]
        apply ih (Vm.next_page hn (by omega)).2 (by omega) hkn
        exact hg.trans (htrue hok) hs hk (Nat.le_succ k) hku.le
      · rw [hfalse (Bool.eq_false_of_not_eq_true hok)]
        apply wp_bind.mpr
        apply wp_mono (wp_deallocuvm (r := ⟨⟨r.pgdir, rest⟩, _⟩) hnew.le hnull)
        rintro _ r₂ ⟨_, hf⟩
        rw [wp_bind, wp_kfree, wp_pure]
        exact .inl ⟨rfl, .of_freed_kfree hg hfree hf hin hout⟩

theorem wp_allocuvm {oldsz newsz : ℕ} (hs : Single r.toMmu) (hold : oldsz ≤ KERNBASE)
    (hnone : ∀ j < NUSER, pages oldsz ≤ j → r.pgdir.entry j = none) :
    wp F (allocuvm oldsz newsz) (fun sz r' => sz = 0 ∧ Undone r r' ∨
      newsz < KERNBASE ∧ sz = max oldsz newsz ∧ Grown zeroed (pages oldsz) (pages sz) r r') r := by
  rw [allocuvm]
  split_ifs with hbig hlt
  · apply wp_pure.mpr
    exact .inl ⟨rfl, .refl r⟩
  · apply wp_pure.mpr
    exact .inr ⟨by omega, (max_eq_left hlt.le).symm, .refl _ r⟩
  · rw [pgroundup_pages hold]
    have hle := pages_mono (not_lt.mp hlt)
    have hnew : pages newsz ≤ NUSER := pages_le (by omega)
    apply wp_mono (wp_allocLoop hs (fun j h h' => hnone j (h'.trans_le hnew) h) (by omega) ?_ le_rfl
      hle (.refl _ r))
    · rintro sz r' (h | ⟨rfl, hg⟩)
      · exact .inl h
      · exact .inr ⟨by omega, (max_eq_right (by omega)).symm, hg⟩
    · lia

/-! ## The kernel's pages -/

/-- The entry `k` has a part for page number `j`. -/
def Covers (k : Kmap) (j : ℕ) : Prop :=
  k.virt ≤ j * PGSIZE ∧
    j * PGSIZE ≤ pgrounddown ((k.virt + (2 ^ 32 + k.physEnd - k.physStart) % 2 ^ 32 - 1) % 2 ^ 32)

instance (k : Kmap) (j : ℕ) : Decidable (Covers k j) := inferInstanceAs (Decidable (_ ∧ _))

theorem covers_iff {k : Kmap} {first n : ℕ} (hvirt : k.virt = first * PGSIZE)
    (hlast : pgrounddown ((k.virt + (2 ^ 32 + k.physEnd - k.physStart) % 2 ^ 32 - 1) % 2 ^ 32) =
      (first + n) * PGSIZE) : Covers k j ↔ first ≤ j ∧ j ≤ first + n := by
  rw [Covers, hlast, hvirt]
  norm_num

/-- The entry that a table of mappings makes for page number `j` -/
def kernelEntry : List Kmap → ℕ → Option Pte
  | [], _ => none
  | k :: ks, j =>
    if Covers k j then some ⟨true, k.perm, k.physStart + (j - k.virt / PGSIZE) * PGSIZE⟩
    else kernelEntry ks j

theorem kernelEntry_perm {e : Pte} (h : kernelEntry ks j = some e) : ∃ k ∈ ks, e.perm = k.perm := by
  induction ks with
  | nil => cases h
  | cons k ks ih =>
    rw [kernelEntry] at h
    split_ifs at h
    · cases h
      exact ⟨k, List.mem_cons_self, rfl⟩
    · obtain ⟨k', hk', hperm⟩ := ih h
      exact ⟨k', List.mem_cons_of_mem _ hk', hperm⟩

theorem kernelEntry_ne_none {k : Kmap} (hk : k ∈ ks) (hj : Covers k j) :
    kernelEntry ks j ≠ none := by
  induction ks with
  | nil => cases hk
  | cons k' ks ih =>
    rw [kernelEntry]
    split_ifs with hcov
    · nofun
    · rcases List.mem_cons.mp hk with rfl | hk
      · exact absurd hj hcov
      · exact ih hk

theorem kernelEntry_lt {lo : ℕ} (hks : Vm.Ascends lo ks) (hj : j < lo) :
    kernelEntry ks j = none := by
  induction ks generalizing lo with
  | nil => rfl
  | cons k ks ih =>
    obtain ⟨first, n, hvirt, hge, -, hlast, hks⟩ := hks
    rw [kernelEntry, if_neg]
    · exact ih hks (by omega)
    · rw [covers_iff hvirt hlast]
      omega

/-- The loop of `setupkvm`, by induction on the table.  If it fails, nothing is kept. -/
theorem wp_setupLoop {lo : ℕ} (hks : Vm.Ascends lo ks) (hlo : NUSER ≤ lo)
    (huser : ∀ j < NUSER, r.pgdir.entry j = none) (hnone : ∀ j, lo ≤ j → r.pgdir.entry j = none) :
    wp F (setupLoop ks) (fun ok r' => (ok = false → Released r r') ∧
      (ok = true → Extends r.toMmu r'.toMmu ∧ r'.mem = r.mem ∧
        (∀ j < lo, r'.pgdir.entry j = r.pgdir.entry j) ∧
        ∀ j, lo ≤ j → r'.pgdir.entry j = kernelEntry ks j)) r := by
  induction ks generalizing lo r with
  | nil =>
    apply wp_pure.mpr
    refine ⟨?_, fun _ => ⟨.refl _, rfl, fun _ _ => rfl, fun j hj => hnone j hj⟩⟩
    intro h
    cases h
  | cons k ks ih =>
    obtain ⟨first, n, hvirt, hge, hlt, hlast, hks⟩ := hks
    rw [setupLoop, Vm.mappages_kmap hvirt hlast, wp_bind, wp_onMmu]
    apply wp_mono (Vm.wp_mapLoop (hlo.trans hge) hlt fun j hj => hnone j (hge.trans hj))
    rintro ok m₁ ⟨hext, hlow, hall⟩
    have huser₁ : ∀ j < NUSER, m₁.pgdir.entry j = none := by
      intro j hj
      rw [hlow j (hj.trans_le (hlo.trans hge))]
      exact huser j hj
    split_ifs with hok
    · have hentry := hall hok
      have hnone₁ : ∀ j, first + n + 1 ≤ j → m₁.pgdir.entry j = none := by
        intro j hj
        rw [hentry, Vm.mapRange, if_neg (by omega)]
        exact hnone j (by omega)
      apply wp_mono (ih (r := ⟨m₁, r.mem⟩) hks (by omega) huser₁ hnone₁)
      rintro ok' r' ⟨hfalse, htrue⟩
      refine ⟨fun hok' => ?_, fun hok' => ?_⟩
      · have hrel := hfalse hok'
        exact ⟨fun x => (hrel.count x).trans (hext.total x), hrel.mem⟩
      · obtain ⟨hext', hmem, hlow', hhigh⟩ := htrue hok'
        refine ⟨hext.trans hext', hmem, ?_, ?_⟩
        · intro j hj
          rw [hlow' j (by omega), hlow j (by omega)]
        · intro j hj
          have hfirst : k.virt / PGSIZE = first := by rw [hvirt, Nat.mul_div_cancel _ (by norm_num)]
          rw [kernelEntry, hfirst]
          by_cases hcov : Covers k j
          · have hin := (covers_iff hvirt hlast).mp hcov
            rw [if_pos hcov, hlow' j (by omega), hentry, Vm.mapRange, if_pos hin]
          · have hout := (covers_iff hvirt hlast).not.mp hcov
            rw [if_neg hcov]
            by_cases hnext : first + n + 1 ≤ j
            · exact hhigh j hnext
            · rw [hlow' j (by omega), hentry, Vm.mapRange, if_neg hout, hnone j hj,
                kernelEntry_lt hks (by omega)]
    · apply wp_bind.mpr
      apply wp_mono (wp_freevm (r := ⟨m₁, r.mem⟩) ?_)
      · intro _ r' hrel
        apply wp_pure.mpr
        refine ⟨fun _ => ⟨fun x => (hrel.count x).trans (hext.total x), hrel.mem⟩, ?_⟩
        intro h
        cases h
      · intro j hj e he
        rw [huser₁ j hj] at he
        cases he

/-- The kernel's part of a page directory: not for users, and the devices are in it. -/
structure KernelPart (pd : Pgdir) : Prop where
  supervisor : ∀ j e, NUSER ≤ j → pd.entry j = some e → e.perm.u = false
  devices : ∀ j, DEVSPACE ≤ j * PGSIZE → j < NPAGES → pd.entry j ≠ none

/-- The page directory at work is a new one, with the kernel's pages only. -/
structure NewSpace (r r' : Ram) : Prop where
  user : ∀ j < NUSER, r'.pgdir.entry j = none
  kernel : KernelPart r'.pgdir
  total : ∀ x, r'.total x = r.free.count x
  free : r'.free <:+ r.free
  mem : r'.mem = r.mem

/-- The free pages are as before. -/
structure Failed (r r' : Ram) : Prop where
  count : ∀ x, r'.free.count x = r.free.count x
  mem : ∀ x, x ∉ r.free → x ∉ r'.free → r'.mem x = r.mem x

theorem kmap_supervisor {data : DataAddr} {k : Kmap} (hk : k ∈ Vm.kmap data) :
    k.perm.u = false := by
  simp only [Vm.kmap, List.mem_cons, List.not_mem_nil, or_false] at hk
  rcases hk with rfl | rfl | rfl | rfl <;> rfl

theorem kmap_devices (data : DataAddr) (hdev : DEVSPACE ≤ j * PGSIZE) (hj : j < NPAGES) :
    ∃ k ∈ Vm.kmap data, Covers k j := by
  refine ⟨⟨DEVSPACE, DEVSPACE, 0, ⟨true, false⟩⟩, by simp [Vm.kmap], hdev, ?_⟩
  norm_num [pgrounddown] at *
  omega

theorem entry_empty (pg j : ℕ) : (⟨pg, fun _ => none⟩ : Pgdir).entry j = none := by
  rw [Pgdir.entry]
  split_ifs <;> rfl

theorem refs_empty (pg x : ℕ) :
    (⟨pg, fun _ => none⟩ : Pgdir).refs x = if pg = x then 1 else 0 := by
  have htabs : Ledger.holding (Finset.range NPDENTRIES) (⟨pg, fun _ => none⟩ : Pgdir).tabs x = 0 :=
    Ledger.holding_eq_zero.mpr fun _ _ => nofun
  have hmapped : (⟨pg, fun _ => none⟩ : Pgdir).mapped x = 0 := by
    apply Ledger.holding_eq_zero.mpr
    intro k _
    rw [entry_empty]
    nofun
  rw [Pgdir.refs, Pgdir.own, htabs, hmapped]
  rfl

theorem wp_setupkvm {data : DataAddr} :
    wp F (setupkvm data) (fun ok r' => (ok = false → Failed r r') ∧ (ok = true → NewSpace r r' ∧
      ∀ j, NUSER ≤ j → r'.pgdir.entry j = kernelEntry (Vm.kmap data) j)) r := by
  rw [setupkvm, wp_bind]
  apply wp_kalloc
  · intro _
    apply wp_pure.mpr
    refine ⟨fun _ => ⟨fun _ => rfl, fun _ _ _ => rfl⟩, ?_⟩
    intro h
    cases h
  · intro pg rest hfree
    rw [wp_bind, wp_modify]
    have htotal : ∀ x, Mmu.total ⟨⟨pg, fun _ => none⟩, rest⟩ x = r.free.count x := by
      intro x
      rw [Mmu.total, refs_empty, hfree, List.count_cons]
      simp only [beq_iff_eq]
    apply wp_mono (wp_setupLoop Vm.kmap_ascends le_rfl (fun j _ => entry_empty pg j)
      fun j _ => entry_empty pg j)
    rintro ok r' ⟨hfalse, htrue⟩
    refine ⟨fun hok => ?_, fun hok => ?_⟩
    · have hrel := hfalse hok
      refine ⟨fun x => ?_, fun x _ hx => hrel.mem x hx⟩
      rw [hrel.count, htotal]
    · obtain ⟨hext, hmem, hlow, hhigh⟩ := htrue hok
      refine ⟨⟨?_, ⟨?_, ?_⟩, ?_, ?_, hmem⟩, hhigh⟩
      · intro j hj
        rw [hlow j hj]
        exact entry_empty pg j
      · intro j e hj he
        rw [hhigh j hj] at he
        obtain ⟨k, hk, hp⟩ := kernelEntry_perm he
        rw [hp]
        exact kmap_supervisor hk
      · intro j hdev hj
        obtain ⟨k, hk, hc⟩ := kmap_devices data hdev hj
        have huser : NUSER ≤ j := by lia
        rw [hhigh j huser]
        exact kernelEntry_ne_none hk hc
      · intro x
        rw [hext.total, htotal]
      · rw [hfree]
        exact hext.free.trans (List.suffix_cons _ _)

/-! ## Copies -/

/-- The page `j` of `src`, with what is in it -/
def copyOf (src : Pgdir) (mem : ℕ → ℕ → UInt8) (j : ℕ) : Perm × (ℕ → UInt8) :=
  ((src.entry j).elim ⟨false, false⟩ Pte.perm, (src.entry j).elim (fun _ => 0) fun e => mem e.addr)

/-- `copyuvm` panics where a page is missing. -/
def CopyPanic (msg : String) : Prop :=
  msg = "copyuvm: pte should exist" ∨ msg = "copyuvm: page not present"

/-- The loop of `copyuvm`; the pages up to `k` have been copied. -/
theorem wp_copyLoop {r₀ : Ram} {src : Pgdir} {n : ℕ} (hs : Single r₀.toMmu)
    (hnone : ∀ j < NUSER, r₀.pgdir.entry j = none)
    (hsrc : ∀ j < NUSER, ∀ e, src.entry j = some e → e.addr ∉ r₀.free)
    (hsz : sz ≤ KERNBASE) (hn : sz ≤ k * PGSIZE + n * PGSIZE) (hk : k ≤ pages sz)
    (hg : Grown (copyOf src r₀.mem) 0 k r₀ r) :
    wp CopyPanic (copyLoop src sz n (k * PGSIZE)) (fun ok r' =>
      (ok = false → (∀ x, r'.free.count x = r₀.total x) ∧
        ∀ x, x ∉ r₀.free → x ∉ r'.free → r'.mem x = r₀.mem x) ∧
      (ok = true → Grown (copyOf src r₀.mem) 0 (pages sz) r₀ r')) r := by
  induction n generalizing k r with
  | zero =>
    apply wp_pure.mpr
    refine ⟨nofun, fun _ => ?_⟩
    rw [← eq_pages hk (by simpa using hn)]
    exact hg
  | succ n ih =>
    rw [copyLoop]
    split_ifs with hlt
    swap
    · apply wp_pure.mpr
      refine ⟨nofun, fun _ => ?_⟩
      rw [← eq_pages hk (not_lt.mp hlt)]
      exact hg
    have hkn : k < pages sz := lt_pages.mpr hlt
    have hku : k < NUSER := hkn.trans_le (pages_le hsz)
    have hkept : r.pgdir.entry k = none := by
      rw [hg.kept k (by omega)]
      exact hnone k hku
    have hnull : NonNull r.pgdir := .of_single (hs.of_total hg.total)
    match hpte : src.pte (k * PGSIZE) with
    | none => exact wp_throw.mpr (.inl rfl)
    | some ⟨false, _, _⟩ => exact wp_throw.mpr (.inr rfl)
    | some ⟨true, flags, pa⟩ =>
      have he := Vm.entry_of_pte (Vm.lt_npages hku) hpte rfl
      have hfill : copyOf src r₀.mem k = (flags, r.mem pa) := by
        rw [copyOf, he, hg.mem pa (hsrc k hku _ he)]
        rfl
      apply wp_bind.mpr
      apply wp_kalloc
      · intro _
        apply wp_bind.mpr
        apply wp_mono (wp_freevm hnull)
        intro _ r' hrel
        apply wp_pure.mpr
        refine ⟨fun _ => ⟨fun x => (hrel.count x).trans (hg.total x), ?_⟩, nofun⟩
        intro x hx hx'
        rw [hrel.mem x hx', hg.mem x hx]
      · intro pg rest hfree
        rw [wp_bind, copyPage, wp_modify, wp_bind]
        apply wp_mono (wp_mapNew hfree hku hkept hfill)
        rintro ok r₁ ⟨hfalse, htrue⟩
        split_ifs with hok
        · have hnext : k * PGSIZE + PGSIZE = (k + 1) * PGSIZE := by ring
          rw [hnext]
          apply ih (Vm.next_page hn (by omega)).2 hkn
          exact hg.trans (htrue hok) hs (Nat.zero_le k) (Nat.le_succ k) hku.le
        · rw [hfalse (Bool.eq_false_of_not_eq_true hok), wp_bind, wp_kfree, wp_bind]
          apply wp_mono (wp_freevm (r := ⟨⟨r.pgdir, pg :: rest⟩, _⟩) hnull)
          intro _ r' hrel
          apply wp_pure.mpr
          refine ⟨fun _ => ⟨fun x => ?_, ?_⟩, nofun⟩
          · rw [hrel.count, ← hg.total, Mmu.total, Mmu.total, hfree]
          · intro x hx hx'
            have hpg : pg ∈ r₀.free := hg.free.subset (by rw [hfree]; exact List.mem_cons_self)
            have hne : x ≠ pg := fun h => hx (h ▸ hpg)
            rw [hrel.mem x hx', ← hg.mem x hx]
            exact (update_of_ne hne _ _).trans (update_of_ne hne _ _)

/-- `copyuvm` makes a new address space and fills it. -/
theorem wp_copyuvm {data : DataAddr} {src : Pgdir} (hone : ∀ x, r.free.count x ≤ 1)
    (hzero : 0 ∉ r.free) (hsrc : ∀ j < NUSER, ∀ e, src.entry j = some e → e.addr ∉ r.free)
    (hsz : sz ≤ KERNBASE) :
    wp CopyPanic (copyuvm data src sz) (fun ok r' => (ok = false → Failed r r') ∧
      (ok = true → ∃ r₁, NewSpace r r₁ ∧ (∀ j, NUSER ≤ j →
        r₁.pgdir.entry j = kernelEntry (Vm.kmap data) j) ∧
        Grown (copyOf src r.mem) 0 (pages sz) r₁ r')) r := by
  rw [copyuvm, wp_bind]
  apply wp_mono wp_setupkvm
  rintro ok r₁ ⟨hfalse, htrue⟩
  split_ifs with hok
  · obtain ⟨hnew, hkernel⟩ := htrue hok
    have hs : Single r₁.toMmu := by
      refine ⟨fun x => ?_, ?_⟩
      · rw [hnew.total]
        exact hone x
      · rw [hnew.total]
        exact List.count_eq_zero_of_not_mem hzero
    have hsrc₁ : ∀ j < NUSER, ∀ e, src.entry j = some e → e.addr ∉ r₁.free :=
      fun j hj e he hmem => hsrc j hj e he (hnew.free.subset hmem)
    have hstart : 0 * PGSIZE = 0 := Nat.zero_mul _
    rw [← hnew.mem]
    nth_rewrite 1 [← hstart]
    apply wp_mono (wp_copyLoop hs hnew.user hsrc₁ hsz ?_ (Nat.zero_le _) (.refl 0 r₁))
    · rintro ok' r' ⟨hfalse', htrue'⟩
      refine ⟨fun hok' => ?_, fun hok' => ⟨r₁, hnew, hkernel, htrue' hok'⟩⟩
      obtain ⟨hcount, hmem⟩ := hfalse' hok'
      refine ⟨fun x => (hcount x).trans (hnew.total x), ?_⟩
      intro x hx hx'
      rw [hmem x (fun h => hx (hnew.free.subset h)) hx', hnew.mem]
    · lia
  · apply wp_pure.mpr
    exact ⟨fun _ => hfalse (Bool.eq_false_of_not_eq_true hok), nofun⟩

end Xv6Mlfq.Mem
