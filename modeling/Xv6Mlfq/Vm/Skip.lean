import Xv6Mlfq.Vm.Build
import Mathlib.Data.List.Intervals

/-!
# Skipping absent page tables

Where `walkpgdir` finds no page table, the loop of `deallocuvm` sets its cursor to one page before
the next table, and the increment of the loop takes it there.  The loop is here as `vm.c` writes it,
on 32-bit addresses and with the macros of `mmu.h`, and `kfree` has its checks.  It is compared with
a visit of every page in turn.

What is freed is a parameter of the loop, so that the comparison also holds for `deallocuvm` of
`Xv6Mlfq.Vm.PageTable`, whose `kfree` has no checks.

## Main definitions

* `deallocWhile`, `deallocuvm32` — the loop and the function, with fuel.
* `visitPages`, `pageAddrs` — the plain loop.
* `Pgdir.clear`, `mapped` — what is left of a page directory, and what was taken out.

## Main results

* `deallocWhile_eq` — the loop visits all pages.
* `visitPages_eq` — what the visits do.
* `deallocuvm_skips` — both together, for every page directory.
* `deallocLoop_eq_while` — the loop of `Xv6Mlfq.Vm.PageTable` is this one.
-/

namespace Xv6Mlfq.Vm

open Function (update update_self update_of_ne)
open Wp (look)
open Mem (pages)

/-! ## The macros of `mmu.h` -/

def PDX (va : BitVec 32) : BitVec 32 := va >>> 22 &&& 0x3FF#32

def PGADDR (d t o : BitVec 32) : BitVec 32 := d <<< 22 ||| t <<< 12 ||| o

def PGROUNDUP (sz : BitVec 32) : BitVec 32 := (sz + 4096#32 - 1#32) &&& ~~~(4096#32 - 1#32)

theorem toNat_PDX (va : BitVec 32) : (PDX va).toNat = pdx va.toNat := by
  rw [PDX, pdx, BitVec.toNat_and, BitVec.toNat_ushiftRight, Nat.shiftRight_eq_div_pow]
  exact Nat.and_two_pow_sub_one_eq_mod _ 10

/-- The mask of a page address. -/
theorem and_not_mask (x : BitVec 32) : x &&& ~~~(4096#32 - 1#32) = x >>> 12 <<< 12 := by
  have hmask : ∀ i < 32, (4096#32 - 1#32).getLsbD i = decide (i < 12) := by decide
  apply BitVec.eq_of_getLsbD_eq
  intro i hi
  rw [BitVec.getLsbD_and, BitVec.getLsbD_not, hmask i hi, BitVec.getLsbD_shiftLeft,
    BitVec.getLsbD_ushiftRight]
  by_cases h : i < 12
  · simp [h]
  · simp [h, hi, Nat.add_sub_cancel' (not_lt.mp h)]

theorem toNat_PGROUNDUP (sz : BitVec 32) : (PGROUNDUP sz).toNat = pgroundup sz.toNat := by
  have hsum : (sz + 4096#32 - 1#32).toNat = (sz.toNat + 4096 - 1) % 2 ^ 32 := by bv_omega
  rw [PGROUNDUP, and_not_mask, BitVec.toNat_shiftLeft, BitVec.toNat_ushiftRight, Nat.shiftLeft_eq,
    Nat.shiftRight_eq_div_pow, pgroundup, hsum]
  lia

/-- The jump, with the increment that follows it. -/
theorem toNat_jump {a : BitVec 32} {k : ℕ} (ha : a.toNat = k * PGSIZE) (hk : k < NUSER) :
    (PGADDR (PDX a + 1#32) 0#32 0#32 - 4096#32 + 4096#32).toNat =
      (k / 1024 + 1) * 1024 * PGSIZE := by
  have hpdx := toNat_PDX a
  rw [ha, pdx_page (lt_npages hk)] at hpdx
  have hnext : (PDX a + 1#32).toNat = k / 1024 + 1 := by
    rw [BitVec.toNat_add, hpdx]
    lia
  rw [BitVec.sub_add_cancel, PGADDR, BitVec.zero_shiftLeft, BitVec.or_zero, BitVec.or_zero,
    BitVec.toNat_shiftLeft, hnext, Nat.shiftLeft_eq]
  lia

theorem toNat_next {a : BitVec 32} {k : ℕ} (ha : a.toNat = k * PGSIZE) (hk : k < NUSER) :
    (a + 4096#32).toNat = (k + 1) * PGSIZE := by
  rw [BitVec.toNat_add, ha]
  lia

/-! ## The loop -/

/-- `kfree(P2V(pa))`, with its checks; `kend` is the address `end` of the linker. -/
def kfreeChecked (kend pa : ℕ) : VmM Unit :=
  if pa % PGSIZE ≠ 0 ∨ (pa + KERNBASE) % 2 ^ 32 < kend ∨ PHYSTOP ≤ pa then throw "kfree"
  else kfree pa

section Loop

variable (free : ℕ → VmM Unit)

/-- What the loop does with an entry; `free` stands for `kfree`. -/
def unmapPte (a : ℕ) : Option Pte → VmM Unit
  | some ⟨true, _, pa⟩ =>
    if pa = 0 then throw "kfree"
    else do
      free pa
      setPte a Pte.zero
  | _ => pure ()

/-- The body of the loop: the value of `a` before the increment -/
def deallocBody (a : BitVec 32) : VmM (BitVec 32) := do
  let there ← walkpgdir a.toNat false
  if there = false then pure (PGADDR (PDX a + 1#32) 0#32 0#32 - 4096#32)
  else
    let pte ← look fun m => m.pgdir.pte a.toNat
    unmapPte free a.toNat pte
    pure a

/-- The loop of `deallocuvm`; `none` if the fuel is used up -/
def deallocWhile (oldsz : BitVec 32) : ℕ → BitVec 32 → VmM (Option Unit)
  | 0, _ => pure none
  | n + 1, a =>
    if a < oldsz then do
      let a ← deallocBody free a
      deallocWhile oldsz n (a + 4096#32)
    else pure (some ())

def deallocuvm32 (fuel : ℕ) (oldsz newsz : BitVec 32) : VmM (Option (BitVec 32)) :=
  if newsz ≥ oldsz then pure (some oldsz)
  else do
    let ended ← deallocWhile free oldsz fuel (PGROUNDUP newsz)
    pure (ended.map fun _ => newsz)

/-! ## Visiting every page -/

def visitPage (a : ℕ) : VmM Unit := do
  let there ← walkpgdir a false
  if there = false then pure ()
  else
    let pte ← look fun m => m.pgdir.pte a
    unmapPte free a pte

def visitPages : List ℕ → VmM Unit
  | [] => pure ()
  | a :: as => do
      visitPage free a
      visitPages as

/-- The page addresses from `PGROUNDUP(newsz)` below `oldsz` -/
def pageAddrs (newsz oldsz : ℕ) : List ℕ :=
  ((List.range NUSER).map (· * PGSIZE)).filter fun a => pgroundup newsz ≤ a ∧ a < oldsz

variable {free} {m : Mmu}

theorem walkpgdir_false (va : ℕ) :
    walkpgdir va false m = .ok ((m.pgdir.pde (pdx va)).isSome, m) := by
  simp only [walkpgdir, bind, StateT.bind, look, Except.bind]
  cases m.pgdir.pde (pdx va) <;> rfl

variable {a oldsz k n : ℕ}

/-- Nothing is done without a page table. -/
theorem visitPage_absent (h : m.pgdir.pde (pdx a) = none) : visitPage free a m = .ok ((), m) := by
  change (walkpgdir a false m).bind _ = _
  rw [walkpgdir_false, h]
  rfl

theorem visitPage_present (h : (m.pgdir.pde (pdx a)).isSome) :
    visitPage free a m = unmapPte free a (m.pgdir.pte a) m := by
  change (walkpgdir a false m).bind _ = _
  rw [walkpgdir_false, h]
  rfl

theorem visitPages_cons (a : ℕ) (as : List ℕ) :
    visitPages free (a :: as) m = (visitPage free a m).bind fun p => visitPages free as p.2 := rfl

theorem visitPages_absent {as bs : List ℕ} (h : ∀ a ∈ as, m.pgdir.pde (pdx a) = none) :
    visitPages free (as ++ bs) m = visitPages free bs m := by
  induction as with
  | nil => rfl
  | cons a as ih =>
    rw [List.cons_append, visitPages_cons, visitPage_absent (h a List.mem_cons_self)]
    exact ih fun b hb => h b (List.mem_cons_of_mem a hb)

/-! ## The two loops agree -/

/-- The page addresses from page `k` on, below `oldsz` -/
def pagesFrom (oldsz k : ℕ) : List ℕ := (List.range' k (pages oldsz - k)).map (· * PGSIZE)

theorem pagesFrom_succ (h : k < pages oldsz) :
    pagesFrom oldsz k = k * PGSIZE :: pagesFrom oldsz (k + 1) := by
  have hcount : pages oldsz - k = pages oldsz - (k + 1) + 1 := by omega
  rw [pagesFrom, hcount, List.range'_succ, List.map_cons]
  rfl

theorem pagesFrom_of_le (h : pages oldsz ≤ k) : pagesFrom oldsz k = [] := by
  rw [pagesFrom, Nat.sub_eq_zero_of_le h]
  rfl

/-- The pages up to the next table, and the rest. -/
theorem pagesFrom_split (oldsz : ℕ) {k' : ℕ} (h : k ≤ k') : ∃ c, k + c ≤ k' ∧
      pagesFrom oldsz k = (List.range' k c).map (· * PGSIZE) ++ pagesFrom oldsz k' := by
  by_cases hle : k' ≤ pages oldsz
  · refine ⟨k' - k, by omega, ?_⟩
    have hcount : pages oldsz - k = k' - k + (pages oldsz - k') := by omega
    have hstart : k' = k + (k' - k) := by omega
    rw [pagesFrom, pagesFrom, ← List.map_append, hcount]
    nth_rewrite 4 [hstart]
    rw [List.range'_append_1]
  · refine ⟨pages oldsz - k, by omega, ?_⟩
    rw [pagesFrom_of_le (by omega : pages oldsz ≤ k'), List.append_nil]
    rfl

theorem deallocBody_absent {a : BitVec 32} (h : m.pgdir.pde (pdx a.toNat) = none) :
    deallocBody free a m = .ok (PGADDR (PDX a + 1#32) 0#32 0#32 - 4096#32, m) := by
  change (walkpgdir a.toNat false m).bind _ = _
  rw [walkpgdir_false, h]
  rfl

theorem deallocBody_present {a : BitVec 32} (h : (m.pgdir.pde (pdx a.toNat)).isSome) :
    deallocBody free a m = (visitPage free a.toNat m).map fun p => (a, p.2) := by
  change (walkpgdir a.toNat false m).bind _ = _
  rw [walkpgdir_false, h, visitPage_present h]
  change (unmapPte free a.toNat (m.pgdir.pte a.toNat) m).bind _ = _
  cases unmapPte free a.toNat (m.pgdir.pte a.toNat) m <;> rfl

/-- **The loop visits all pages.**  By induction on the fuel: with a page table one page is visited,
and without one the pages up to the next table have nothing to be done. -/
theorem deallocWhile_eq {oldsz : BitVec 32} (hold : oldsz.toNat ≤ KERNBASE)
    {a : BitVec 32} (ha : a.toNat = k * PGSIZE) (hk : k ≤ NUSER) (hn : pages oldsz.toNat ≤ k + n) :
    deallocWhile free oldsz (n + 1) a m =
      (visitPages free (pagesFrom oldsz.toNat k) m).map fun p => (some (), p.2) := by
  have hpages := Mem.pages_le hold
  have hlt : a < oldsz ↔ k < pages oldsz.toNat := by
    rw [Mem.lt_pages, BitVec.lt_def, ha]
  induction n generalizing k a m with
  | zero =>
    have hle : ¬ k < pages oldsz.toNat := by omega
    rw [deallocWhile, if_neg (mt hlt.mp hle), pagesFrom_of_le (not_lt.mp hle)]
    rfl
  | succ n ih =>
    by_cases hlive : k < pages oldsz.toNat
    swap
    · rw [deallocWhile, if_neg (mt hlt.mp hlive), pagesFrom_of_le (not_lt.mp hlive)]
      rfl
    have hround : deallocWhile free oldsz (n + 2) a m =
        (deallocBody free a m).bind fun p => deallocWhile free oldsz (n + 1)
        (p.1 + 4096#32) p.2 := by
      rw [deallocWhile, if_pos (hlt.mpr hlive)]
      rfl
    have hpdx : pdx a.toNat = k / 1024 := by
      rw [ha]
      exact pdx_page (lt_npages (hlive.trans_le hpages))
    rw [hround]
    cases hpde : m.pgdir.pde (pdx a.toNat) with
    | none =>
      have hnext := toNat_jump ha (hlive.trans_le hpages)
      obtain ⟨c, hc, hsplit⟩ :=
        pagesFrom_split oldsz.toNat (show k ≤ (k / 1024 + 1) * 1024 by omega)
      rw [deallocBody_absent hpde, hsplit, visitPages_absent]
      · exact ih hnext (by lia) (by omega) (by
          rw [Mem.lt_pages, BitVec.lt_def, hnext])
      · intro b hb
        obtain ⟨j, hj, rfl⟩ := List.mem_map.mp hb
        have hj := List.mem_range'_1.mp hj
        have hjk : j / 1024 = k / 1024 := by omega
        rw [pdx_page (by lia), hjk, ← hpdx, hpde]
    | some t =>
      have hsome : (m.pgdir.pde (pdx a.toNat)).isSome := by rw [hpde]; rfl
      have hnext := toNat_next ha (hlive.trans_le hpages)
      rw [deallocBody_present hsome, pagesFrom_succ hlive, visitPages_cons, ha]
      cases visitPage free (k * PGSIZE) m with
      | error e => rfl
      | ok p =>
        exact ih hnext (by omega) (by omega) (by rw [Mem.lt_pages, BitVec.lt_def, hnext])

theorem filter_range {b : ℕ} (h : b ≤ n) :
    (List.range n).filter (fun k => a ≤ k ∧ k < b) = List.range' a (b - a) := by
  simp only [Bool.decide_and]
  rw [← List.filter_filter, ← List.Ico.zero_bot, List.Ico.filter_lt, List.Ico.filter_le,
    Nat.min_eq_right h, Nat.zero_max]
  rfl

theorem filter_pages {newsz : ℕ} (h : pages oldsz ≤ n) :
    ((List.range n).map (· * PGSIZE)).filter (fun a => pages newsz * PGSIZE ≤ a ∧ a < oldsz) =
      pagesFrom oldsz (pages newsz) := by
  rw [pagesFrom, ← filter_range h, List.filter_map]
  congr 1
  apply List.filter_congr
  intro k _
  rw [Function.comp_apply, decide_eq_decide, ← Mem.lt_pages, Nat.mul_le_mul_right_iff (by norm_num)]

theorem pageAddrs_eq {newsz : ℕ} (h : newsz ≤ KERNBASE) (hold : oldsz ≤ KERNBASE) :
    pageAddrs newsz oldsz = pagesFrom oldsz (pages newsz) := by
  rw [pageAddrs, Mem.pgroundup_pages h]
  exact filter_pages (Mem.pages_le hold)

end Loop

/-! ## What the visits do -/

/-- The addresses of the pages that these page addresses are mapped to -/
def mapped (pd : Pgdir) (as : List ℕ) : List ℕ :=
  as.filterMap fun a => ((pd.pte a).filter Pte.present).map Pte.addr

/-- Table `i`, with 0 for the present entries of these page addresses -/
def clearTable (as : List ℕ) (i : ℕ) (t : ℕ → Pte) (j : ℕ) : Pte :=
  if j < 1024 ∧ (i * 1024 + j) * PGSIZE ∈ as ∧ (t j).present then Pte.zero else t j

/-- The present entries of these page addresses become 0, and nothing else changes. -/
def Pgdir.clear (pd : Pgdir) (as : List ℕ) : Pgdir :=
  { pd with pde := fun i => (pd.pde i).map fun t => (t.1, clearTable as i t.2) }

/-- `kfree` takes the page. -/
def Freeable (kend pa : ℕ) : Prop :=
  pa ≠ 0 ∧ pa % PGSIZE = 0 ∧ kend ≤ (pa + KERNBASE) % 2 ^ 32 ∧ pa < PHYSTOP

instance (kend pa : ℕ) : Decidable (Freeable kend pa) := inferInstanceAs (Decidable (_ ∧ _))

section Effect

variable {m : Mmu} {pd : Pgdir} {k kend : ℕ} {as : List ℕ}

theorem pte_setPte_of_ne {a va : ℕ} {x : Pte} (h : ¬ (pdx va = pdx a ∧ ptx va = ptx a)) :
    (pd.setPte a x).pte va = pd.pte va := by
  by_cases hd : pdx va = pdx a
  · have ht : ptx va ≠ ptx a := fun ht => h ⟨hd, ht⟩
    cases hpde : pd.pde (pdx a) with
    | none => simp [Pgdir.pte, Pgdir.setPte, hd, hpde]
    | some t => simp [Pgdir.pte, Pgdir.setPte, hd, hpde, update_of_ne ht]
  · simp [Pgdir.pte, Pgdir.setPte, update_of_ne hd]

theorem unmapPte_checked {a pa : ℕ} {perm : Perm} :
    unmapPte (kfreeChecked kend) a (some ⟨true, perm, pa⟩) m =
      if Freeable kend pa then .ok ((), ⟨m.pgdir.setPte a Pte.zero, pa :: m.free⟩)
      else .error "kfree" := by
  rw [unmapPte]
  by_cases h0 : pa = 0
  · rw [if_pos h0, if_neg fun h => h.1 h0]
    rfl
  rw [if_neg h0]
  by_cases hpanic : pa % PGSIZE ≠ 0 ∨ (pa + KERNBASE) % 2 ^ 32 < kend ∨ PHYSTOP ≤ pa
  · have hno : ¬ Freeable kend pa := by
      rintro ⟨-, ha, hend, htop⟩
      omega
    rw [kfreeChecked, if_pos hpanic, if_neg hno]
    rfl
  · have hyes : Freeable kend pa := by
      unfold Freeable
      omega
    rw [kfreeChecked, if_neg hpanic, if_pos hyes]
    rfl

theorem ptx_page (k : ℕ) : ptx (k * PGSIZE) = k % 1024 := by
  unfold ptx
  norm_num

/-- The entry of page `k` -/
theorem entry_eq_page_iff {i j : ℕ} (hj : j < 1024) (hk : k < NPAGES) :
    (i * 1024 + j) * PGSIZE = k * PGSIZE ↔ i = pdx (k * PGSIZE) ∧ j = ptx (k * PGSIZE) := by
  rw [pdx_page hk, ptx_page]
  lia

theorem clearTable_nil (i : ℕ) (t : ℕ → Pte) : clearTable [] i t = t := by
  funext j
  simp [clearTable]

/-- Page by page -/
theorem clearTable_cons (hk : k < NPAGES) (i : ℕ) (t : ℕ → Pte) :
    clearTable (k * PGSIZE :: as) i t = clearTable as i
      (if i = pdx (k * PGSIZE) ∧ (t (ptx (k * PGSIZE))).present then
        update t (ptx (k * PGSIZE)) Pte.zero else t) := by
  have hptx : ptx (k * PGSIZE) < 1024 := by
    rw [ptx_page]
    exact Nat.mod_lt k (by norm_num)
  funext j
  unfold clearTable
  simp only [List.mem_cons]
  by_cases hhere : i = pdx (k * PGSIZE) ∧ j = ptx (k * PGSIZE)
  · obtain ⟨hi, rfl⟩ := hhere
    rw [(entry_eq_page_iff hptx hk).mpr ⟨hi, rfl⟩]
    by_cases hp : (t (ptx (k * PGSIZE))).present = true
    · simp [hi, hp, hptx]
    · simp [hp]
  · have hne : j < 1024 → (i * 1024 + j) * PGSIZE ≠ k * PGSIZE := fun hlt he =>
      hhere ((entry_eq_page_iff hlt hk).mp he)
    have hsame : (if i = pdx (k * PGSIZE) ∧ (t (ptx (k * PGSIZE))).present then
        update t (ptx (k * PGSIZE)) Pte.zero else t) j = t j := by
      split_ifs with hi
      · exact update_of_ne (fun hj => hhere ⟨hi.1, hj⟩) _ _
      · rfl
    rw [hsame]
    apply if_congr _ rfl rfl
    constructor
    · rintro ⟨hj, hmem | hmem, hp⟩
      · exact absurd hmem (hne hj)
      · exact ⟨hj, hmem, hp⟩
    · rintro ⟨hj, hmem, hp⟩
      exact ⟨hj, .inr hmem, hp⟩

theorem clear_nil (pd : Pgdir) : pd.clear [] = pd := by
  have htable : ∀ i, (fun t : ℕ × (ℕ → Pte) => (t.1, clearTable [] i t.2)) = id := fun i =>
    funext fun t => by rw [clearTable_nil]; rfl
  simp [Pgdir.clear, htable]

/-- An entry that is not present stays as it is. -/
theorem clear_cons_absent (hk : k < NPAGES) (h : pd.present (k * PGSIZE) = false) :
    pd.clear (k * PGSIZE :: as) = pd.clear as := by
  rw [Pgdir.clear, Pgdir.clear, Pgdir.mk.injEq]
  refine ⟨rfl, funext fun i => ?_⟩
  cases hpde : pd.pde i with
  | none => rfl
  | some t =>
    have hno : ¬ (i = pdx (k * PGSIZE) ∧ (t.2 (ptx (k * PGSIZE))).present = true) := by
      rintro ⟨rfl, hp⟩
      simp [Pgdir.present, Pgdir.pte, hpde, hp] at h
    rw [Option.map_some, Option.map_some, clearTable_cons hk, if_neg hno]

theorem clear_cons_present (hk : k < NPAGES) (h : pd.present (k * PGSIZE) = true) :
    pd.clear (k * PGSIZE :: as) = (pd.setPte (k * PGSIZE) Pte.zero).clear as := by
  rw [Pgdir.clear, Pgdir.clear, Pgdir.mk.injEq]
  refine ⟨rfl, funext fun i => ?_⟩
  by_cases hi : i = pdx (k * PGSIZE)
  · subst hi
    obtain ⟨t, hpde⟩ : ∃ t, pd.pde (pdx (k * PGSIZE)) = some t := by
      rw [← Option.isSome_iff_exists]
      by_contra hnone
      simp [Pgdir.present, Pgdir.pte, Option.not_isSome_iff_eq_none.mp hnone] at h
    have hpresent : (t.2 (ptx (k * PGSIZE))).present = true := by
      simpa [Pgdir.present, Pgdir.pte, hpde] using h
    simp only [Pgdir.setPte, hpde, update_self, Option.map_some]
    rw [clearTable_cons hk, if_pos ⟨rfl, hpresent⟩]
  · have hset : (pd.setPte (k * PGSIZE) Pte.zero).pde i = pd.pde i := update_of_ne hi _ _
    rw [hset]
    cases pd.pde i with
    | none => rfl
    | some t => rw [Option.map_some, Option.map_some, clearTable_cons hk, if_neg fun hp => hi hp.1]

/-- A change of one entry is not seen at other pages. -/
theorem mapped_setPte {x : Pte} (hk : k < NPAGES) (has : ∀ a ∈ as, ∃ j < NPAGES, a = j * PGSIZE)
    (hnot : k * PGSIZE ∉ as) : mapped (pd.setPte (k * PGSIZE) x) as = mapped pd as := by
  apply List.filterMap_congr
  intro a ha
  obtain ⟨j, hj, rfl⟩ := has a ha
  rw [pte_setPte_of_ne]
  rw [same_page (page_lt hj) (page_lt hk)]
  rintro he
  rw [Nat.mul_div_cancel _ (by norm_num), Nat.mul_div_cancel _ (by norm_num)] at he
  exact hnot (he ▸ ha)

theorem visitPage_of_not_present (h : pd.present k = false) (hm : m.pgdir = pd)
    (free : ℕ → VmM Unit) : visitPage free k m = .ok ((), m) := by
  subst hm
  cases hpde : m.pgdir.pde (pdx k) with
  | none => exact visitPage_absent hpde
  | some t =>
    rw [visitPage_present (by rw [hpde]; rfl)]
    have hpte : m.pgdir.pte k = some (t.2 (ptx k)) := by simp [Pgdir.pte, hpde]
    rw [Pgdir.present, hpte] at h
    rw [hpte]
    rcases he : t.2 (ptx k) with ⟨_ | _, perm, pa⟩
    · rfl
    · rw [he] at h
      cases h

theorem mapped_cons_absent (h : pd.present k = false) : mapped pd (k :: as) = mapped pd as := by
  apply List.filterMap_cons_none
  rw [Option.map_eq_none_iff, Option.filter_eq_none_iff]
  intro e he hp
  simp [Pgdir.present, he, hp] at h

theorem mapped_cons_present {perm : Perm} {pa : ℕ} (h : pd.pte k = some ⟨true, perm, pa⟩) :
    mapped pd (k :: as) = pa :: mapped pd as := by
  apply List.filterMap_cons_some
  rw [h]
  rfl

theorem exists_pte_of_present (h : pd.present k = true) :
    ∃ perm pa, pd.pte k = some ⟨true, perm, pa⟩ := by
  rw [Pgdir.present] at h
  rcases hpte : pd.pte k with _ | ⟨_ | _, perm, pa⟩
  · rw [hpte] at h
    cases h
  · rw [hpte] at h
    cases h
  · exact ⟨perm, pa, rfl⟩

/-- **What the visits do.**  By induction on the pages: the present ones are freed in turn, and
their entries cleared, until one of them is not to be freed. -/
theorem visitPages_eq (hnodup : as.Nodup) (has : ∀ a ∈ as, ∃ j < NPAGES, a = j * PGSIZE) :
    visitPages (kfreeChecked kend) as m =
      if ∀ pa ∈ mapped m.pgdir as, Freeable kend pa then
        .ok ((), ⟨m.pgdir.clear as, (mapped m.pgdir as).reverse ++ m.free⟩)
      else .error "kfree" := by
  induction as generalizing m with
  | nil =>
    rw [if_pos (by simp [mapped]), clear_nil]
    rfl
  | cons a as ih =>
    obtain ⟨hnot, hnodup'⟩ := List.nodup_cons.mp hnodup
    obtain ⟨k, hk, rfl⟩ := has a List.mem_cons_self
    have has' : ∀ b ∈ as, ∃ j < NPAGES, b = j * PGSIZE := fun b hb =>
      has b (List.mem_cons_of_mem _ hb)
    rw [visitPages_cons]
    cases hp : m.pgdir.present (k * PGSIZE) with
    | false =>
      rw [visitPage_of_not_present hp rfl, mapped_cons_absent hp, clear_cons_absent hk hp]
      exact ih hnodup' has'
    | true =>
      obtain ⟨perm, pa, hpte⟩ := exists_pte_of_present hp
      have hsome : (m.pgdir.pde (pdx (k * PGSIZE))).isSome := by
        rw [Pgdir.pte] at hpte
        exact Option.isSome_of_mem (Option.map_eq_some_iff.mp hpte).choose_spec.1
      rw [visitPage_present hsome, hpte, unmapPte_checked, mapped_cons_present hpte]
      by_cases hfree : Freeable kend pa
      · have hall : (∀ x ∈ mapped m.pgdir as, Freeable kend x) ↔
            ∀ x ∈ pa :: mapped m.pgdir as, Freeable kend x := by
          rw [List.forall_mem_cons]
          exact (and_iff_right hfree).symm
        rw [if_pos hfree]
        change visitPages (kfreeChecked kend) as _ = _
        rw [ih hnodup' has']
        rw [mapped_setPte hk has' hnot, clear_cons_present hk hp, List.reverse_cons,
          List.append_assoc]
        exact if_congr hall rfl rfl
      · rw [if_neg hfree, if_neg fun h => hfree (h pa List.mem_cons_self)]
        rfl

theorem pagesFrom_nodup (oldsz k : ℕ) : (pagesFrom oldsz k).Nodup := by
  apply List.Nodup.map _ List.nodup_range'
  intro i j hij
  exact Nat.eq_of_mul_eq_mul_right (by norm_num) hij

theorem mem_pagesFrom {oldsz a : ℕ} (hold : oldsz ≤ KERNBASE) (ha : a ∈ pagesFrom oldsz k) :
    ∃ j < NPAGES, a = j * PGSIZE := by
  obtain ⟨j, hj, rfl⟩ := List.mem_map.mp ha
  have hpages := Mem.pages_le hold
  have hj := List.mem_range'_1.mp hj
  exact ⟨j, lt_npages (by omega), rfl⟩

end Effect

/-! ## The function -/

section Function

variable {newsz oldsz : BitVec 32} {m : Mmu}

theorem deallocuvm32_eq {free : ℕ → VmM Unit} {fuel : ℕ} (hlt : newsz < oldsz)
    (hold : oldsz.toNat ≤ KERNBASE) (hfuel : NUSER < fuel) :
    deallocuvm32 free fuel oldsz newsz m =
      (visitPages free (pageAddrs newsz.toNat oldsz.toNat) m).map fun p => (some newsz, p.2) := by
  have hlt' := BitVec.lt_def.mp hlt
  have hnew : newsz.toNat ≤ KERNBASE := by omega
  have hround : (PGROUNDUP newsz).toNat = pages newsz.toNat * PGSIZE := by
    rw [toNat_PGROUNDUP, Mem.pgroundup_pages hnew]
  have hpages := Mem.pages_le hold
  obtain ⟨n, rfl⟩ : ∃ n, fuel = n + 1 := ⟨fuel - 1, by omega⟩
  have hloop : deallocWhile free oldsz (n + 1) (PGROUNDUP newsz) m = _ :=
    deallocWhile_eq hold hround (Mem.pages_le hnew) (by omega)
  have hrun : deallocuvm32 free (n + 1) oldsz newsz m =
      (deallocWhile free oldsz (n + 1) (PGROUNDUP newsz) m).bind fun p =>
        .ok (p.1.map fun _ => newsz, p.2) := by
    rw [deallocuvm32, if_neg (BitVec.not_le.mpr hlt)]
    rfl
  rw [hrun, hloop, pageAddrs_eq hnew hold]
  cases visitPages free (pagesFrom oldsz.toNat (pages newsz.toNat)) m <;> rfl

/-- **Skipping absent tables is visiting every page.**  For every page directory, and for all sizes
up to `KERNBASE`, the loop ends; it does what a visit of every page address from `PGROUNDUP(newsz)`
below `oldsz` does, in their order.  Each page that a present entry there is mapped to goes to the
free list once for it, these entries become 0, and all other entries of the directory and of its
tables stay; or, if `kfree` does not take one of the pages, both stop with its panic. -/
theorem deallocuvm_skips (kend fuel : ℕ) (m : Mmu) (hlt : newsz < oldsz)
    (hold : oldsz.toNat ≤ KERNBASE) (hfuel : NUSER < fuel) :
    let as := pageAddrs newsz.toNat oldsz.toNat
    deallocuvm32 (kfreeChecked kend) fuel oldsz newsz m =
        (visitPages (kfreeChecked kend) as m).map (fun p => (some newsz, p.2)) ∧
      deallocuvm32 (kfreeChecked kend) fuel oldsz newsz m =
        if ∀ pa ∈ mapped m.pgdir as, Freeable kend pa then
          .ok (some newsz, ⟨m.pgdir.clear as, (mapped m.pgdir as).reverse ++ m.free⟩)
        else .error "kfree" := by
  intro as
  have hskip : deallocuvm32 (kfreeChecked kend) fuel oldsz newsz m = _ :=
    deallocuvm32_eq hlt hold hfuel
  refine ⟨hskip, ?_⟩
  have hlt' := BitVec.lt_def.mp hlt
  have has : as = pagesFrom oldsz.toNat (pages newsz.toNat) := pageAddrs_eq (by omega) hold
  have hnodup : as.Nodup := has ▸ pagesFrom_nodup _ _
  have hpage : ∀ a ∈ as, ∃ j < NPAGES, a = j * PGSIZE := has ▸ fun a ha => mem_pagesFrom hold ha
  rw [hskip, visitPages_eq hnodup hpage]
  split_ifs <;> rfl

/-- The last page of the first page table and the first page of the third are present; there is no
second page table. -/
def twoTables : Mmu :=
  ⟨⟨0x3000, fun i =>
    if i = 0 then
      some (0x4000, fun j => if j = 1023 then ⟨true, ⟨true, true⟩, 0x200000⟩ else Pte.zero)
    else if i = 2 then
      some (0x5000, fun j => if j = 0 then ⟨true, ⟨true, true⟩, 0x201000⟩ else Pte.zero)
    else none⟩, []⟩

theorem deallocuvm_skips_absent :
    deallocuvm32 (kfreeChecked 0x80108000) (NUSER + 1) 0x801000#32 0x3FF000#32 twoTables =
      .ok (some 0x3FF000#32,
        ⟨twoTables.pgdir.clear (pageAddrs 0x3FF000 0x801000), [0x201000, 0x200000]⟩) := by
  have h := (deallocuvm_skips 0x80108000 (NUSER + 1) twoTables
    (by decide : 0x3FF000#32 < 0x801000#32) (by decide) (Nat.lt_succ_self _)).2
  have hmapped : mapped twoTables.pgdir (pageAddrs 0x3FF000 0x801000) = [0x200000, 0x201000] := by
    rw [pageAddrs_eq (by decide) (by decide)]
    decide +kernel
  have hnew : (0x3FF000#32).toNat = 0x3FF000 := rfl
  have hold : (0x801000#32).toNat = 0x801000 := rfl
  rw [hnew, hold, hmapped, if_pos (by decide)] at h
  exact h

/-! ## The function without checks -/

theorem freePte_eq (a : ℕ) (pte : Option Pte) : freePte a pte = unmapPte kfree a pte := by
  match pte with
  | none => rfl
  | some ⟨false, _, _⟩ => rfl
  | some ⟨true, _, _⟩ => rfl

theorem deallocLoop_absent {sz n a : ℕ} (hlt : a < sz) (h : m.pgdir.pde (pdx a) = none) :
    deallocLoop sz (n + 1) a m = deallocLoop sz n ((pdx a + 1) * 2 ^ 22) m := by
  rw [deallocLoop, if_pos hlt]
  change (walkpgdir a false m).bind _ = _
  rw [walkpgdir_false, h]
  rfl

theorem deallocLoop_present {sz n a : ℕ} (hlt : a < sz) (h : (m.pgdir.pde (pdx a)).isSome) :
    deallocLoop sz (n + 1) a m =
      (visitPage kfree a m).bind fun p => deallocLoop sz n (a + PGSIZE) p.2 := by
  rw [deallocLoop, if_pos hlt, visitPage_present h, ← freePte_eq]
  change (walkpgdir a false m).bind _ = _
  rw [walkpgdir_false, h]
  rfl

/-- The loop of `Xv6Mlfq.Vm.PageTable` takes the same rounds. -/
theorem deallocLoop_eq_while (hold : oldsz.toNat ≤ KERNBASE) {n k : ℕ} {a : BitVec 32}
    (ha : a.toNat = k * PGSIZE) :
    deallocLoop oldsz.toNat n (k * PGSIZE) m =
      (deallocWhile kfree oldsz n a m).map fun p => ((), p.2) := by
  induction n generalizing k a m with
  | zero => rfl
  | succ n ih =>
    have hlt : k * PGSIZE < oldsz.toNat ↔ a < oldsz := by rw [BitVec.lt_def, ha]
    by_cases hlive : k * PGSIZE < oldsz.toNat
    swap
    · rw [deallocLoop, deallocWhile, if_neg hlive, if_neg (mt hlt.mpr hlive)]
      rfl
    have hk : k < NUSER := by lia
    have hround : deallocWhile kfree oldsz (n + 1) a m =
        (deallocBody kfree a m).bind fun p => deallocWhile kfree oldsz n (p.1 + 4096#32) p.2 := by
      rw [deallocWhile, if_pos (hlt.mp hlive)]
      rfl
    rw [hround]
    cases hpde : m.pgdir.pde (pdx a.toNat) with
    | none =>
      have hjump : (pdx (k * PGSIZE) + 1) * 2 ^ 22 = (k / 1024 + 1) * 1024 * PGSIZE := by
        rw [pdx_page (lt_npages hk)]
        ring
      rw [deallocBody_absent hpde, deallocLoop_absent hlive (ha ▸ hpde), hjump]
      exact ih (toNat_jump ha hk)
    | some t =>
      have hsome : (m.pgdir.pde (pdx a.toNat)).isSome := by rw [hpde]; rfl
      have hmul : k * PGSIZE + PGSIZE = (k + 1) * PGSIZE := by ring
      rw [deallocBody_present hsome, deallocLoop_present hlive (ha ▸ hsome), ha, hmul]
      cases visitPage kfree (k * PGSIZE) m with
      | error e => rfl
      | ok p => exact ih (toNat_next ha hk)

end Function

end Xv6Mlfq.Vm
