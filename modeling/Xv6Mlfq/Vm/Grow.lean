import Xv6Mlfq.Vm.Build

/-!
# `growproc` grows exactly, or not at all

`sbrk(n)` should make a process of size `sz` one of size `sz + n`, and if it cannot, leave it as
it is.  Growing does: when there are not enough pages, the new ones go back.  Shrinking does too,
to any size but 0.  The new size 0 of `deallocuvm` is taken for an error, after the pages
have been freed; and a size below 0 wraps around to one that is above the old size, with which
`deallocuvm` has nothing to do and `growproc` returns 0.

## Main definitions

* `Ram.user r k` — what the process sees at page number `k`.
* `ExactOrNothing` — what `growproc` should do.

## Main results

* `growproc_exact_iff` — it does, except for shrinking to size 0 or below a process that has pages.
* `growproc_to_zero` — the process that shrinks by its size.
-/

namespace Xv6Mlfq.Mem

open Function (update)
open Wp (wp wp_mono wp_bind wp_pure)
open Vm (PGSIZE KERNBASE NUSER Pgdir Pte Perm Mmu Single Matches)

variable {F : String → Prop} {r r' : Ram} {sz k : ℕ} {n : BitVec 32}

/-! ## What a process sees -/

/-- The entry of page number `k`, and what is in the page -/
def Ram.user (r : Ram) (k : ℕ) : Option (Pte × (ℕ → UInt8)) :=
  (r.pgdir.entry k).map fun e => (e, r.mem e.addr)

theorem user_congr (hentry : r'.pgdir.entry k = r.pgdir.entry k)
    (hmem : ∀ e, r.pgdir.entry k = some e → r'.mem e.addr = r.mem e.addr) :
    r'.user k = r.user k := by
  rw [Ram.user, Ram.user, hentry]
  cases he : r.pgdir.entry k with
  | none => rfl
  | some e => rw [Option.map_some, Option.map_some, hmem e he]

theorem Undone.user (h : Undone r r') (hs : Single r.toMmu) (hk : k < NUSER) :
    r'.user k = r.user k := by
  have hentry : r'.pgdir.entry k = r.pgdir.entry k := by rw [h.entry]
  apply user_congr hentry
  intro e he
  apply h.mem
  · exact hs.not_free hk he
  · exact (hs.of_total h.total).not_free hk (hentry.trans he)

theorem Freed.user {S : ℕ → Prop} (h : Freed S r r') (hs : Single r.toMmu) (hk : k < NUSER)
    (hS : ¬ S k) : r'.user k = r.user k := by
  apply user_congr (h.kept k hS)
  intro e he
  apply h.mem
  exact (hs.of_total h.total).not_free hk ((h.kept k hS).trans he)

theorem Grown.user {fill : ℕ → Perm × (ℕ → UInt8)} {k₀ k₁ : ℕ} (h : Grown fill k₀ k₁ r r')
    (hs : Single r.toMmu) (hk : k < NUSER) (hout : ¬ (k₀ ≤ k ∧ k < k₁)) :
    r'.user k = r.user k := by
  apply user_congr (h.kept k hout)
  intro e he
  apply h.mem
  exact hs.not_free hk he

/-! ## The specification -/

/-- A process of size `sz` runs in the page directory at work. -/
structure Space (r : Ram) (sz : ℕ) : Prop where
  lt : sz < KERNBASE
  mapped : Matches r.pgdir sz
  single : Single r.toMmu

theorem matches_iff {pd : Pgdir} :
    Matches pd sz ↔ ∀ k < NUSER, (pd.entry k ≠ none ↔ k < pages sz) := by
  have hentry : ∀ {k}, k < NUSER → (pd.entry k ≠ none ↔ pd.present (k * PGSIZE) = true) := by
    intro k hk
    rw [Ne, Vm.entry_eq_none (Vm.lt_npages hk), Bool.not_eq_false]
  constructor
  · intro h k hk
    rw [hentry hk, lt_pages]
    apply h
    · lia
    · exact Nat.mul_mod_left _ _
  · intro h va hva ha
    have hpage : va / PGSIZE * PGSIZE = va := Nat.div_mul_cancel (Nat.dvd_of_mod_eq_zero ha)
    have hk : va / PGSIZE < NUSER := by lia
    rw [← hpage, ← hentry hk, h _ hk, lt_pages]

/-- The size is `sz + n` and the pages are those below it, the old ones as they were and the new
ones zero; or nothing has changed. -/
def ExactOrNothing (sz : ℕ) (n : BitVec 32) (r : Ram) : Option ℕ → Ram → Prop
  | some sz', r' => (sz' : ℤ) = sz + n.toInt ∧ sz' < KERNBASE ∧ Matches r'.pgdir sz' ∧
      (∀ k < NUSER, k * PGSIZE < sz → k * PGSIZE < sz' → r'.user k = r.user k) ∧
      ∀ k < NUSER, sz ≤ k * PGSIZE → k * PGSIZE < sz' → ∃ e, r'.user k = some (e, fun _ => 0)
  | none, r' => ∀ k < NUSER, r'.user k = r.user k

theorem ExactOrNothing.grown {sz' : ℕ} (h : Space r sz) (hle : sz ≤ sz') (hlt : sz' < KERNBASE)
    (hn : (sz' : ℤ) = sz + n.toInt) (hg : Grown zeroed (pages sz) (pages sz') r r') :
    ExactOrNothing sz n r (some sz') r' := by
  refine ⟨hn, hlt, ?_, ?_, ?_⟩
  · rw [matches_iff]
    intro k hk
    by_cases hin : pages sz ≤ k ∧ k < pages sz'
    · obtain ⟨pa, -, hentry, -⟩ := hg.fresh k hin.1 hin.2
      rw [hentry]
      simp [hin.2]
    · have hold := matches_iff.mp h.mapped k hk
      have hmono := pages_mono hle
      rw [hg.kept k hin, hold]
      omega
  · intro k hk hold _
    apply hg.user h.single hk
    rw [lt_pages.symm] at hold
    omega
  · intro k hk hold hnew
    obtain ⟨pa, -, hentry, hzero⟩ := hg.fresh k (range_pages.mp ⟨hold, hnew⟩).1
      (range_pages.mp ⟨hold, hnew⟩).2
    refine ⟨⟨true, (zeroed k).1, pa⟩, ?_⟩
    rw [Ram.user, hentry, Option.map_some, hzero]
    rfl

theorem ExactOrNothing.freed {sz' : ℕ} (h : Space r sz) (hle : sz' ≤ sz)
    (hn : (sz' : ℤ) = sz + n.toInt)
    (hf : Freed (fun j => sz' ≤ j * PGSIZE ∧ j * PGSIZE < sz) r r') :
    ExactOrNothing sz n r (some sz') r' := by
  refine ⟨hn, hle.trans_lt h.lt, ?_, ?_, ?_⟩
  · rw [matches_iff]
    intro k hk
    rw [lt_pages]
    by_cases hin : sz' ≤ k * PGSIZE ∧ k * PGSIZE < sz
    · rw [hf.gone k hin]
      simp [hin.1]
    · rw [hf.kept k hin, matches_iff.mp h.mapped k hk, lt_pages]
      omega
  · intro k hk hold hnew
    apply hf.user h.single hk
    omega
  · intro k hk hold hnew
    omega

/-! ## `growproc` -/

/-- A size that is not below 0 does not wrap. -/
theorem newsz_eq (hsz : sz < KERNBASE) (hn : 0 ≤ (sz : ℤ) + n.toInt) :
    (((sz + n.toNat) % 2 ^ 32 : ℕ) : ℤ) = sz + n.toInt := by
  rw [BitVec.toInt_eq_toNat_cond] at *
  norm_num at *
  split_ifs at * <;> omega

/-- One that is wraps to a size above the kernel's first address. -/
theorem newsz_wraps (hsz : sz < KERNBASE) (hn : (sz : ℤ) + n.toInt < 0) :
    sz ≤ (sz + n.toNat) % 2 ^ 32 := by
  rw [BitVec.toInt_eq_toNat_cond] at hn
  norm_num at *
  split_ifs at hn <;> omega

theorem wp_growproc_pos (h : Space r sz) (hn : 0 < n.toInt) :
    wp F (growproc sz n) (ExactOrNothing sz n r) r := by
  have heq := newsz_eq h.lt (n := n) (by omega)
  rw [growproc, if_pos hn, wp_bind]
  apply wp_mono (wp_allocuvm h.single h.lt.le ?_)
  · intro sz' r'
    rintro (⟨rfl, hu⟩ | ⟨hlt, rfl, hg⟩)
    · rw [if_pos rfl, wp_pure]
      intro k hk
      exact hu.user h.single hk
    · rw [max_eq_right (by omega)] at hg ⊢
      rw [if_neg (by omega), wp_pure]
      exact .grown h (by omega) hlt heq hg
  · intro j hj hold
    by_contra hne
    have := (matches_iff.mp h.mapped j hj).mp hne
    omega

/-- What `growproc` does with `n < 0` -/
theorem wp_growproc_neg (h : Space r sz) (hn : n.toInt < 0) :
    wp F (growproc sz n) (fun res r' => ∃ newsz, newsz = (sz + n.toNat) % 2 ^ 32 ∧
      res = (if min sz newsz = 0 then none else some (min sz newsz)) ∧
      Freed (fun j => newsz ≤ j * PGSIZE ∧ j * PGSIZE < sz) r r') r := by
  rw [growproc, if_neg (by omega), if_pos hn, wp_bind]
  apply wp_mono (wp_deallocuvm h.lt.le (.of_single h.single))
  rintro sz' r' ⟨hsz', hf⟩
  split_ifs with h0
  · apply wp_pure.mpr
    exact ⟨_, rfl, by rw [← hsz', if_pos h0], hf⟩
  · apply wp_pure.mpr
    exact ⟨_, rfl, by rw [← hsz', if_neg h0], hf⟩

theorem wp_growproc_shrink (h : Space r sz) (hn : n.toInt < 0) (hpos : 0 < (sz : ℤ) + n.toInt) :
    wp F (growproc sz n) (ExactOrNothing sz n r) r := by
  have heq := newsz_eq h.lt hpos.le
  apply wp_mono (wp_growproc_neg h hn)
  rintro _ r' ⟨newsz, rfl, rfl, hf⟩
  rw [min_eq_right (by omega), if_neg (by omega)]
  exact .freed h (by omega) heq hf

/-- A process without pages cannot shrink. -/
theorem wp_growproc_empty (h : Space r 0) (hn : n.toInt < 0) :
    wp F (growproc 0 n) (ExactOrNothing 0 n r) r := by
  apply wp_mono (wp_growproc_neg h hn)
  rintro _ r' ⟨newsz, -, rfl, hf⟩
  rw [Nat.zero_min, if_pos rfl]
  intro k hk
  apply hf.user h.single hk
  omega

/-- A process with pages that shrinks to size 0 loses them, with an error; one that shrinks below
size 0 keeps them, without one. -/
theorem wp_growproc_wrong (h : Space r sz) (hsz : 0 < sz) (hn : (sz : ℤ) + n.toInt ≤ 0) :
    wp F (growproc sz n) (fun res r' => ¬ ExactOrNothing sz n r res r') r := by
  apply wp_mono (wp_growproc_neg h (by omega))
  rintro _ r' ⟨newsz, hnew, rfl, hf⟩
  by_cases hwrap : (sz : ℤ) + n.toInt < 0
  · have hle := newsz_wraps h.lt hwrap
    rw [min_eq_left (by omega), if_neg (by omega)]
    rintro ⟨heq, -⟩
    omega
  · have heq := newsz_eq h.lt (n := n) (by omega)
    have hzero : newsz = 0 := by omega
    rw [hzero, Nat.min_zero, if_pos rfl]
    intro hsame
    have hgone : r'.user 0 = none := by
      rw [Ram.user, hf.gone 0 (by omega)]
      rfl
    have hmapped := (matches_iff.mp h.mapped 0 (by norm_num)).mpr (lt_pages.mpr (by omega))
    have := hsame 0 (by norm_num)
    rw [hgone, Ram.user, eq_comm, Option.map_eq_none_iff] at this
    exact hmapped this

/-! ## A process of one page -/

/-- Page 1 is the page directory, and page 2 a page table. -/
def oneTable : Pgdir := (⟨1 * PGSIZE, fun _ => none⟩ : Pgdir).addTable 0 (2 * PGSIZE)

/-- Page 3 is the page of the process, and page 4 is free. -/
def onePage : Ram where
  pgdir := oneTable.setPte (0 * PGSIZE) ⟨true, ⟨true, true⟩, 3 * PGSIZE⟩
  free := [4 * PGSIZE]
  mem := fun _ _ => 7

theorem onePage_entry (k : ℕ) : onePage.pgdir.entry k ≠ none ↔ k = 0 := by
  have hset : onePage.pgdir.entry =
      update oneTable.entry 0 (some ⟨true, ⟨true, true⟩, 3 * PGSIZE⟩) :=
    Vm.entry_setPte (by norm_num) rfl _
  rw [hset, oneTable, Vm.entry_addTable rfl]
  by_cases hk : k = 0
  · simp [hk]
  · simp [hk, entry_empty]

theorem onePage_refs (x : ℕ) : onePage.pgdir.refs x = (if 1 * PGSIZE = x then 1 else 0) +
    (if 2 * PGSIZE = x then 1 else 0) + (if 3 * PGSIZE = x then 1 else 0) := by
  have hnone : oneTable.entry 0 = none := by rw [oneTable, Vm.entry_addTable rfl, entry_empty]
  have hput : onePage.pgdir.refs x = oneTable.refs x + if 0 < NUSER ∧
      3 * PGSIZE = x then 1 else 0 :=
    Vm.refs_put (by norm_num) rfl hnone rfl x
  have huser : 0 < NUSER := by norm_num
  rw [oneTable, Vm.refs_addTable (by norm_num) rfl, refs_empty] at hput
  rw [hput]
  simp only [huser, true_and]

theorem onePage_total (x : ℕ) : onePage.total x =
    (if 4 * PGSIZE = x then 1 else 0) + (if 1 * PGSIZE = x then 1 else 0) +
      (if 2 * PGSIZE = x then 1 else 0) + (if 3 * PGSIZE = x then 1 else 0) := by
  rw [Mmu.total, onePage_refs, onePage, List.count_singleton]
  simp only [beq_iff_eq]
  omega

theorem onePage_space : Space onePage PGSIZE := by
  refine ⟨by norm_num, ?_, ?_, ?_⟩
  · rw [matches_iff]
    intro k _
    rw [onePage_entry, lt_pages]
    norm_num
  · intro x
    rw [onePage_total]
    norm_num
    split_ifs <;> omega
  · rw [onePage_total]
    decide

/-- A process of one page that shrinks by a page, or by two -/
theorem growproc_to_zero : Space onePage PGSIZE ∧
    (¬ ∃ res r', growproc PGSIZE (-4096) onePage = .ok (res, r') ∧
      ExactOrNothing PGSIZE (-4096) onePage res r') ∧
    ¬ ∃ res r', growproc PGSIZE (-8192) onePage = .ok (res, r') ∧
      ExactOrNothing PGSIZE (-8192) onePage res r' := by
  refine ⟨onePage_space, ?_, ?_⟩
  · rintro ⟨res, r', hrun, hexact⟩
    have hwrong := wp_growproc_wrong (F := fun _ => False) onePage_space (n := -4096) (by decide)
      (by decide)
    exact Wp.wp_ok hwrong hrun hexact
  · rintro ⟨res, r', hrun, hexact⟩
    have hwrong := wp_growproc_wrong (F := fun _ => False) onePage_space (n := -8192) (by decide)
      (by decide)
    exact Wp.wp_ok hwrong hrun hexact

/-- **`growproc` is exact and all-or-nothing**, for every size, every amount and every number of
free pages, unless a process that has pages is to have
none, or less than none. -/
theorem growproc_exact_iff (h : Space r sz) :
    (∃ res r', growproc sz n r = .ok (res, r') ∧ ExactOrNothing sz n r res r') ↔
      0 ≤ n.toInt ∨ 0 < (sz : ℤ) + n.toInt ∨ sz = 0 := by
  constructor
  · rintro ⟨res, r', hrun, hexact⟩
    by_contra hcond
    have hwrong := wp_growproc_wrong (F := fun _ => False) (n := n) h (by omega) (by omega)
    exact Wp.wp_ok hwrong hrun hexact
  · intro hcond
    apply Wp.exists_ok
    rcases lt_trichotomy n.toInt 0 with hneg | hzero | hpos
    · rcases hcond with h0 | hgt | rfl
      · omega
      · exact wp_growproc_shrink h hneg hgt
      · exact wp_growproc_empty h hneg
    · rw [growproc, if_neg (by omega), if_neg (by omega), wp_pure]
      refine ⟨by omega, h.lt, h.mapped, fun _ _ _ _ => rfl, ?_⟩
      intro k _ hge hlt
      omega
    · exact wp_growproc_pos h hpos

/-- The process of one page asks for one more. -/
theorem growproc_exact_iff_onePage : ∃ res r', growproc PGSIZE 4096 onePage = .ok (res, r') ∧
    ExactOrNothing PGSIZE 4096 onePage res r' :=
  (growproc_exact_iff onePage_space).mpr (.inl (by decide))

end Xv6Mlfq.Mem
