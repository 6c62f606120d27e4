import Xv6Mlfq.Vm.PageTable
import Mathlib.Data.Finset.Card
import Mathlib.Tactic.NormNum
import Mathlib.Tactic.Ring

/-!
# Address spaces match their size

An address space of size `sz` has the pages below `sz`, and no others below `KERNBASE`.  The
functions that make and change address spaces keep this, with one exception: `growproc` takes the
new size 0 for an error of `deallocuvm`, and keeps the old size of a process that has no pages
any more.

## Main definitions

* `Matches pd sz` — the user pages of `pd` are those below `sz`.
* `Keeps` — the call does not shrink a process to size 0.

## Main results

* `pages_match_size` — in every run without such a shrinking, address spaces match their sizes, and
  `copyuvm` does not panic.
* `shrink_to_zero_keeps_size` — the run in which they do not match.
-/

namespace Xv6Mlfq.Vm

open Function (update update_self update_of_ne)
open Wp (wp wp_mono wp_and wp_bind wp_pure wp_look wp_throw wp_modify)
open Transition (exec Along)

/-! ## Entries -/

variable {va a pa k sz oldsz n newsz : ℕ} {pd : Pgdir} {perm : Perm} {data : DataAddr}

theorem same_page (hva : va < 2 ^ 32) (ha : a < 2 ^ 32) :
    pdx va = pdx a ∧ ptx va = ptx a ↔ va / PGSIZE = a / PGSIZE := by
  unfold pdx ptx
  norm_num at *
  omega

theorem present_setPte {x : Pte} : (pd.setPte a x).present va =
      if pdx va = pdx a ∧ ptx va = ptx a then (pd.pde (pdx a)).isSome && x.present
      else pd.present va := by
  by_cases hd : pdx va = pdx a
  · cases hpde : pd.pde (pdx a) with
    | none => simp [Pgdir.present, Pgdir.pte, Pgdir.setPte, hd, hpde]
    | some t =>
      by_cases ht : ptx va = ptx a
      · simp [Pgdir.present, Pgdir.pte, Pgdir.setPte, hd, ht, hpde]
      · simp [Pgdir.present, Pgdir.pte, Pgdir.setPte, hd, ht, hpde, update_of_ne]
  · simp [Pgdir.present, Pgdir.pte, Pgdir.setPte, hd, update_of_ne]

/-- The same pages are mapped. -/
def Same (pd pd' : Pgdir) : Prop := ∀ va, pd'.present va = pd.present va

theorem Same.refl (pd : Pgdir) : Same pd pd := fun _ => rfl

/-- The fault is not a panic of `copyuvm`. -/
def Harmless (msg : String) : Prop :=
  msg ≠ "copyuvm: pte should exist" ∧ msg ≠ "copyuvm: page not present"

instance : DecidablePred Harmless := fun _ => inferInstanceAs (Decidable (_ ∧ _))

variable {F : String → Prop} {m : Mmu}

theorem wp_ite {α : Type} {c : Prop} [Decidable c] {x y : VmM α} {Q : α → Mmu → Prop}
    (hx : wp F x Q m) (hy : wp F y Q m) : wp F (if c then x else y) Q m := by
  split_ifs
  · exact hx
  · exact hy

theorem wp_kalloc {Q : Option ℕ → Mmu → Prop} (hn : m.free = [] → Q none m)
    (hs : ∀ pg rest, m.free = pg :: rest → Q (some pg) { m with free := rest }) :
    wp F kalloc Q m := by
  unfold wp kalloc
  cases hfree : m.free with
  | nil => exact hn hfree
  | cons pg rest => exact hs pg rest hfree

theorem wp_walkpgdir {alloc : Bool} :
    wp F (walkpgdir va alloc) (fun there m' => Same m.pgdir m'.pgdir ∧
      (alloc = false → m' = m) ∧ (there = true → (m'.pgdir.pde (pdx va)).isSome) ∧
      (there = false → m.pgdir.pde (pdx va) = none)) m := by
  refine wp_bind.mpr (wp_look.mpr ?_)
  cases hpde : m.pgdir.pde (pdx va) with
  | some t => exact wp_pure.mpr ⟨Same.refl _, fun _ => rfl, fun _ => by simp [hpde], nofun⟩
  | none =>
    cases alloc with
    | false => exact wp_pure.mpr ⟨Same.refl _, fun _ => rfl, nofun, fun _ => rfl⟩
    | true =>
      refine wp_bind.mpr (wp_kalloc (fun _ => wp_pure.mpr ⟨Same.refl _, nofun, nofun, fun _ => rfl⟩)
        ?_)
      intro pg rest _
      refine wp_bind.mpr (wp_modify.mpr (wp_pure.mpr ⟨fun va' => ?_, nofun, ?_, nofun⟩))
      · by_cases hd : pdx va' = pdx va
        · simp [Pgdir.present, Pgdir.pte, hd, hpde, Pte.zero]
        · simp [Pgdir.present, Pgdir.pte, update_of_ne hd]
      · simp

/-- One page is mapped. -/
theorem wp_mapPage : wp Harmless (mapPage perm a pa) (fun ok m' =>
      (ok = false → Same m.pgdir m'.pgdir) ∧
      (ok = true → ∀ va, m'.pgdir.present va =
        (m.pgdir.present va || decide (pdx va = pdx a ∧ ptx va = ptx a)))) m := by
  refine wp_bind.mpr (wp_mono wp_walkpgdir fun there m₁ ⟨hsame, _, hthere, _⟩ => ?_)
  split_ifs with ht
  · exact wp_pure.mpr ⟨fun _ => hsame, nofun⟩
  refine wp_bind.mpr (wp_look.mpr ?_)
  split_ifs with hp
  · exact wp_throw.mpr (by decide)
  refine wp_bind.mpr (wp_modify.mpr (wp_pure.mpr ⟨nofun, fun _ va => ?_⟩))
  have hsome := hthere (Bool.eq_true_of_not_eq_false ht)
  rw [present_setPte, hsome, ← hsame va]
  split_ifs with h
  · rw [decide_eq_true h, Bool.or_true, Bool.true_and]
  · rw [decide_eq_false h, Bool.or_false]

theorem pgrounddown_mul (k : ℕ) : pgrounddown (k * PGSIZE) = k * PGSIZE := by
  rw [pgrounddown, Nat.mul_div_cancel _ (by norm_num)]

/-- `mappages` of one aligned page -/
theorem mappages_page (hk : k * PGSIZE < KERNBASE) :
    mappages (k * PGSIZE) PGSIZE pa perm = mapPage perm (k * PGSIZE) pa := by
  have hlast : pgrounddown ((k * PGSIZE + PGSIZE - 1) % 2 ^ 32) = k * PGSIZE := by
    unfold pgrounddown
    lia
  simp only [mappages, pgrounddown_mul, hlast, Nat.sub_self, Nat.zero_div, mapLoop]

/-- The user pages of `pd` are those below `sz`. -/
def Matches (pd : Pgdir) (sz : ℕ) : Prop :=
  ∀ va, va < KERNBASE → va % PGSIZE = 0 → (pd.present va = true ↔ va < sz)

theorem Matches.same {pd' : Pgdir} (h : Matches pd sz) (hs : Same pd pd') : Matches pd' sz := by
  intro va hva ha
  rw [hs va]
  exact h va hva ha

theorem Matches.congr {sz' : ℕ} (h : Matches pd sz)
    (hsz : ∀ va, va < KERNBASE → va % PGSIZE = 0 → (va < sz ↔ va < sz')) : Matches pd sz' :=
  fun va hva ha => (h va hva ha).trans (hsz va hva ha)

/-- One more page at the end -/
theorem Matches.mapOne {pd' : Pgdir} (h : Matches pd (k * PGSIZE)) (hk : k * PGSIZE < KERNBASE)
    (hpd : ∀ va, pd'.present va =
      (pd.present va || decide (pdx va = pdx (k * PGSIZE) ∧ ptx va = ptx (k * PGSIZE)))) :
    Matches pd' ((k + 1) * PGSIZE) := by
  intro va hva ha
  have hb : KERNBASE ≤ 2 ^ 32 := by norm_num
  rw [hpd, Bool.or_eq_true, h va hva ha, decide_eq_true_eq,
    same_page (hva.trans_le hb) (hk.trans_le hb)]
  norm_num at *
  omega

/-! ## Shrinking -/

theorem next_page (hn : oldsz ≤ k * PGSIZE + (n + 1) * PGSIZE) (hk : k * PGSIZE < KERNBASE) :
    (k + 1) * PGSIZE ≤ KERNBASE ∧ oldsz ≤ (k + 1) * PGSIZE + n * PGSIZE := by
  norm_num at *
  omega

theorem next_table (hn : oldsz ≤ k * PGSIZE + (n + 1) * PGSIZE) (hk : k * PGSIZE < KERNBASE) :
    (k / 1024 + 1) * 1024 * PGSIZE ≤ KERNBASE ∧
      oldsz ≤ (k / 1024 + 1) * 1024 * PGSIZE + n * PGSIZE := by
  norm_num at *
  omega

/-- The loop of `deallocuvm`, by induction on its rounds. -/
theorem wp_deallocLoop (hn : oldsz ≤ k * PGSIZE + n * PGSIZE)
    (hold : oldsz ≤ KERNBASE) (hk : k * PGSIZE ≤ KERNBASE) :
    wp Harmless (deallocLoop oldsz n (k * PGSIZE)) (fun _ m' => ∀ va, va < KERNBASE →
    va % PGSIZE = 0 →
      m'.pgdir.present va =
        (m.pgdir.present va && decide (va < k * PGSIZE ∨ oldsz ≤ va))) m := by
  induction n generalizing k m with
  | zero =>
    refine wp_pure.mpr fun va hva ha => ?_
    have : va < k * PGSIZE ∨ oldsz ≤ va := by omega
    simp [this]
  | succ n ih =>
    rw [deallocLoop]
    split_ifs with hlt
    swap
    · refine wp_pure.mpr fun va hva ha => ?_
      have : va < k * PGSIZE ∨ oldsz ≤ va := by omega
      simp [this]
    refine wp_bind.mpr (wp_mono wp_walkpgdir fun there m₁ ⟨_, hm₁, hthere, hnone⟩ => ?_)
    obtain rfl := hm₁ rfl
    split_ifs with ht
    · -- no page table: nothing is mapped up to the next one
      have hnext : (pdx (k * PGSIZE) + 1) * 2 ^ 22 = (pdx (k * PGSIZE) + 1) * 1024 * PGSIZE := by
        ring
      rw [hnext]
      have hpdx : pdx (k * PGSIZE) = k / 1024 := by
        unfold pdx
        norm_num at *
        omega
      rw [hpdx]
      obtain ⟨hle, hlt'⟩ := next_table hn (hlt.trans_le hold)
      refine wp_mono (ih hlt' hle) fun _ m₂ h₂ va hva ha => ?_
      · rw [h₂ va hva ha]
        by_cases hp : m₁.pgdir.present va = true
        · have hd : pdx va ≠ k / 1024 := by
            intro he
            rw [Pgdir.present, Pgdir.pte, he, ← hpdx, hnone ht] at hp
            cases hp
          have : (va < (k / 1024 + 1) * 1024 * PGSIZE ∨ oldsz ≤ va) ↔
              (va < k * PGSIZE ∨ oldsz ≤ va) := by
            unfold pdx at hd
            norm_num at *
            omega
          simp only [this]
        · simp [hp]
    · refine wp_bind.mpr (wp_look.mpr (wp_bind.mpr ?_))
      have hnextk : k * PGSIZE + PGSIZE = (k + 1) * PGSIZE := by ring
      rw [hnextk]
      have hrest : ∀ m₂ : Mmu, (∀ va, va < KERNBASE → va % PGSIZE = 0 →
          m₂.pgdir.present va =
            (m₁.pgdir.present va && decide (va ≠ k * PGSIZE))) →
          wp Harmless (deallocLoop oldsz n ((k + 1) * PGSIZE)) (fun _ m' => ∀ va, va < KERNBASE →
            va % PGSIZE = 0 → m'.pgdir.present va =
              (m₁.pgdir.present va && decide (va < k * PGSIZE ∨ oldsz ≤ va))) m₂ := by
        intro m₂ h₂
        obtain ⟨hle, hlt'⟩ := next_page hn (hlt.trans_le hold)
        refine wp_mono (ih hlt' hle) fun _ m₃ h₃ va hva ha => ?_
        rw [h₃ va hva ha, h₂ va hva ha, Bool.and_assoc, ← Bool.decide_and]
        congr 2
        lia
      have hkb : k * PGSIZE < 2 ^ 32 := by lia
      have hpage : ∀ va, va < KERNBASE → va % PGSIZE = 0 →
          (pdx va = pdx (k * PGSIZE) ∧ ptx va = ptx (k * PGSIZE) ↔ va = k * PGSIZE) := by
        intro va hva ha
        rw [same_page (by lia) hkb]
        lia
      have hat : ∀ va, va = k * PGSIZE → m₁.pgdir.present va = (m₁.pgdir.pte (k * PGSIZE)).any
          Pte.present := by
        rintro va rfl
        rfl
      rcases hpte : m₁.pgdir.pte (k * PGSIZE) with _ | ⟨⟨⟩ | ⟨⟩, perm, pa⟩
      · refine wp_pure.mpr (hrest m₁ fun va hva ha => ?_)
        by_cases he : va = k * PGSIZE
        · rw [hat va he, hpte]
          rfl
        · simp [he]
      · refine wp_pure.mpr (hrest m₁ fun va hva ha => ?_)
        by_cases he : va = k * PGSIZE
        · rw [hat va he, hpte]
          rfl
        · simp [he]
      · simp only [freePte]
        split_ifs with hpa
        · exact wp_throw.mpr (by decide)
        · refine wp_bind.mpr (wp_modify.mpr (wp_modify.mpr (hrest _ fun va hva ha => ?_)))
          rw [present_setPte]
          simp only [hpage va hva ha]
          split_ifs with he
          · simp [Pte.zero, he]
          · simp [he]

theorem pgroundup_eq (h : sz ≤ KERNBASE) : pgroundup sz = (sz + 4095) / 4096 * PGSIZE := by
  unfold pgroundup
  lia

theorem lt_pgroundup (ha : va % PGSIZE = 0) : va < (sz + 4095) / 4096 * PGSIZE ↔ va < sz := by
  lia

theorem wp_deallocuvm (h : Matches m.pgdir oldsz) (hold : oldsz ≤ KERNBASE) :
    wp Harmless (deallocuvm oldsz newsz) (fun r m' =>
      (newsz < oldsz → r = newsz) ∧ (oldsz ≤ newsz → r = oldsz) ∧ Matches m'.pgdir r) m := by
  unfold deallocuvm
  split_ifs with hge
  · exact wp_pure.mpr ⟨fun hlt => absurd hlt (not_lt.mpr hge), fun _ => rfl, h⟩
  have hlt : newsz < oldsz := not_le.mp hge
  rw [pgroundup_eq (hlt.le.trans hold)]
  have hfuel : oldsz ≤ (newsz + 4095) / 4096 * PGSIZE + (oldsz / PGSIZE + 1) * PGSIZE := by lia
  have hle : (newsz + 4095) / 4096 * PGSIZE ≤ KERNBASE := by lia
  refine wp_bind.mpr (wp_mono (wp_deallocLoop hfuel hold hle) fun _ m' h' => wp_pure.mpr ?_)
  refine ⟨fun _ => rfl, fun hle => absurd hlt (not_lt.mpr hle), fun va hva ha => ?_⟩
  rw [h' va hva ha, Bool.and_eq_true, h va hva ha, decide_eq_true_eq, lt_pgroundup ha]
  omega

/-! ## Growing -/

/-- What `allocuvm` takes back after it has run out of memory. -/
theorem wp_undo (h : Matches m.pgdir (k * PGSIZE)) (hold : oldsz ≤ k * PGSIZE)
    (hk : k * PGSIZE < newsz) (hnew : newsz < KERNBASE) :
    wp Harmless (deallocuvm newsz oldsz) (fun _ m' => Matches m'.pgdir oldsz) m := by
  have hlt : oldsz < newsz := hold.trans_lt hk
  unfold deallocuvm
  rw [if_neg (not_le.mpr hlt), pgroundup_eq (hlt.le.trans hnew.le)]
  have hfuel : newsz ≤ (oldsz + 4095) / 4096 * PGSIZE + (newsz / PGSIZE + 1) * PGSIZE := by lia
  have hle : (oldsz + 4095) / 4096 * PGSIZE ≤ KERNBASE := by lia
  refine wp_bind.mpr (wp_mono (wp_deallocLoop hfuel hnew.le hle) fun _ m' h' => wp_pure.mpr ?_)
  intro va hva ha
  rw [h' va hva ha, Bool.and_eq_true, h va hva ha, decide_eq_true_eq, lt_pgroundup ha]
  omega

/-- The loop of `allocuvm`, by induction on its rounds. -/
theorem wp_allocLoop (h : Matches m.pgdir (k * PGSIZE))
    (hold : oldsz ≤ k * PGSIZE) (hk : k * PGSIZE < newsz + PGSIZE) (hnew : newsz < KERNBASE)
    (hn : newsz ≤ k * PGSIZE + n * PGSIZE) :
    wp Harmless (allocLoop oldsz newsz n (k * PGSIZE)) (fun r m' =>
      r = 0 ∧ Matches m'.pgdir oldsz ∨ r = newsz ∧ Matches m'.pgdir newsz) m := by
  have hdone : newsz ≤ k * PGSIZE → Matches m.pgdir newsz := fun hge => h.congr fun va hva ha => by
    lia
  induction n generalizing k m with
  | zero =>
    rw [Nat.zero_mul, Nat.add_zero] at hn
    exact wp_pure.mpr (.inr ⟨rfl, hdone hn⟩)
  | succ n ih =>
    rw [allocLoop]
    split_ifs with hlt
    swap
    · exact wp_pure.mpr (.inr ⟨rfl, hdone (not_lt.mp hlt)⟩)
    refine wp_bind.mpr (wp_kalloc (fun _ => ?_) fun pg rest _ => ?_)
    · refine wp_bind.mpr (wp_mono (wp_undo h hold hlt hnew) fun _ m₁ h₁ => ?_)
      exact wp_pure.mpr (.inl ⟨rfl, h₁⟩)
    refine wp_bind.mpr ?_
    rw [mappages_page (hlt.trans hnew)]
    refine wp_mono wp_mapPage fun ok m₁ ⟨hfalse, htrue⟩ => ?_
    cases ok with
    | true =>
      have h₁ := h.mapOne (hlt.trans hnew) (htrue rfl)
      have hnext : k * PGSIZE + PGSIZE = (k + 1) * PGSIZE := by ring
      obtain ⟨-, hfuel⟩ := next_page hn (hlt.trans hnew)
      rw [if_pos rfl, hnext]
      have hold' : oldsz ≤ (k + 1) * PGSIZE :=
        hold.trans (Nat.mul_le_mul_right PGSIZE (Nat.le_succ k))
      have hk' : (k + 1) * PGSIZE < newsz + PGSIZE := by
        rw [← hnext]
        exact Nat.add_lt_add_right hlt PGSIZE
      refine ih h₁ hold' hk' hfuel fun hge => h₁.congr fun va hva ha => ?_
      clear ih
      lia
    | false =>
      rw [if_neg (by decide)]
      have h₁ := h.same (hfalse rfl)
      refine wp_bind.mpr (wp_mono (wp_undo h₁ hold hlt hnew) fun _ m₂ h₂ => ?_)
      exact wp_bind.mpr (wp_modify.mpr (wp_pure.mpr (.inl ⟨rfl, h₂⟩)))

/-- `allocuvm` returns 0, or the size of what there is. -/
theorem wp_allocuvm (h : Matches m.pgdir oldsz) (hold : oldsz < KERNBASE) :
    wp Harmless (allocuvm oldsz newsz) (fun r m' =>
      (r = 0 → Matches m'.pgdir oldsz) ∧ (r ≠ 0 → Matches m'.pgdir r ∧ r < KERNBASE)) m := by
  unfold allocuvm
  split_ifs with hge hlt
  · exact wp_pure.mpr ⟨fun _ => h, fun h0 => absurd rfl h0⟩
  · exact wp_pure.mpr ⟨fun _ => h, fun _ => ⟨h, hold⟩⟩
  have hnew : newsz < KERNBASE := not_le.mp hge
  rw [pgroundup_eq hold.le]
  have hmatch : Matches m.pgdir ((oldsz + 4095) / 4096 * PGSIZE) :=
    h.congr fun va _ ha => (lt_pgroundup ha).symm
  have hfuel : newsz ≤ (oldsz + 4095) / 4096 * PGSIZE + (newsz / PGSIZE + 1) * PGSIZE := by lia
  refine wp_mono (wp_allocLoop hmatch (by lia) (by lia) hnew hfuel) ?_
  rintro r m' (⟨rfl, h'⟩ | ⟨rfl, h'⟩)
  · exact ⟨fun _ => h', fun h0 => absurd rfl h0⟩
  · refine ⟨fun h0 => ?_, fun _ => ⟨h', hnew⟩⟩
    have : oldsz = r := by omega
    rwa [this]

/-- `growproc`, unless it is to shrink the process to size 0 -/
theorem wp_growproc {n : BitVec 32} (h : Matches m.pgdir sz) (hsz : sz < KERNBASE)
    (hn : (sz + n.toNat) % 2 ^ 32 ≠ 0) :
    wp Harmless (growproc sz n) (fun r m' =>
      Matches m'.pgdir (r.getD sz) ∧ r.getD sz < KERNBASE) m := by
  unfold growproc
  split_ifs with hpos hneg
  · refine wp_bind.mpr (wp_mono (wp_allocuvm h hsz) fun r m' ⟨h0, hne⟩ => ?_)
    split_ifs with hr
    · exact wp_pure.mpr ⟨h0 hr, hsz⟩
    · exact wp_pure.mpr (hne hr)
  · refine wp_bind.mpr (wp_mono (wp_deallocuvm h hsz.le) fun r m' ⟨hlt, hge, hr⟩ => ?_)
    have hr0 : r ≠ 0 ∨ r = sz := by
      by_cases hcmp : (sz + n.toNat) % 2 ^ 32 < sz
      · exact .inl (by rw [hlt hcmp]; exact hn)
      · exact .inr (hge (not_lt.mp hcmp))
    have hle : r < KERNBASE := by
      by_cases hcmp : (sz + n.toNat) % 2 ^ 32 < sz
      · rw [hlt hcmp]
        exact hcmp.trans hsz
      · rwa [hge (not_lt.mp hcmp)]
    split_ifs with hz
    · refine wp_pure.mpr ⟨?_, hsz⟩
      rw [Option.getD_none, ← hr0.resolve_left (not_not.mpr hz)]
      exact hr
    · exact wp_pure.mpr ⟨hr, hle⟩
  · exact wp_pure.mpr ⟨h, hsz⟩

/-! ## New address spaces -/

theorem wp_mapPageKernel (ha : KERNBASE ≤ a) (hlt : a < 2 ^ 32) :
    wp Harmless (mapPage perm a pa) (fun _ m' => ∀ va < KERNBASE,
      m'.pgdir.present va = m.pgdir.present va) m := by
  refine wp_mono wp_mapPage fun ok m' ⟨hfalse, htrue⟩ va hva => ?_
  cases ok with
  | false => exact hfalse rfl va
  | true =>
    have hne : ¬(pdx va = pdx a ∧ ptx va = ptx a) := by
      rw [same_page (by lia) hlt]
      lia
    rw [htrue rfl va, decide_eq_false hne, Bool.or_false]

/-- The loop of `mappages` in the kernel's part -/
theorem wp_mapKernel (ha : KERNBASE ≤ a) (hn : a + n * PGSIZE < 2 ^ 32) :
    wp Harmless (mapLoop perm n a pa) (fun _ m' => ∀ va < KERNBASE,
      m'.pgdir.present va = m.pgdir.present va) m := by
  have hlt : a < 2 ^ 32 := (Nat.le_add_right a (n * PGSIZE)).trans_lt hn
  induction n generalizing a pa m with
  | zero => exact wp_mapPageKernel ha hlt
  | succ n ih =>
    have hn' : a + PGSIZE + n * PGSIZE < 2 ^ 32 := by
      rw [Nat.succ_mul] at hn
      omega
    have ha' : KERNBASE ≤ a + PGSIZE := ha.trans (Nat.le_add_right _ _)
    have hlt' : a + PGSIZE < 2 ^ 32 := (Nat.le_add_right _ (n * PGSIZE)).trans_lt hn'
    refine wp_bind.mpr (wp_mono (wp_mapPageKernel ha hlt) fun ok m₁ h₁ => ?_)
    cases ok with
    | false => exact wp_pure.mpr h₁
    | true =>
      refine wp_mono (ih ha' hn' hlt') fun _ m₂ h₂ va hva => ?_
      exact (h₂ va hva).trans (h₁ va hva)

theorem wp_mappagesKernel {size : ℕ} (hva : KERNBASE ≤ va) (hlt : va < 2 ^ 32) :
    wp Harmless (mappages va size pa perm) (fun _ m' => ∀ va < KERNBASE,
      m'.pgdir.present va = m.pgdir.present va) m := by
  refine wp_mapKernel ?_ ?_
  · unfold pgrounddown
    lia
  · unfold pgrounddown
    lia

theorem wp_freeTables (is : List ℕ) : wp Harmless (freeTables is) (fun _ _ => True) m := by
  induction is generalizing m with
  | nil => exact wp_pure.mpr trivial
  | cons i is ih =>
    refine wp_bind.mpr (wp_look.mpr (wp_bind.mpr ?_))
    cases m.pgdir.pde i with
    | none => exact wp_pure.mpr ih
    | some t => exact wp_modify.mpr ih

theorem wp_freevm : wp Harmless freevm (fun _ _ => True) m := by
  have hdealloc : wp Harmless (deallocuvm KERNBASE 0) (fun _ _ => True) m := by
    have hfuel : KERNBASE ≤ 0 * PGSIZE + (KERNBASE / PGSIZE + 1) * PGSIZE := by norm_num
    have h0 : pgroundup 0 = 0 * PGSIZE := by norm_num [pgroundup]
    unfold deallocuvm
    rw [if_neg (by norm_num), h0]
    refine wp_bind.mpr (wp_mono (wp_deallocLoop hfuel le_rfl (by norm_num)) fun _ _ _ => ?_)
    exact wp_pure.mpr trivial
  refine wp_bind.mpr (wp_mono hdealloc fun _ m₁ _ => ?_)
  refine wp_bind.mpr (wp_mono (wp_freeTables (List.range NPDENTRIES)) fun _ m₂ _ => ?_)
  exact wp_bind.mpr (wp_look.mpr (wp_modify.mpr trivial))

theorem wp_setupLoop {ks : List Kmap} (hks : ∀ k ∈ ks, KERNBASE ≤ k.virt ∧ k.virt < 2 ^ 32) :
    wp Harmless (setupLoop ks) (fun ok m' => ok = true → ∀ va < KERNBASE,
      m'.pgdir.present va = m.pgdir.present va) m := by
  induction ks generalizing m with
  | nil => exact wp_pure.mpr fun _ _ _ => rfl
  | cons k ks ih =>
    obtain ⟨hge, hlt⟩ := hks k List.mem_cons_self
    refine wp_bind.mpr (wp_mono (wp_mappagesKernel hge hlt) fun ok m₁ h₁ => ?_)
    cases ok with
    | false =>
      exact wp_bind.mpr (wp_mono wp_freevm fun _ _ _ => wp_pure.mpr nofun)
    | true =>
      refine wp_mono (ih fun k' hk' => hks k' (List.mem_cons_of_mem k hk')) fun ok' m₂ h₂ => ?_
      exact fun hok va hva => (h₂ hok va hva).trans (h₁ va hva)

theorem kmap_virt : ∀ k ∈ kmap data, KERNBASE ≤ k.virt ∧ k.virt < 2 ^ 32 := by
  have h₁ := data.kernlink_lt
  have h₂ := data.lt_phystop
  intro k hk
  simp only [kmap, List.mem_cons, List.not_mem_nil, or_false] at hk
  rcases hk with rfl | rfl | rfl | rfl
  · norm_num
  · norm_num
  · lia
  · norm_num

/-- A new page directory has no user pages. -/
theorem wp_setupkvm :
    wp Harmless (setupkvm data) (fun ok m' => ok = true → Matches m'.pgdir 0) m := by
  refine wp_bind.mpr (wp_kalloc (fun _ => wp_pure.mpr nofun) fun pg rest _ => ?_)
  refine wp_bind.mpr (wp_modify.mpr (wp_mono (wp_setupLoop kmap_virt) fun ok m' h' hok => ?_))
  intro va hva _
  rw [h' hok va hva]
  simp [Pgdir.present, Pgdir.pte]

/-- The loop of `copyuvm`, by induction on its rounds: there is a page to copy in each. -/
theorem wp_copyLoop {src : Pgdir} (hsrc : Matches src sz) (hsz : sz < KERNBASE)
    (h : Matches m.pgdir (k * PGSIZE)) (hk : k * PGSIZE < sz + PGSIZE)
    (hn : sz ≤ k * PGSIZE + n * PGSIZE) :
    wp Harmless (copyLoop src sz n (k * PGSIZE)) (fun ok m' =>
      ok = true → Matches m'.pgdir sz) m := by
  have hdone : sz ≤ k * PGSIZE → Matches m.pgdir sz := fun hge => h.congr fun va hva ha => by lia
  induction n generalizing k m with
  | zero =>
    rw [Nat.zero_mul, Nat.add_zero] at hn
    exact wp_pure.mpr fun _ => hdone hn
  | succ n ih =>
    rw [copyLoop]
    split_ifs with hlt
    swap
    · exact wp_pure.mpr fun _ => hdone (not_lt.mp hlt)
    have hkb : k * PGSIZE < KERNBASE := hlt.trans hsz
    have hpres : src.present (k * PGSIZE) = true :=
      (hsrc (k * PGSIZE) hkb (Nat.mul_mod_left k PGSIZE)).mpr hlt
    rw [Pgdir.present] at hpres
    rcases hpte : src.pte (k * PGSIZE) with _ | ⟨⟨⟩ | ⟨⟩, flags, pa⟩
    · rw [hpte] at hpres
      cases hpres
    · rw [hpte] at hpres
      cases hpres
    refine wp_bind.mpr (wp_kalloc (fun _ => ?_) fun pg rest _ => ?_)
    · exact wp_bind.mpr (wp_mono wp_freevm fun _ _ _ => wp_pure.mpr nofun)
    refine wp_bind.mpr ?_
    rw [mappages_page hkb]
    refine wp_mono wp_mapPage fun ok m₁ ⟨hfalse, htrue⟩ => ?_
    cases ok with
    | true =>
      have h₁ := h.mapOne hkb (htrue rfl)
      have hnext : k * PGSIZE + PGSIZE = (k + 1) * PGSIZE := by ring
      obtain ⟨-, hfuel⟩ := next_page hn hkb
      rw [if_pos rfl, hnext]
      have hk' : (k + 1) * PGSIZE < sz + PGSIZE := by
        rw [← hnext]
        exact Nat.add_lt_add_right hlt PGSIZE
      refine ih h₁ hk' hfuel fun hge => h₁.congr fun va hva ha => ?_
      clear ih
      lia
    | false =>
      rw [if_neg (by decide)]
      refine wp_bind.mpr (wp_modify.mpr (wp_bind.mpr (wp_mono wp_freevm fun _ _ _ => ?_)))
      exact wp_pure.mpr nofun

theorem wp_copyuvm {src : Pgdir} (hsrc : Matches src sz) (hsz : sz < KERNBASE) :
    wp Harmless (copyuvm data src sz) (fun ok m' => ok = true → Matches m'.pgdir sz) m := by
  refine wp_bind.mpr (wp_mono wp_setupkvm fun ok m₁ h₁ => ?_)
  split_ifs with hok
  · have hfuel : sz ≤ 0 * PGSIZE + (sz / PGSIZE + 1) * PGSIZE := by lia
    have h0 : Matches m₁.pgdir (0 * PGSIZE) := by
      rw [Nat.zero_mul]
      exact h₁ hok
    have := wp_copyLoop hsrc hsz h0 (by norm_num) hfuel
    rwa [Nat.zero_mul] at this
  · exact wp_pure.mpr nofun

/-! ## `exec` -/

theorem wp_loadLoop {addr i : ℕ} {contents : Bool} :
    wp Harmless (loadLoop addr sz contents n i) (fun _ m' => m' = m) m := by
  induction n generalizing i with
  | zero => exact wp_pure.mpr rfl
  | succ n ih =>
    rw [loadLoop]
    by_cases hlt : i < sz
    · rw [if_pos hlt]
      refine wp_bind.mpr (wp_mono wp_walkpgdir fun there m₁ ⟨_, hm₁, _⟩ => ?_)
      obtain rfl := hm₁ rfl
      cases there with
      | false => exact wp_throw.mpr (by decide)
      | true =>
        cases contents with
        | false => exact wp_pure.mpr rfl
        | true => exact ih
    · rw [if_neg hlt]
      exact wp_pure.mpr rfl

/-- What the loop of `exec` over the program headers leaves behind. -/
theorem wp_loadSegs {phs : List Proghdr} (h : Matches m.pgdir sz) (hsz : sz < KERNBASE) :
    wp Harmless (loadSegs phs sz) (fun r m' => ∀ sz', r = some sz' →
      Matches m'.pgdir sz' ∧ sz' < KERNBASE) m := by
  induction phs generalizing sz m with
  | nil =>
    refine wp_pure.mpr fun sz' he => ?_
    cases he
    exact ⟨h, hsz⟩
  | cons ph phs ih =>
    rw [loadSegs]
    refine wp_ite (wp_pure.mpr nofun) (wp_ite (ih h hsz) (wp_ite (wp_pure.mpr nofun)
      (wp_ite (wp_pure.mpr nofun) ?_)))
    refine wp_bind.mpr (wp_mono (wp_allocuvm h hsz) fun r m₁ ⟨_, hne⟩ => ?_)
    by_cases h0 : r = 0
    · rw [if_pos h0]
      exact wp_pure.mpr nofun
    rw [if_neg h0]
    obtain ⟨h₁, hlt⟩ := hne h0
    by_cases halign : ph.vaddr.toNat % PGSIZE = 0
    swap
    · rw [if_pos halign]
      exact wp_pure.mpr nofun
    rw [if_neg (not_not.mpr halign)]
    refine wp_bind.mpr ?_
    unfold loaduvm
    rw [if_neg (not_not.mpr halign)]
    refine wp_mono wp_loadLoop ?_
    rintro ok m₂ rfl
    exact wp_ite (ih h₁ hlt) (wp_pure.mpr nofun)

theorem wp_clearpteu : wp Harmless (clearpteu va) (fun _ m' => Same m.pgdir m'.pgdir) m := by
  refine wp_bind.mpr (wp_mono wp_walkpgdir fun there m₁ ⟨_, hm₁, hthere, _⟩ => ?_)
  obtain rfl := hm₁ rfl
  split_ifs with ht
  · exact wp_throw.mpr (by decide)
  refine wp_bind.mpr (wp_look.mpr (wp_modify.mpr fun va' => ?_))
  rw [present_setPte]
  split_ifs with h
  · obtain ⟨t, hpde⟩ := Option.isSome_iff_exists.mp (hthere (Bool.eq_true_of_not_eq_false ht))
    simp [Pgdir.present, Pgdir.pte, h.1, h.2, hpde]
  · rfl

theorem wp_execBad : wp Harmless execBad (fun r _ => r = none) m :=
  wp_bind.mpr (wp_mono wp_freevm fun _ _ _ => wp_pure.mpr rfl)

theorem wp_execStack {args : Bool} (h : Matches m.pgdir sz) (hsz : sz < KERNBASE) :
    wp Harmless (execStack sz args) (fun r m' => ∀ sz', r = some sz' →
      Matches m'.pgdir sz' ∧ sz' < KERNBASE) m := by
  have hbad : ∀ m₁, wp Harmless execBad (fun r m' => ∀ sz', r = some sz' →
      Matches m'.pgdir sz' ∧ sz' < KERNBASE) m₁ := fun m₁ =>
    wp_mono wp_execBad fun r _ hr sz' he => absurd (hr.symm.trans he) nofun
  unfold execStack
  rw [pgroundup_eq hsz.le]
  rcases lt_or_ge ((sz + 4095) / 4096 * PGSIZE) KERNBASE with hup | hup
  · have hmatch : Matches m.pgdir ((sz + 4095) / 4096 * PGSIZE) :=
      h.congr fun va _ ha => (lt_pgroundup ha).symm
    refine wp_bind.mpr (wp_mono (wp_allocuvm hmatch hup) fun r m₁ ⟨_, hne⟩ => ?_)
    by_cases h0 : r = 0
    · rw [if_pos h0]
      exact hbad m₁
    · rw [if_neg h0]
      obtain ⟨h₁, hlt⟩ := hne h0
      refine wp_bind.mpr (wp_mono wp_clearpteu fun _ m₂ h₂ => ?_)
      refine wp_ite (wp_pure.mpr fun sz' he => ?_) (hbad m₂)
      cases he
      exact ⟨h₁.same h₂, hlt⟩
  · -- no room for the stack below `KERNBASE`
    refine wp_bind.mpr ?_
    unfold allocuvm
    rw [if_pos]
    · exact wp_pure.mpr (hbad m)
    · lia

theorem wp_execvm {elf : Elf} : wp Harmless (execvm data elf) (fun r m' => ∀ sz', r = some sz' →
      Matches m'.pgdir sz' ∧ sz' < KERNBASE) m := by
  unfold execvm
  split_ifs
  · exact wp_pure.mpr nofun
  refine wp_bind.mpr (wp_mono wp_setupkvm fun ok m₁ h₁ => ?_)
  split_ifs with hok
  · exact wp_pure.mpr nofun
  have h₀ := h₁ (Bool.eq_true_of_not_eq_false hok)
  refine wp_bind.mpr (wp_mono (wp_loadSegs h₀ (by norm_num)) fun r m₂ h₂ => ?_)
  cases r with
  | none => exact wp_mono wp_execBad fun r _ hr sz' he => absurd (hr.symm.trans he) nofun
  | some sz => exact wp_execStack (h₂ sz rfl).1 (h₂ sz rfl).2

theorem wp_freeOld {α : Type} {old : Pgdir} {x : VmM (Option α)} {Q : α → Pgdir → Prop}
    (h : wp Harmless x (fun r m' => ∀ a, r = some a → Q a m'.pgdir) m) :
    wp Harmless (freeOld old x) (fun r _ => ∀ a pd, r = some (a, pd) → Q a pd) m := by
  refine wp_bind.mpr (wp_mono h fun r m₁ h₁ => ?_)
  cases r with
  | none => exact wp_pure.mpr nofun
  | some a =>
    refine wp_bind.mpr (wp_look.mpr (wp_bind.mpr (wp_modify.mpr ?_)))
    refine wp_bind.mpr (wp_mono wp_freevm fun _ _ _ => wp_pure.mpr fun a' pd he => ?_)
    cases he
    exact h₁ a rfl

/-! ## With enough memory -/

/-- The number of page tables -/
def Pgdir.tables (pd : Pgdir) : ℕ :=
  ((Finset.range NPDENTRIES).filter fun i => (pd.pde i).isSome = true).card

theorem Pgdir.tables_le (pd : Pgdir) : pd.tables ≤ NPDENTRIES :=
  (Finset.card_filter_le _ _).trans_eq (Finset.card_range NPDENTRIES)

theorem tables_setPte {x : Pte} : (pd.setPte a x).tables = pd.tables := by
  refine congrArg Finset.card (Finset.filter_congr fun i _ => ?_)
  by_cases hi : i = pdx a
  · simp [Pgdir.setPte, hi]
  · simp [Pgdir.setPte, hi]

theorem pdx_lt (va : ℕ) : pdx va < NPDENTRIES := Nat.mod_lt _ (by norm_num)

theorem tables_new {i : ℕ} {t : ℕ × (ℕ → Pte)} (hi : i < NPDENTRIES) (hnone : pd.pde i = none) :
    ({ pd with pde := update pd.pde i (some t) } : Pgdir).tables = pd.tables + 1 := by
  have hset : ((Finset.range NPDENTRIES).filter fun j =>
      (update pd.pde i (some t) j).isSome = true) =
      insert i ((Finset.range NPDENTRIES).filter fun j => (pd.pde j).isSome = true) := by
    ext j
    by_cases hj : j = i
    · simp [hj, hi]
    · simp [hj]
  show Finset.card (Finset.filter _ _) = _
  rw [hset, Finset.card_insert_of_notMem (by simp [hnone])]
  rfl

/-- Every page that has been taken is a page table now. -/
structure Uses (m m' : Mmu) : Prop where
  free : ∀ {pg}, pg ∈ m'.free → pg ∈ m.free
  count : m'.free.length + m'.pgdir.tables = m.free.length + m.pgdir.tables

theorem Uses.refl (m : Mmu) : Uses m m := ⟨id, rfl⟩

theorem Uses.trans {m₁ m₂ m₃ : Mmu} (h : Uses m₁ m₂) (h' : Uses m₂ m₃) : Uses m₁ m₃ :=
  ⟨fun hpg => h.free (h'.free hpg), h'.count.trans h.count⟩

/-- There is memory for all page tables that are missing, and a page more. -/
def Enough (m : Mmu) : Prop := NPDENTRIES < m.free.length + m.pgdir.tables

theorem Enough.uses {m m' : Mmu} (h : Enough m) (hu : Uses m m') : Enough m' := by
  unfold Enough at *
  rw [hu.count]
  exact h

theorem Enough.free_pos {m : Mmu} (h : Enough m) : 0 < m.free.length := by
  have := m.pgdir.tables_le
  unfold Enough at h
  omega

theorem wp_kalloc_total {Q : Option ℕ → Mmu → Prop} (hfree : 0 < m.free.length)
    (hs : ∀ pg rest, m.free = pg :: rest → Q (some pg) { m with free := rest }) :
    wp F kalloc Q m := by
  refine wp_kalloc (fun he => ?_) hs
  rw [he] at hfree
  exact absurd hfree (Nat.lt_irrefl 0)

theorem wp_walkpgdir_total (hm : Enough m) :
    wp F (walkpgdir va true) (fun there m' => there = true ∧ Uses m m') m := by
  refine wp_bind.mpr (wp_look.mpr ?_)
  cases hpde : m.pgdir.pde (pdx va) with
  | some t => exact wp_pure.mpr ⟨rfl, Uses.refl m⟩
  | none =>
    refine wp_bind.mpr (wp_kalloc_total hm.free_pos fun pg rest he => ?_)
    refine wp_bind.mpr (wp_modify.mpr (wp_pure.mpr ⟨rfl, fun hpg => ?_, ?_⟩))
    · rw [he]
      exact List.mem_cons_of_mem _ hpg
    · have hnew := tables_new (t := (pg, fun _ => Pte.zero)) (pdx_lt va) hpde
      show rest.length + Pgdir.tables { m.pgdir with pde := _ } = _
      rw [hnew, he, List.length_cons]
      omega

/-- A page that is not mapped yet -/
theorem wp_mapPage_total (hk : k < 2 ^ 20)
    (hnew : m.pgdir.present (k * PGSIZE) = false) (hm : Enough m) :
    wp F (mapPage perm (k * PGSIZE) pa) (fun ok m' => ok = true ∧ Uses m m' ∧
      m'.pgdir.pte (k * PGSIZE) = some ⟨true, perm, pa⟩ ∧
      ∀ va < 2 ^ 32, va / PGSIZE ≠ k → m'.pgdir.present va = m.pgdir.present va) m := by
  refine wp_bind.mpr (wp_mono (wp_and (wp_walkpgdir_total hm) (wp_walkpgdir (F := F))) ?_)
  rintro there m₁ ⟨⟨rfl, hu⟩, hsame, -, hthere, -⟩
  obtain ⟨t, ht⟩ := Option.isSome_iff_exists.mp (hthere rfl)
  have hnone : ¬ (m₁.pgdir.pte (k * PGSIZE)).any Pte.present = true := by
    rw [← Pgdir.present, hsame, hnew]
    exact Bool.false_ne_true
  rw [if_neg (by decide)]
  refine wp_bind.mpr (wp_look.mpr ?_)
  rw [if_neg hnone]
  refine wp_bind.mpr (wp_modify.mpr
    (wp_pure.mpr ⟨rfl, hu.trans ⟨id, ?_⟩, ?_, fun va hva hne => ?_⟩))
  · show _ + (m₁.pgdir.setPte _ _).tables = _
    rw [tables_setPte]
  · simp [Pgdir.pte, Pgdir.setPte, ht]
  · have hkb : k * PGSIZE < 2 ^ 32 := by lia
    have hpage : ¬(pdx va = pdx (k * PGSIZE) ∧ ptx va = ptx (k * PGSIZE)) := by
      rw [same_page hva hkb, Nat.mul_div_cancel k (by norm_num)]
      exact hne
    rw [present_setPte, if_neg hpage, hsame va]

/-- The loop of `mappages` over pages that are not mapped yet, by induction on those to follow -/
theorem wp_mapLoop_total (hk : k + n < 2 ^ 20)
    (hnew : ∀ va < 2 ^ 32, k ≤ va / PGSIZE → m.pgdir.present va = false) (hm : Enough m) :
    wp F (mapLoop perm n (k * PGSIZE) pa) (fun ok m' => ok = true ∧ Uses m m' ∧
      ∀ va < 2 ^ 32, (va / PGSIZE < k ∨ k + n < va / PGSIZE) →
        m'.pgdir.present va = m.pgdir.present va) m := by
  induction n generalizing k pa m with
  | zero =>
    have h0 : m.pgdir.present (k * PGSIZE) = false := by
      refine hnew _ (by lia) ?_
      rw [Nat.mul_div_cancel k (by norm_num)]
    refine wp_mono (wp_mapPage_total hk h0 hm) fun ok m' ⟨hok, hu, _, h'⟩ => ?_
    exact ⟨hok, hu, fun va hva hne => h' va hva (by omega)⟩
  | succ n ih =>
    have h0 : m.pgdir.present (k * PGSIZE) = false := by
      refine hnew _ (by clear ih; lia) ?_
      rw [Nat.mul_div_cancel k (by norm_num)]
    have hnext : k * PGSIZE + PGSIZE = (k + 1) * PGSIZE := by ring
    refine wp_bind.mpr (wp_mono (wp_mapPage_total (by omega) h0 hm) ?_)
    rintro ok m₁ ⟨rfl, hu₁, -, h₁⟩
    rw [if_pos rfl, hnext]
    refine wp_mono (ih (by omega) (fun va hva hge => ?_) (hm.uses hu₁)) ?_
    · rw [h₁ va hva (by omega)]
      exact hnew va hva (by omega)
    · rintro ok m₂ ⟨hok, hu₂, h₂⟩
      refine ⟨hok, hu₁.trans hu₂, fun va hva hne => ?_⟩
      rw [h₂ va hva (by omega), h₁ va hva (by omega)]

/-- The entries of a table of mappings are in order, and begin at page `lo`. -/
def Ascends : ℕ → List Kmap → Prop
  | _, [] => True
  | lo, k :: ks => ∃ first n, k.virt = first * PGSIZE ∧ lo ≤ first ∧ first + n < 2 ^ 20 ∧
      pgrounddown ((k.virt + (2 ^ 32 + k.physEnd - k.physStart) % 2 ^ 32 - 1) % 2 ^ 32) =
        (first + n) * PGSIZE ∧ Ascends (first + n + 1) ks

/-- `mappages` of an entry that begins at page `first` and has `n + 1` pages -/
theorem mappages_kmap {k : Kmap} {first : ℕ} (hvirt : k.virt = first * PGSIZE)
    (hlast : pgrounddown ((k.virt + (2 ^ 32 + k.physEnd - k.physStart) % 2 ^ 32 - 1) % 2 ^ 32) =
      (first + n) * PGSIZE) :
    mappages k.virt ((2 ^ 32 + k.physEnd - k.physStart) % 2 ^ 32) k.physStart k.perm =
      mapLoop k.perm n (first * PGSIZE) k.physStart := by
  have hpages : ((first + n) * PGSIZE - first * PGSIZE) / PGSIZE = n := by
    rw [← Nat.sub_mul, Nat.mul_div_cancel _ (by norm_num)]
    omega
  simp only [mappages, hlast]
  rw [hvirt, pgrounddown_mul, hpages]

theorem wp_setupLoop_total {ks : List Kmap} {lo : ℕ} (hks : Ascends lo ks)
    (hnew : ∀ va < 2 ^ 32, lo ≤ va / PGSIZE → m.pgdir.present va = false) (hm : Enough m) :
    wp F (setupLoop ks) (fun ok m' => ok = true ∧ Uses m m' ∧
      ∀ va < 2 ^ 32, va / PGSIZE < lo → m'.pgdir.present va = m.pgdir.present va) m := by
  induction ks generalizing lo m with
  | nil => exact wp_pure.mpr ⟨rfl, Uses.refl m, fun _ _ _ => rfl⟩
  | cons k ks ih =>
    obtain ⟨first, n, hvirt, hge, hlt, hlast, hks⟩ := hks
    refine wp_bind.mpr ?_
    rw [mappages_kmap hvirt hlast]
    refine wp_mono (wp_mapLoop_total hlt (fun va hva h => hnew va hva (hge.trans h)) hm) ?_
    rintro ok m₁ ⟨rfl, hu₁, h₁⟩
    rw [if_pos rfl]
    refine wp_mono (ih hks (fun va hva h => ?_) (hm.uses hu₁)) ?_
    · rw [h₁ va hva (by omega)]
      exact hnew va hva (by omega)
    · rintro ok m₂ ⟨hok, hu₂, h₂⟩
      refine ⟨hok, hu₁.trans hu₂, fun va hva h => ?_⟩
      rw [h₂ va hva (by omega), h₁ va hva (by omega)]

theorem kmap_ascends : Ascends (2 ^ 19) (kmap data) := by
  have h₀ := data.aligned
  have h₁ := data.kernlink_lt
  have h₂ := data.lt_phystop
  refine ⟨2 ^ 19, 255, by norm_num, le_rfl, by norm_num, by norm_num [pgrounddown], ?_⟩
  refine ⟨2 ^ 19 + 256, data.val / PGSIZE - (2 ^ 19 + 256) - 1, by norm_num, by norm_num,
    ?_, ?_, ?_⟩
  · lia
  · norm_num [pgrounddown] at *
    omega
  refine ⟨data.val / PGSIZE, 2 ^ 19 + 57344 - data.val / PGSIZE - 1, ?_, ?_, ?_, ?_, ?_⟩
  · lia
  · norm_num at *
    omega
  · lia
  · norm_num [pgrounddown] at *
    omega
  refine ⟨2 ^ 20 - 8192, 8191, by norm_num, ?_, by norm_num, by norm_num [pgrounddown], trivial⟩
  lia

theorem tables_empty (pg : ℕ) : (⟨pg, fun _ => none⟩ : Pgdir).tables = 0 := by
  simp [Pgdir.tables]

theorem wp_setupkvm_total (hfree : NPDENTRIES + 1 < m.free.length) :
    wp F (setupkvm data) (fun ok m' => ok = true ∧
      (∀ {pg}, pg ∈ m'.free → pg ∈ m.free) ∧
      m'.free.length + m'.pgdir.tables + 1 = m.free.length ∧
      ∀ va < KERNBASE, m'.pgdir.present va = false) m := by
  refine wp_bind.mpr (wp_kalloc_total (by omega) fun pg rest he => ?_)
  have hlen : m.free.length = rest.length + 1 := by rw [he, List.length_cons]
  refine wp_bind.mpr (wp_modify.mpr ?_)
  refine wp_mono (wp_setupLoop_total kmap_ascends (fun _ _ _ => rfl) ?_) ?_
  · show NPDENTRIES < rest.length + Pgdir.tables _
    omega
  · rintro ok m₂ ⟨hok, hu, h₂⟩
    have hcount : m₂.free.length + m₂.pgdir.tables = rest.length := by
      rw [hu.count, tables_empty, Nat.add_zero]
    refine ⟨hok, fun hpg => ?_, by omega, fun va hva => ?_⟩
    · rw [he]
      exact List.mem_cons_of_mem _ (hu.free hpg)
    · rw [h₂ va (by lia) (by lia)]
      rfl

/-- With enough memory, the first address space is made. -/
theorem wp_inituvm_total (hfree : NPDENTRIES + 2 < m.free.length) :
    wp F (inituvm data) (fun ok m' => ok = true ∧
      ∃ perm, ∃ pg ∈ m.free, m'.pgdir.pte 0 = some ⟨true, perm, pg⟩) m := by
  refine wp_bind.mpr (wp_mono (wp_setupkvm_total (by omega)) ?_)
  rintro ok m₁ ⟨rfl, hmem, hcount, h₁⟩
  have htables := m₁.pgdir.tables_le
  rw [if_neg (by decide)]
  refine wp_bind.mpr (wp_kalloc_total (by omega) fun pg rest he => ?_)
  have hlen : m₁.free.length = rest.length + 1 := by rw [he, List.length_cons]
  have hmap : mappages 0 PGSIZE pg ⟨true, true⟩ = mapPage ⟨true, true⟩ (0 * PGSIZE) pg := by
    rw [← mappages_page (by norm_num), Nat.zero_mul]
  show wp _ (mappages 0 PGSIZE pg ⟨true, true⟩) _ _
  rw [hmap]
  refine wp_mono (wp_mapPage_total (by norm_num) (h₁ _ (by norm_num)) ?_) ?_
  · show NPDENTRIES < rest.length + m₁.pgdir.tables
    omega
  · rintro ok m₃ ⟨hok, -, hpte, -⟩
    rw [Nat.zero_mul] at hpte
    refine ⟨hok, _, pg, hmem ?_, hpte⟩
    rw [he]
    exact List.mem_cons_self

/-! ## Runs -/

section Runs

variable {P : Type} [DecidableEq P] {s s' : Memory P} {data : DataAddr}

/-- `sbrk` does not ask for size 0. -/
def Keeps (s : Memory P) : VmLabel P → Prop
  | .sbrk p n => ∀ c, s.proc p = some c → (c.sz : ℤ) + n.toInt ≠ 0
  | _ => True

theorem grows_to_zero {sz : ℕ} {n : BitVec 32} (hsz : sz < KERNBASE)
    (h : (sz : ℤ) + n.toInt ≠ 0) : (sz + n.toNat) % 2 ^ 32 ≠ 0 := by
  rw [BitVec.toInt_eq_toNat_cond] at h
  norm_num at *
  split_ifs at h <;> omega

/-- The address space of each process matches its size, and no `copyuvm` has panicked. -/
structure AddrInv (s : Memory P) : Prop where
  space : ∀ {p c}, s.proc p = some c → Matches c.pgdir c.sz ∧ c.sz < KERNBASE
  panic : ∀ {msg}, s.panicked = some msg → Harmless msg

omit [DecidableEq P] in
theorem AddrInv.withPgdir {α : Type} {pd : Pgdir} {x : VmM α} {k : α → Pgdir → P → Option Uproc}
    {Q : α → Mmu → Prop} (h : AddrInv s) (hx : wp Harmless x Q ⟨pd, s.free⟩)
    (hk : ∀ a m', Q a m' → ∀ {p c}, k a m'.pgdir p = some c →
      Matches c.pgdir c.sz ∧ c.sz < KERNBASE) : AddrInv (withPgdir s pd x k) := by
  unfold Vm.withPgdir
  cases hr : x ⟨pd, s.free⟩ with
  | ok r => exact ⟨hk r.1 r.2 (Wp.wp_ok hx hr), h.panic⟩
  | error msg =>
    refine ⟨h.space, fun he => ?_⟩
    cases he
    exact Wp.wp_error hx hr

theorem AddrInv.update (h : AddrInv s) {q : P} {d : Uproc} (hd : Matches d.pgdir d.sz ∧
    d.sz < KERNBASE) {p : P} {c : Uproc} (hc : update s.proc q (some d) p = some c) :
    Matches c.pgdir c.sz ∧ c.sz < KERNBASE := by
  by_cases hpq : p = q
  · subst hpq
    rw [update_self] at hc
    cases hc
    exact hd
  · rw [update_of_ne hpq] at hc
    exact h.space hc

theorem AddrInv.step {l : VmLabel P} (h : AddrInv s) (hl : Keeps s l)
    (hs : vmStep data l s = some s') : AddrInv s' := by
  unfold vmStep at hs
  split_ifs at hs
  cases l with
  | fork p q =>
    simp only [vmCall] at hs
    split at hs
    · rename_i c hp hq
      obtain ⟨hc, hsz⟩ := h.space hp
      cases hs
      refine h.withPgdir (wp_copyuvm hc hsz) fun ok m' hok p' c' hc' => ?_
      cases ok with
      | true => exact h.update (d := ⟨m'.pgdir, c.sz⟩) ⟨hok rfl, hsz⟩ hc'
      | false => exact h.space hc'
    · cases hs
  | exec p elf =>
    obtain ⟨c, -, rfl⟩ := Option.map_eq_some_iff.mp hs
    refine h.withPgdir (wp_freeOld (Q := fun sz pd => Matches pd sz ∧ sz < KERNBASE) wp_execvm)
      fun r m' hr p' c' hc' => ?_
    match r, hr, hc' with
    | none, _, hc' => exact h.space hc'
    | some (sz, pd), hr, hc' => exact h.update (d := ⟨pd, sz⟩) (hr sz pd rfl) hc'
  | sbrk p n =>
    obtain ⟨c, hp, rfl⟩ := Option.map_eq_some_iff.mp hs
    obtain ⟨hc, hsz⟩ := h.space hp
    have hgrow := wp_growproc (m := ⟨c.pgdir, s.free⟩) hc hsz (grows_to_zero hsz (hl c hp))
    exact h.withPgdir hgrow fun r m' hr p' c' hc' =>
      h.update (d := ⟨m'.pgdir, r.getD c.sz⟩) hr hc'
  | exit p =>
    obtain ⟨c, hp, rfl⟩ := Option.map_eq_some_iff.mp hs
    refine h.withPgdir wp_freevm fun _ m' _ p' c' hc' => ?_
    by_cases hpp : p' = p
    · rw [hpp, update_self] at hc'
      cases hc'
    · rw [update_of_ne hpp] at hc'
      exact h.space hc'
  | env free =>
    cases hs
    exact ⟨h.space, h.panic⟩

/-- `mappages` of the page of `initcode` -/
theorem wp_inituvm : wp Harmless (inituvm data) (fun ok m' => ok = true →
    Matches m'.pgdir PGSIZE) m := by
  refine wp_bind.mpr (wp_mono wp_setupkvm fun ok m₁ h₁ => ?_)
  cases ok with
  | false => exact wp_throw.mpr (by decide)
  | true =>
    refine wp_bind.mpr (wp_kalloc (fun _ => wp_pure.mpr nofun) fun pg rest _ => ?_)
    have hmap : mappages 0 PGSIZE pg ⟨true, true⟩ = mapPage ⟨true, true⟩ (0 * PGSIZE) pg := by
      rw [← mappages_page (by norm_num), Nat.zero_mul]
    show wp Harmless (mappages 0 PGSIZE pg ⟨true, true⟩) _ _
    rw [hmap]
    refine wp_mono wp_mapPage fun ok m₂ ⟨_, htrue⟩ hok => ?_
    have h0 : Matches m₁.pgdir (0 * PGSIZE) := by
      rw [Nat.zero_mul]
      exact h₁ rfl
    have := h0.mapOne (by norm_num) (htrue hok)
    rwa [Nat.zero_add, Nat.one_mul] at this

theorem AddrInv.boot {free : List ℕ} {pd : Pgdir} {m : Mmu} {init : P}
    (h : inituvm data ⟨pd, free⟩ = .ok (true, m)) : AddrInv (Memory.boot m init) := by
  refine ⟨fun {p c} hc => ?_, nofun⟩
  have hm : Matches m.pgdir PGSIZE := Wp.wp_ok (wp_inituvm (m := ⟨pd, free⟩)) h rfl
  by_cases hp : p = init
  · subst hp
    obtain rfl : ⟨m.pgdir, PGSIZE⟩ = c := by simpa [Memory.boot] using hc
    exact ⟨hm, by norm_num⟩
  · simp [Memory.boot, hp] at hc

/-- **Address spaces match their sizes**, in every run from boot in which `sbrk` never shrinks a
process to size 0, and `copyuvm` does not panic. -/
theorem pages_match_size {free : List ℕ} {pd : Pgdir} {m : Mmu} {init : P} {ls : List (VmLabel P)}
    (hboot : inituvm data ⟨pd, free⟩ = .ok (true, m))
    (hx : exec (vmStep data) ls (Memory.boot m init) = some s)
    (hkeep : Along (vmStep data) Keeps ls (Memory.boot m init)) :
    (∀ p c, s.proc p = some c → ∀ va < KERNBASE, va % PGSIZE = 0 →
      (c.pgdir.present va = true ↔ va < c.sz)) ∧
    s.panicked ≠ some "copyuvm: pte should exist" ∧
    s.panicked ≠ some "copyuvm: page not present" := by
  have hinv : AddrInv s :=
    Transition.along_invariant (I := AddrInv) hx hkeep (AddrInv.boot hboot)
      fun _ _ _ h hl hs => h.step hl hs
  refine ⟨fun p c hc => (hinv.space hc).1, fun he => ?_, fun he => ?_⟩
  · exact (hinv.panic he).1 rfl
  · exact (hinv.panic he).2 rfl

/-- A machine with the kernel's data at `0x80108000`, and 16 MB of free memory above 4 MB -/
def smallData : DataAddr := ⟨0x80108000, by decide, by decide, by decide⟩

def smallFree : List ℕ := (List.range' 1024 4096).map (· * PGSIZE)

theorem smallFree_length : smallFree.length = 4096 := by
  rw [smallFree, List.length_map, List.length_range']

theorem smallFree_pos {pg : ℕ} (h : pg ∈ smallFree) : pg ≠ 0 := by
  obtain ⟨k, hk, rfl⟩ := List.mem_map.mp h
  obtain ⟨i, -, rfl⟩ := List.mem_range'.mp hk
  norm_num

theorem small_boot : ∃ m, inituvm smallData ⟨⟨0, fun _ => none⟩, smallFree⟩ = .ok (true, m) ∧
    ∃ perm pg, pg ≠ 0 ∧ m.pgdir.pte 0 = some ⟨true, perm, pg⟩ := by
  have henough : NPDENTRIES + 2 < (⟨⟨0, fun _ => none⟩, smallFree⟩ : Mmu).free.length := by
    rw [smallFree_length]
    norm_num
  have hinit : wp (fun _ => False) (inituvm smallData) _ _ := wp_inituvm_total henough
  obtain ⟨ok, m, hrun, rfl, perm, pg, hpg, hpte⟩ := Wp.exists_ok hinit
  exact ⟨m, hrun, perm, pg, smallFree_pos hpg, hpte⟩

/-- The first process asks for a page more. -/
theorem pages_match_size_grown : ∃ (m : Mmu) (s : Memory Unit),
    inituvm smallData ⟨⟨0, fun _ => none⟩, smallFree⟩ = .ok (true, m) ∧
    exec (vmStep smallData) [.sbrk () 4096] (Memory.boot m ()) = some s ∧
    ∀ c, s.proc () = some c → ∀ va < KERNBASE, va % PGSIZE = 0 →
      (c.pgdir.present va = true ↔ va < c.sz) := by
  obtain ⟨m, hboot, -⟩ := small_boot
  have hkeep : Along (vmStep smallData) Keeps [.sbrk () 4096] (Memory.boot m ()) := by
    refine ⟨fun c hc => ?_, fun _ _ => trivial⟩
    cases hc
    show ((PGSIZE : ℕ) : ℤ) + (4096 : BitVec 32).toInt ≠ 0
    decide
  have hrun : exec (vmStep smallData) [.sbrk () 4096] (Memory.boot m ()) = some _ := rfl
  exact ⟨m, _, hboot, hrun, (pages_match_size hboot hrun hkeep).1 ()⟩

theorem wp_growproc_zero {F : String → Prop} {m : Mmu} {perm : Perm} {pg : ℕ} (hpg : pg ≠ 0)
    (hpte : m.pgdir.pte 0 = some ⟨true, perm, pg⟩) :
    wp F (growproc PGSIZE (-4096)) (fun r m' => r = none ∧ m'.free = pg :: m.free ∧
      m'.pgdir = m.pgdir.setPte 0 Pte.zero) m := by
  have hzero : (PGSIZE + (-4096 : BitVec 32).toNat) % 2 ^ 32 = 0 := by decide
  have hwalk : wp F (walkpgdir 0 false) (fun there m' => there = true ∧ m' = m) m := by
    refine wp_bind.mpr (wp_look.mpr ?_)
    cases h : m.pgdir.pde (pdx 0) with
    | none => simp [Pgdir.pte, h] at hpte
    | some t => exact wp_pure.mpr ⟨rfl, rfl⟩
  unfold growproc
  rw [if_neg (by decide), if_pos (by decide), hzero]
  refine wp_bind.mpr ?_
  unfold deallocuvm
  rw [if_neg (by decide)]
  refine wp_bind.mpr ?_
  show wp F (deallocLoop PGSIZE 2 0) _ m
  unfold deallocLoop
  rw [if_pos (by decide)]
  refine wp_bind.mpr (wp_mono hwalk ?_)
  rintro there m' ⟨rfl, rfl⟩
  rw [if_neg (by decide)]
  refine wp_bind.mpr (wp_look.mpr ?_)
  rw [hpte]
  refine wp_bind.mpr ?_
  show wp F (if pg = 0 then throw "kfree" else do
    kfree pg
    setPte 0 Pte.zero) _ m'
  rw [if_neg hpg]
  refine wp_bind.mpr (wp_modify.mpr (wp_modify.mpr ?_))
  unfold deallocLoop
  rw [if_neg (by decide)]
  refine wp_pure.mpr (wp_pure.mpr ?_)
  rw [if_pos rfl]
  exact wp_pure.mpr ⟨rfl, rfl, rfl⟩

/-- **A process that shrinks itself to size 0 has no page, and keeps its size**: `deallocuvm`
returns the new size 0, which `growproc` takes for an error. -/
theorem shrink_to_zero_keeps_size : ∃ (m : Mmu) (s : Memory Unit) (c : Uproc),
    inituvm smallData ⟨⟨0, fun _ => none⟩, smallFree⟩ = .ok (true, m) ∧
    exec (vmStep smallData) [.sbrk () (-4096)] (Memory.boot m ()) = some s ∧
    s.panicked = none ∧ s.proc () = some c ∧ c.sz = 4096 ∧ c.pgdir.present 0 = false := by
  obtain ⟨m, hboot, perm, pg, hpg, hpte⟩ := small_boot
  obtain ⟨r, m', hgrow, rfl, -, hpd⟩ := Wp.exists_ok (wp_growproc_zero hpg hpte)
  have hgone : m'.pgdir.present 0 = false := by
    obtain ⟨t, ht, -⟩ := Option.map_eq_some_iff.mp hpte
    rw [hpd]
    simp [Pgdir.present, Pgdir.pte, Pgdir.setPte, ht, Pte.zero]
  let c : Uproc := ⟨m'.pgdir, PGSIZE⟩
  let s : Memory Unit := ⟨update (Memory.boot m ()).proc () (some c), m'.free, none⟩
  have hsbrk : exec (vmStep smallData) [.sbrk () (-4096)] (Memory.boot m ()) = some s := by
    have hrun : growproc PGSIZE (-4096) ⟨m.pgdir, (Memory.boot m ()).free⟩ = .ok (none, m') := hgrow
    show some (withPgdir _ m.pgdir (growproc PGSIZE (-4096)) _) = some s
    rw [withPgdir, hrun]
    rfl
  exact ⟨m, s, c, hboot, hsbrk, rfl, rfl, rfl, hgone⟩

end Runs

end Xv6Mlfq.Vm
