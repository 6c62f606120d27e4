import Xv6Mlfq.Vm.Enough

/-!
# Copies of address spaces

What `copyuvm` makes of the address space of a parent is the same to look at, and shares no page
with it.  So whatever the two processes write later, and in whatever order, each finds its memory as
if the other one did not write.

## Main definitions

* `view pd mem k` — the flags of page number `k`, and what is in it.
* `store pd va b mem` — a byte is written.
* `Write`, `writes` — bytes written by the parent and by the child, in some order.

## Main results

* `copyuvm_isolated` — the copy is the same, shares nothing, and stays apart.
-/

namespace Xv6Mlfq.Mem

open Function (update update_self update_of_ne)
open Vm (PGSIZE NPDENTRIES KERNBASE NUSER Pgdir Pte Perm Mmu DataAddr Single Matches)

variable {r r' : Ram} {src pd pd' : Pgdir} {mem mem' : ℕ → ℕ → UInt8} {sz k : ℕ}

/-! ## What a process sees -/

/-- The flags of page number `k`, and what is in it -/
def view (pd : Pgdir) (mem : ℕ → ℕ → UInt8) (k : ℕ) : Option (Perm × (ℕ → UInt8)) :=
  (pd.entry k).map fun e => (e.perm, mem e.addr)

/-- The memory of two address spaces with the directory `pd` is the same. -/
def Agree (pd : Pgdir) (mem mem' : ℕ → ℕ → UInt8) : Prop :=
  ∀ k < NUSER, ∀ e, pd.entry k = some e → mem e.addr = mem' e.addr

theorem Agree.view (h : Agree pd mem mem') (hk : k < NUSER) : view pd mem k = view pd mem' k := by
  rw [Mem.view, Mem.view]
  cases he : pd.entry k with
  | none => rfl
  | some e => rw [Option.map_some, Option.map_some, h k hk e he]

/-! ## Later writes -/

/-- A process writes the byte `b` to its address `va`. -/
def store (pd : Pgdir) (va : ℕ) (b : UInt8) (mem : ℕ → ℕ → UInt8) : ℕ → ℕ → UInt8 :=
  if va < KERNBASE then
    match pd.entry (va / PGSIZE) with
    | some e => update mem e.addr (update (mem e.addr) (va % PGSIZE) b)
    | none => mem
  else mem

/-- No page is in both address spaces. -/
def Separate (pd pd' : Pgdir) : Prop :=
  ∀ j < NUSER, ∀ k < NUSER, ∀ e e', pd.entry j = some e → pd'.entry k = some e' → e.addr ≠ e'.addr

theorem page_lt_nuser {va : ℕ} (hva : va < KERNBASE) : va / PGSIZE < NUSER := by
  lia

/-- What one writes, the other does not see. -/
theorem Agree.store_other (h : Agree pd mem mem') (hsep : Separate pd pd') (va : ℕ) (b : UInt8) :
    Agree pd (store pd' va b mem) mem' := by
  intro k hk e he
  rw [store, ← h k hk e he]
  by_cases hva : va < KERNBASE
  swap
  · rw [if_neg hva]
  rw [if_pos hva]
  cases he' : pd'.entry (va / PGSIZE) with
  | none => rfl
  | some e' => exact update_of_ne (hsep k hk _ (page_lt_nuser hva) e e' he he') _ _

/-- What a process writes depends on its memory only. -/
theorem Agree.store_self (h : Agree pd mem mem') (va : ℕ) (b : UInt8) :
    Agree pd (store pd va b mem) (store pd va b mem') := by
  intro k hk e he
  rw [store, store]
  by_cases hva : va < KERNBASE
  swap
  · rw [if_neg hva, if_neg hva]
    exact h k hk e he
  rw [if_pos hva, if_pos hva]
  cases he' : pd.entry (va / PGSIZE) with
  | none => exact h k hk e he
  | some e' =>
    dsimp only
    by_cases haddr : e.addr = e'.addr
    · rw [haddr, update_self, update_self, h _ (page_lt_nuser hva) e' he']
    · rw [update_of_ne haddr, update_of_ne haddr]
      exact h k hk e he

/-- A byte that the parent writes, or the child -/
structure Write where
  child : Bool
  va : ℕ
  b : UInt8

/-- Bytes are written, one after another. -/
def writes (parent child : Pgdir) (ws : List Write) (mem : ℕ → ℕ → UInt8) : ℕ → ℕ → UInt8 :=
  ws.foldl (fun mem w => store (if w.child then child else parent) w.va w.b mem) mem

/-- A process finds what its own writes have made.  By induction on the writes -/
theorem Agree.writes_parent (h : Agree pd mem mem') (hsep : Separate pd pd') (ws : List Write) :
    Agree pd (writes pd pd' ws mem) (writes pd pd' (ws.filter fun w => w.child = false) mem') := by
  induction ws generalizing mem mem' with
  | nil => exact h
  | cons w ws ih =>
    obtain ⟨child, va, b⟩ := w
    cases child with
    | false => exact ih (h.store_self va b)
    | true => exact ih (h.store_other hsep va b)

theorem Agree.writes_child (h : Agree pd' mem mem') (hsep : Separate pd' pd) (ws : List Write) :
    Agree pd' (writes pd pd' ws mem) (writes pd pd' (ws.filter fun w => w.child = true) mem') := by
  induction ws generalizing mem mem' with
  | nil => exact h
  | cons w ws ih =>
    obtain ⟨child, va, b⟩ := w
    cases child with
    | false => exact ih (h.store_other hsep va b)
    | true => exact ih (h.store_self va b)

/-! ## The copy -/

/-- The pages of the copy were free: its directory, its page tables and the pages of the process. -/
theorem refs_copy {r₁ : Ram} {fill : ℕ → Perm × (ℕ → UInt8)} {n : ℕ} (hnew : NewSpace r r₁)
    (hg : Grown fill 0 n r₁ r') (x : ℕ) : r'.free.count x + r'.pgdir.refs x = r.free.count x :=
  (hg.total x).trans (hnew.total x)

theorem refs_pos {e : Pte} (hk : k < NUSER) (he : pd.entry k = some e) : 0 < pd.refs e.addr := by
  have hpos := Vm.mapped_pos hk he
  rw [Pgdir.refs]
  omega

/-- The copy is the same to look at. -/
theorem view_copy {r₁ : Ram} (hsrc : Matches src sz) (hnew : NewSpace r r₁)
    (hg : Grown (copyOf src r.mem) 0 (pages sz) r₁ r') (hk : k < NUSER) :
    view r'.pgdir r'.mem k = view src r.mem k := by
  have hmapped := matches_iff.mp hsrc k hk
  rw [view, view]
  by_cases hin : k < pages sz
  · obtain ⟨e, he⟩ := Option.ne_none_iff_exists'.mp (hmapped.mpr hin)
    obtain ⟨pa, -, hentry, hmem⟩ := hg.fresh k (Nat.zero_le k) hin
    rw [hentry, he, Option.map_some, Option.map_some, hmem, copyOf, he]
    rfl
  · have hnone : src.entry k = none := not_not.mp (hmapped.not.mpr hin)
    rw [hg.kept k (by omega), hnew.user k hk, hnone]
    rfl

/-- **A copy is the same, and stays apart.**  When `copyuvm` succeeds, the child has the pages of
the parent with their flags and contents, in pages that were free, each for one purpose; the
kernel's half is the one that `setupkvm` makes; the parent is as before; and whatever is written
later, each process finds what its own writes have made. -/
theorem copyuvm_isolated {data : DataAddr} (hsrc : Matches src sz) (hsz : sz ≤ KERNBASE)
    (hs : Single ⟨src, r.free⟩) (hrun : copyuvm data src sz r = .ok (true, r')) :
    (∀ k < NUSER, view r'.pgdir r'.mem k = view src r.mem k) ∧
    (∀ x, 0 < r'.pgdir.refs x → x ∈ r.free ∧ src.refs x = 0) ∧
    (∀ j < NUSER, ∀ k < NUSER, ∀ e e', r'.pgdir.entry j = some e → r'.pgdir.entry k = some e' →
      e.addr = e'.addr → j = k) ∧
    (∀ r₀ r₁, setupkvm data r₀ = .ok (true, r₁) → ∀ k, NUSER ≤ k →
      r'.pgdir.entry k = r₁.pgdir.entry k) ∧
    (∀ k < NUSER, view src r'.mem k = view src r.mem k) ∧
    ∀ ws : List Write, ∀ k < NUSER,
      view src (writes src r'.pgdir ws r'.mem) k =
        view src (writes src r'.pgdir (ws.filter fun w => w.child = false) r'.mem) k ∧
      view r'.pgdir (writes src r'.pgdir ws r'.mem) k =
        view r'.pgdir (writes src r'.pgdir (ws.filter fun w => w.child = true) r'.mem) k := by
  have hone : ∀ x, r.free.count x ≤ 1 := fun x => (Nat.le_add_right _ _).trans (hs.le_one x)
  have hzero : 0 ∉ r.free := by
    intro hmem
    have hcount := List.count_pos_iff.mpr hmem
    have htotal := hs.zero
    simp only [Mmu.total] at htotal
    omega
  have hused : ∀ j < NUSER, ∀ e, src.entry j = some e → e.addr ∉ r.free :=
    fun j hj e he => hs.not_free hj he
  obtain ⟨-, htrue⟩ := Wp.wp_ok (wp_copyuvm hone hzero hused hsz) hrun
  obtain ⟨r₁, hnew, hkernel, hg⟩ := htrue rfl
  have hrefs := refs_copy hnew hg
  have hfresh : ∀ x, 0 < r'.pgdir.refs x → x ∈ r.free ∧ src.refs x = 0 := by
    intro x hx
    have hcount := hrefs x
    have htotal := hs.le_one x
    simp only [Mmu.total] at htotal
    exact ⟨List.count_pos_iff.mp (by omega), by omega⟩
  have hsep : Separate src r'.pgdir := by
    intro j hj k hk e e' he he' haddr
    have hpos := refs_pos hj he
    rw [haddr, (hfresh _ (refs_pos hk he')).2] at hpos
    exact absurd hpos (lt_irrefl 0)
  have hsep' : Separate r'.pgdir src :=
    fun j hj k hk e e' he he' haddr => hsep k hk j hj e' e he' he haddr.symm
  have hsingle : Single r'.toMmu := by
    refine ⟨fun x => (hrefs x).trans_le (hone x), ?_⟩
    exact (hrefs 0).trans (List.count_eq_zero_of_not_mem hzero)
  refine ⟨fun k hk => view_copy hsrc hnew hg hk, hfresh, ?_, ?_, ?_, ?_⟩
  · intro j hj k hk e e' he he' haddr
    exact hsingle.inj hj hk he he' haddr
  · intro r₀ r₂ hsetup k hk
    have hpages := pages_le hsz
    rw [hg.kept k (by omega), hkernel k hk,
      ((Wp.wp_ok (wp_setupkvm (F := fun _ => False)) hsetup).2 rfl).2 k hk]
  · intro k hk
    apply Agree.view _ hk
    intro j hj e he
    have hfree := hused j hj e he
    rw [hg.mem _ fun h => hfree (hnew.free.subset h), hnew.mem]
  · intro ws k hk
    exact ⟨(Agree.writes_parent (fun _ _ _ _ => rfl) hsep ws).view hk,
      (Agree.writes_child (fun _ _ _ _ => rfl) hsep' ws).view hk⟩

/-- The process of one page forks, the child writes to the page, and the parent does not see it. -/
theorem copyuvm_isolated_roomy :
    ∃ r', copyuvm Vm.smallData roomy.pgdir PGSIZE roomy = .ok (true, r') ∧
    view r'.pgdir r'.mem 0 = some (⟨true, true⟩, fun _ => 7) ∧
    view roomy.pgdir (writes roomy.pgdir r'.pgdir [⟨true, 5, 1⟩] r'.mem) 0 =
      some (⟨true, true⟩, fun _ => 7) := by
  have hfree : NPDENTRIES + pages PGSIZE + 1 < roomy.free.length := by
    show NPDENTRIES + pages PGSIZE + 1 < Vm.smallFree.length
    rw [Vm.smallFree_length]
    decide
  have hsrc : Matches roomy.pgdir PGSIZE := onePage_space.mapped
  have hpages : ∀ j < pages PGSIZE, roomy.pgdir.entry j ≠ none := by
    intro j hj
    exact (matches_iff.mp hsrc j (hj.trans (by decide))).mpr hj
  obtain ⟨ok, r', hrun, rfl⟩ := Wp.exists_ok (wp_copyuvm_room (by norm_num) hpages hfree)
  obtain ⟨hview, -, -, -, hparent, hlater⟩ :=
    copyuvm_isolated hsrc (by norm_num) roomy_single hrun
  refine ⟨r', hrun, hview 0 (by norm_num), ?_⟩
  rw [(hlater [⟨true, 5, 1⟩] 0 (by norm_num)).1]
  exact hparent 0 (by norm_num)

end Xv6Mlfq.Mem
