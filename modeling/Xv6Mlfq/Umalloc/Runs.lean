import Xv6Mlfq.Umalloc.FreeList

/-!
# Sequences of calls

The free list after any `malloc`s and `free`s.  As long as no number of bytes wraps on its way to
`sbrk`, the list is sound, both loops return, and what `malloc` returns is as large as it should be.
With more than `2 ^ 31 - 16` bytes it is not.

## Main definitions

* `Ready base bound s A` — before the first call, or with a sound list.
* `FreeList s lo hi` — what the list looks like from `freep`.

## Main results

* `Ready.wp_malloc` — `malloc` returns 0, or a block.
* `malloc_enough`, `malloc_wraps` — when `malloc` returns enough, and when it does not.
* `free_list_sound` — the list after any calls.
-/

namespace Xv6Mlfq.Umalloc

open Function (update update_self)
open Wp (wp wp_mono wp_bind wp_pure wp_look wp_modify)
open Extents (Extent Spaced cover bytes cells)
open Vm (KERNBASE)

variable {F : String → Prop} {base bound fuel : ℕ} {s : Heap} {R A A' : List Extent} {e : Extent}

/-! ## `sbrk` -/

theorem fresh_sbrkAt (a : Option ℕ) : Fresh (2 ^ 32) (sbrkAt a) := by
  intro n s hpos hlt hbrk
  rw [sbrkAt, wp_bind, wp_look]
  cases a with
  | none => exact wp_pure.mpr (.inl ⟨rfl, rfl⟩)
  | some a =>
    dsimp only
    rw [Int.toNat_natCast]
    split_ifs with ha
    · rw [wp_bind, wp_modify, wp_pure]
      exact .inr ⟨ha.1, ha.2, rfl⟩
    · exact wp_pure.mpr (.inl ⟨rfl, rfl⟩)

/-- The process grows, or there is not enough memory. -/
theorem growTo_pos {n sz : ℕ} (oom : Bool) (hpos : 0 < n) (hlt : n < 2 ^ 31) (hsz : sz < KERNBASE) :
    growTo oom n sz = if sz + n ≥ KERNBASE ∨ oom = true then 0 else sz + n := by
  have hsum : ((sz + (n : ℤ)) % 2 ^ 32).toNat = sz + n := by lia
  have hgt : (n : ℤ) > 0 := Int.natCast_pos.mpr hpos
  rw [growTo, hsum, if_pos hgt]
  by_cases hbig : sz + n ≥ KERNBASE
  · rw [if_pos hbig, if_pos (.inl hbig)]
  · have hle : ¬ sz + n < sz := Nat.not_lt.mpr (Nat.le_add_right ..)
    rw [if_neg hbig, if_neg hle]
    cases oom with
    | true => rw [if_pos rfl, if_pos (.inr rfl)]
    | false => rw [if_neg Bool.false_ne_true, if_neg (not_or.mpr ⟨hbig, Bool.false_ne_true⟩)]

/-- What `sys_sbrk` returns is where the memory ended. -/
theorem fresh_sysSbrk (oom : Bool) : Fresh KERNBASE (sysSbrk oom) := by
  intro n s hpos hlt hbrk
  have hne : (n : ℤ) ≠ 0 := Int.natCast_ne_zero.mpr hpos.ne'
  have hnonneg : ¬ (n : ℤ) < 0 := not_lt.mpr (Int.natCast_nonneg n)
  rw [sysSbrk, wp_bind, wp_look, if_neg hne, growTo_pos oom hpos hlt hbrk]
  by_cases hfail : s.brk + n ≥ KERNBASE ∨ oom = true
  · rw [if_pos hfail, if_pos rfl, wp_bind, wp_modify, wp_pure, if_neg hnonneg]
    exact .inl ⟨rfl, rfl⟩
  · have hsz : s.brk + n ≠ 0 := by omega
    have hgrow : s.brk < s.brk + n := Nat.lt_add_of_pos_right hpos
    rw [if_neg hfail, if_neg hsz, wp_bind, wp_modify, wp_pure, if_pos hgrow,
      Nat.add_sub_cancel_left]
    exact .inr ⟨le_rfl, not_le.mp (not_or.mp hfail).1, rfl⟩

/-! ## `malloc` -/

/-- Before the first call, or with a sound list -/
def Ready (base bound : ℕ) (s : Heap) (A : List Extent) : Prop :=
  (s.freep = 0 ∧ A = [] ∧ s.got = [] ∧ base + HEADER ≤ s.brk ∧ s.brk < bound) ∨ ∃ R,
    Sound base bound s R A

/-- The list of which `base` is the only node -/
theorem wp_initList (h : Ready base bound s A) (hbase : 0 < base) :
    wp F (initList base) (fun prevp s' => prevp = s'.freep ∧ ∃ R, Sound base bound s' R A) s := by
  rw [initList, wp_bind, wp_look]
  rcases h with ⟨hnull, rfl, hgot, hlow, hhigh⟩ | ⟨R, hsound⟩
  · rw [if_pos (by simpa using hnull), wp_bind, wp_modify, wp_pure]
    refine ⟨rfl, [⟨base, 0⟩], ?_⟩
    refine ⟨⟨rfl, update_self ..⟩, List.mem_cons_self, ?_, List.pairwise_singleton _ _,
      ?_, nofun, ?_, List.Pairwise.nil, ?_, hlow, hhigh⟩
    · intro e he
      obtain rfl : e = ⟨base, 0⟩ := List.mem_singleton.mp he
      exact update_self ..
    · exact fun e he => .inl (List.mem_singleton.mp he)
    · rw [Extents.cover_nil]
      exact disjoint_bot_right
    · have hnone : Heap.obtained { s with
          ptr := update s.ptr base base
          size := update s.size base 0
          freep := base } = [] := by
        rw [Heap.obtained, hgot]
        rfl
      rw [hnone, Extents.cover_nil, Extents.cover_cons, Extents.cover_nil, Set.union_empty,
        Set.union_empty]
      ext x
      simp [cells]
  · have hne : s.freep ≠ 0 := by
      obtain ⟨f, hf, hfreep⟩ := List.mem_map.mp hsound.freep
      have := hsound.base_le hf
      omega
    rw [if_neg (by simpa using hne), wp_look]
    exact ⟨rfl, R, hsound⟩

/-- The units for `nbytes` bytes, and how many bytes they are: nothing wraps. -/
theorem unitsFor_spec {nbytes : ℕ} (h : nbytes ≤ 2 ^ 31 - 16) :
    0 < unitsFor nbytes ∧ HEADER * unitsFor nbytes < 2 ^ 31 ∧ nbytes + HEADER ≤
      HEADER * unitsFor nbytes := by
  rw [unitsFor]
  lia

/-- **`malloc` returns 0, or a block.** -/
theorem Ready.wp_malloc {sbrk : ℤ → HeapM ℕ} {nbytes : ℕ} (h : Ready base bound s A)
    (hbase : 0 < base)
    (hbound : bound ≤ 2 ^ 32) (hsbrk : Fresh bound sbrk) (hn : nbytes ≤ 2 ^ 31 - 16)
    (hfuel : 2 ^ 33 ≤ fuel) : wp (fun _ => False) (malloc base fuel sbrk nbytes) (fun r s' =>
      r = 0 ∧ Ready base bound s' A ∨ Returned base bound A (unitsFor nbytes) r s') s := by
  obtain ⟨hpos, hlt, -⟩ := unitsFor_spec hn
  rw [malloc, wp_bind]
  apply wp_mono (wp_initList h hbase)
  rintro _ s₁ ⟨rfl, R, hsound⟩
  obtain ⟨l, hpath, hnot, hperm⟩ := hsound.around
  have hlen : l.length + 2 ^ 32 ≤ fuel := by
    have hl := hperm.length_eq
    rw [List.length_append, List.length_map, List.length_singleton] at hl
    have := hsound.length_le
    have := hsound.high
    lia
  rw [wp_bind, wp_look]
  apply wp_mono (hsound.wp_mallocLoop hbase hbound hsbrk hpos hlt (by lia)
    hsound.freep rfl hpath (fun x hx => hperm.mem_iff.mp (List.mem_append_left _ hx)) hnot hlen)
  rintro r s' (⟨rfl, rfl⟩ | hr)
  · exact .inl ⟨rfl, .inr ⟨R, hsound⟩⟩
  · exact .inr hr

/-! ## Runs -/

/-- The order of the blocks in use does not matter. -/
theorem Sound.perm (h : Sound base bound s R A) (hperm : A.Perm A') : Sound base bound s R A' := by
  have hcover : ∀ g : Extent → Set ℕ, cover g A' = cover g A := by
    intro g
    ext x
    simp only [Extents.mem_cover, hperm.mem_iff]
  refine ⟨h.cycle, h.freep, ?_, h.spaced, h.listed, fun e he => h.used e (hperm.mem_iff.mpr he),
    ?_, ?_, ?_, h.low, h.high⟩
  · intro e he
    exact h.sizes e ((hperm.append_left R).mem_iff.mpr he)
  · rw [hcover]
    exact h.apart
  · exact (hperm.pairwise_iff fun hdis => hdis.symm).mp h.distinct
  · rw [hcover]
    exact h.all

/-- The list, and the pointers to the blocks in use -/
def Running (base bound : ℕ) (s : State) : Prop :=
  ∃ A, Ready base bound s.heap A ∧ s.live = A.map fun e => e.addr + HEADER

/-- The bytes that a call asks for -/
def Op.AtMost {ε : Type} (n : ℕ) : Op ε → Prop
  | .malloc nbytes _ => nbytes ≤ n
  | .free _ => True

/-- One call -/
theorem Running.step {ε : Type} {sbrk : ε → ℤ → HeapM ℕ} {s : State} {op : Op ε}
    (h : Running base bound s)
    (hbase : 0 < base) (hbound : bound ≤ 2 ^ 32) (hsbrk : ∀ env, Fresh bound (sbrk env))
    (hop : op.AtMost (2 ^ 31 - 16)) (hfuel : 2 ^ 33 ≤ fuel) :
    ∃ s', runOp base fuel sbrk s op = .ok s' ∧ Running base bound s' := by
  obtain ⟨A, hready, hlive⟩ := h
  cases op with
  | malloc nbytes env =>
    obtain ⟨p, heap, hrun, hp⟩ := Wp.exists_ok (hready.wp_malloc hbase hbound (hsbrk env) hop hfuel)
    rw [runOp, hrun]
    refine ⟨_, rfl, ?_⟩
    rcases hp with ⟨rfl, hready'⟩ | ⟨R, b, hsound, -, rfl⟩
    · exact ⟨A, hready', hlive⟩
    · refine ⟨b :: A, .inr ⟨R, hsound⟩, ?_⟩
      rw [if_neg (by norm_num), hlive]
      rfl
  | free k =>
    rw [runOp]
    cases hk : s.live[k]? with
    | none => exact ⟨s, rfl, A, hready, hlive⟩
    | some p =>
      rw [hlive, List.getElem?_map, Option.map_eq_some_iff] at hk
      obtain ⟨e, he, rfl⟩ := hk
      obtain ⟨hlt, hget⟩ := List.getElem?_eq_some_iff.mp he
      have hperm : A.Perm (e :: A.eraseIdx k) := by
        rw [← hget]
        exact (List.getElem_cons_eraseIdx_perm hlt).symm
      rcases hready with ⟨-, rfl, -⟩ | ⟨R, hsound⟩
      · exact absurd hlt (Nat.not_lt_zero k)
      have hsound' := hsound.perm hperm
      have haddr : e.addr + HEADER = header e.addr 1 := by
        have hhigh := hsound.high
        obtain ⟨-, hpos, hstop⟩ := hsound'.used e List.mem_cons_self
        rw [Extent.stop] at hstop
        rw [header]
        lia
      have hlen : R.length ≤ fuel := by
        have := hsound.length_le
        have := hsound.high
        lia
      obtain ⟨_, heap, hrun, -, -, R', hfreed, -⟩ := Wp.exists_ok (hsound'.wp_free hbound hlen)
      dsimp only
      rw [haddr, hrun]
      refine ⟨_, rfl, A.eraseIdx k, .inr ⟨R', hfreed⟩, ?_⟩
      rw [hlive, List.eraseIdx_map]

/-- **Calls one after another**, by induction on them -/
theorem Running.run {ε : Type} {sbrk : ε → ℤ → HeapM ℕ} {s : State} {ops : List (Op ε)}
    (h : Running base bound s) (hbase : 0 < base) (hbound : bound ≤ 2 ^ 32)
    (hsbrk : ∀ env, Fresh bound (sbrk env)) (hops : ∀ op ∈ ops, op.AtMost (2 ^ 31 - 16))
    (hfuel : 2 ^ 33 ≤ fuel) : ∃ s', runOps base fuel sbrk s ops = .ok s' ∧
    Running base bound s' := by
  induction ops generalizing s with
  | nil => exact ⟨s, rfl, h⟩
  | cons op ops ih =>
    obtain ⟨s₁, hrun, h₁⟩ := h.step hbase hbound hsbrk (hops op List.mem_cons_self) hfuel
    obtain ⟨s₂, hruns, h₂⟩ := ih h₁ fun op' hop' => hops op' (List.mem_cons_of_mem op hop')
    refine ⟨s₂, ?_, h₂⟩
    rw [runOps, List.foldlM_cons, hrun]
    exact hruns

theorem running_initial {ptr size : ℕ → ℕ} {brk : ℕ} (hlow : base + HEADER ≤ brk)
    (hhigh : brk < bound) : Running base bound (initial ptr size brk) :=
  ⟨[], .inl ⟨rfl, rfl, rfl, hlow, hhigh⟩, rfl⟩

/-! ## Enough memory -/

/-- The block of a pointer that `malloc` has returned, with its header -/
def Heap.block (s : Heap) (p : ℕ) : Extent := ⟨p - HEADER, s.size (p - HEADER)⟩

theorem Sound.block_eq (h : Sound base bound s R A) (he : e ∈ A) :
    s.block (e.addr + HEADER) = e := by
  rw [Heap.block, Nat.add_sub_cancel, h.sizes e (List.mem_append_right R he)]

/-- The bytes of a block in use are from `sbrk`. -/
theorem Sound.mem_got {x : ℕ} (h : Sound base bound s R A) (he : e ∈ A) (hx : x ∈ bytes HEADER e) :
    ∃ r ∈ s.got, r.1 ≤ x ∧ x < r.1 + r.2 := by
  obtain ⟨hle, hlt⟩ := hx
  -- the unit that the byte is in
  have hcell : e.addr + HEADER * ((x - e.addr) / HEADER) ∈ cells HEADER e := by
    refine ⟨(x - e.addr) / HEADER, ?_, rfl⟩
    rw [Extent.stop] at hlt
    lia
  have hall : e.addr + HEADER * ((x - e.addr) / HEADER) ∈ cover (cells HEADER) s.obtained := by
    rw [← h.all]
    exact .inr ⟨e, he, hcell⟩
  obtain ⟨f, hf, k, hk, heq⟩ := hall
  obtain ⟨r, hr, rfl⟩ := List.mem_map.mp hf
  refine ⟨r, hr, ?_⟩
  lia

/-- **`malloc` returns enough, if no call asks for more than `2 ^ 31 - 16` bytes**: 0, or a pointer
to as many bytes from `sbrk`, none of which is in a block that is in use. -/
theorem malloc_enough {ptr size : ℕ → ℕ} {brk : ℕ} {ops : List (Op Bool)} (hbase : 0 < base)
    (hlow : base + HEADER ≤ brk) (hhigh : brk < KERNBASE) (hfuel : 2 ^ 33 ≤ fuel)
    (hops : ∀ op ∈ ops, op.AtMost (2 ^ 31 - 16)) :
    ∃ s, runOps base fuel sysSbrk (initial ptr size brk) ops = .ok s ∧
      ∀ nbytes oom, nbytes ≤ 2 ^ 31 - 16 → ∃ p s',
      malloc base fuel (sysSbrk oom) nbytes s.heap = .ok (p, s') ∧
        (p = 0 ∨ (∀ x, p ≤ x → x < p + nbytes → ∃ r ∈ s'.got, r.1 ≤ x ∧ x < r.1 + r.2) ∧
          ∀ p' ∈ s.live, p + nbytes ≤ (s.heap.block p').addr ∨
          (s.heap.block p').stop HEADER ≤ p) := by
  have hbound : KERNBASE ≤ 2 ^ 32 := by norm_num
  obtain ⟨s, hrun, A, hready, hlive⟩ :=
    (running_initial hlow hhigh).run hbase hbound fresh_sysSbrk hops hfuel
  refine ⟨s, hrun, ?_⟩
  intro nbytes oom hn
  obtain ⟨p, s', hmalloc, hp⟩ := Wp.exists_ok
    (hready.wp_malloc hbase hbound (fresh_sysSbrk oom) hn hfuel)
  refine ⟨p, s', hmalloc, ?_⟩
  rcases hp with ⟨hnull, -⟩ | ⟨R', b, hsound, hunits, rfl⟩
  · exact .inl hnull
  obtain ⟨-, -, henough⟩ := unitsFor_spec hn
  have hb : IsBlock base s'.brk b := hsound.used b List.mem_cons_self
  refine .inr ⟨?_, ?_⟩
  · intro x hx hx'
    apply hsound.mem_got List.mem_cons_self
    rw [bytes, Set.mem_Ico, Extent.stop, hunits]
    lia
  · intro p' hp'
    rw [hlive] at hp'
    obtain ⟨e, he, rfl⟩ := List.mem_map.mp hp'
    rcases hready with ⟨-, rfl, -⟩ | ⟨R, hold⟩
    · exact absurd he List.not_mem_nil
    have hdis := (List.pairwise_cons.mp hsound.distinct).1 e he
    have hused := hsound.used e (List.mem_cons_of_mem b he)
    rw [hold.block_eq he]
    rcases (hb.apart hused).mp hdis with hlt | hlt
    · left
      rw [Extent.stop, hunits] at hlt
      lia
    · right
      exact hlt.trans (Nat.le_add_right ..)

/-- After a `malloc` and a `free` -/
theorem malloc_enough_again : ∃ s,
    runOps 100 (2 ^ 33) sysSbrk (initial (fun _ => 0) (fun _ => 0) 4096)
      [.malloc 100 false, .malloc 200 false, .free 0] = .ok s ∧
    ∃ p s', malloc 100 (2 ^ 33) (sysSbrk false) 1000 s.heap = .ok (p, s') ∧
      (p = 0 ∨ (∀ x, p ≤ x → x < p + 1000 → ∃ r ∈ s'.got, r.1 ≤ x ∧ x < r.1 + r.2) ∧
        ∀ p' ∈ s.live, p + 1000 ≤ (s.heap.block p').addr ∨ (s.heap.block p').stop HEADER ≤ p) := by
  obtain ⟨s, hrun, hmalloc⟩ := @malloc_enough 100 (2 ^ 33) (fun _ => 0) (fun _ => 0) 4096
    [.malloc 100 false, .malloc 200 false, .free 0] (by decide) (by decide) (by decide) le_rfl
    (by simp [Op.AtMost])
  exact ⟨s, hrun, hmalloc 1000 false (by norm_num)⟩

/-- `malloc(0xffffffff)` returns a pointer to the end of the memory. -/
theorem malloc_wraps : ∃ p s', malloc 100 (2 ^ 33) (sysSbrk false) (2 ^ 32 - 1)
      (initial (fun _ => 0) (fun _ => 0) 4096).heap = .ok (p, s') ∧ p ≠ 0 ∧
    ¬ ∀ x, p ≤ x → x < p + (2 ^ 32 - 1) → ∃ r ∈ s'.got, r.1 ≤ x ∧ x < r.1 + r.2 := by
  have hrun : (malloc 100 (2 ^ 33) (sysSbrk false) (2 ^ 32 - 1)
      (initial (fun _ => 0) (fun _ => 0) 4096).heap).toOption.map (fun r => (r.1, r.2.got)) =
      some (36864, [(4096, 32768)]) := by decide +kernel
  cases hmalloc : malloc 100 (2 ^ 33) (sysSbrk false) (2 ^ 32 - 1)
      (initial (fun _ => 0) (fun _ => 0) 4096).heap with
  | error e =>
    rw [hmalloc] at hrun
    cases hrun
  | ok r =>
    obtain ⟨p, s'⟩ := r
    rw [hmalloc] at hrun
    obtain ⟨rfl, hgot⟩ := Prod.mk.inj (Option.some.inj hrun)
    refine ⟨_, s', rfl, by decide, ?_⟩
    intro henough
    obtain ⟨r, hr, hle, hlt⟩ := henough 36864 le_rfl (by norm_num)
    rw [hgot, List.mem_singleton] at hr
    subst hr
    norm_num at hlt

/-! ## The free list -/

/-- The list from `freep`: the nodes `hi`, and then `lo`, whose addresses are lower -/
structure FreeList (s : Heap) (lo hi : List Extent) : Prop where
  cycle : Cycle.Path s.ptr s.freep ((hi ++ lo).map Extent.addr) s.freep
  nonempty : hi ≠ []
  sizes : ∀ e ∈ lo ++ hi, s.size e.addr = e.units
  spaced : Spaced HEADER (lo ++ hi)

theorem Sound.freeList (h : Sound base bound s R A) : ∃ lo hi, R = lo ++ hi ∧ FreeList s lo hi := by
  obtain ⟨f, hf, hfreep⟩ := List.mem_map.mp h.freep
  obtain ⟨lo, l, rfl⟩ := List.append_of_mem hf
  refine ⟨lo, f :: l, rfl, ?_, List.cons_ne_nil f l,
    fun e he => h.sizes e (List.mem_append_left A he), h.spaced⟩
  have hcycle := h.cycle
  rw [List.map_append, List.map_cons] at hcycle
  rw [List.map_append, List.map_cons, ← hfreep]
  exact hcycle.rotate

/-- **The free list is sound.**  After any calls, all of which return, there has been no call of
`malloc`, or the list is one cycle in the order of addresses with one place where it wraps, no two
of its blocks overlap or touch, none overlaps a block in use, and the units of both are those from
`sbrk`. -/
theorem free_list_sound {ptr size : ℕ → ℕ} {brk : ℕ} {ops : List (Op (Option ℕ))} (hbase : 0 < base)
    (hlow : base + HEADER ≤ brk) (hhigh : brk < 2 ^ 32) (hfuel : 2 ^ 33 ≤ fuel)
    (hops : ∀ op ∈ ops, op.AtMost (2 ^ 30 - 1)) :
    ∃ s, runOps base fuel sbrkAt (initial ptr size brk) ops = .ok s ∧
      (s.heap.freep = 0 ∧ s.live = [] ∧ s.heap.got = [] ∨
        ∃ lo hi, FreeList s.heap lo hi ∧
          (∀ e ∈ lo ++ hi, ∀ p ∈ s.live, Disjoint (bytes HEADER e)
          (bytes HEADER (s.heap.block p))) ∧
          (s.live.map s.heap.block).Pairwise
          (fun e f => Disjoint (bytes HEADER e) (bytes HEADER f)) ∧
          cover (cells HEADER) (lo ++ hi) ∪ cover (cells HEADER) (s.live.map s.heap.block) =
            cover (cells HEADER) s.heap.obtained) := by
  have hsmall : ∀ op ∈ ops, op.AtMost (2 ^ 31 - 16) := by
    intro op hop
    cases op with
    | malloc nbytes env =>
      have hle : nbytes ≤ 2 ^ 30 - 1 := hops _ hop
      show nbytes ≤ 2 ^ 31 - 16
      omega
    | free k => trivial
  obtain ⟨s, hrun, A, hready, hlive⟩ :=
    (running_initial hlow hhigh).run hbase le_rfl fresh_sbrkAt hsmall hfuel
  refine ⟨s, hrun, ?_⟩
  rcases hready with ⟨hnull, rfl, hgot, -⟩ | ⟨R, hsound⟩
  · exact .inl ⟨hnull, hlive, hgot⟩
  · obtain ⟨lo, hi, rfl, hlist⟩ := hsound.freeList
    have hblocks : s.live.map s.heap.block = A := by
      rw [hlive, List.map_map]
      exact (List.map_congr_left fun e he => hsound.block_eq he).trans (List.map_id A)
    refine .inr ⟨lo, hi, hlist, ?_, ?_, ?_⟩
    · intro e he p hp
      have hp' : s.heap.block p ∈ A := hblocks ▸ List.mem_map_of_mem hp
      exact hsound.disjoint he hp'
    · rw [hblocks]
      exact hsound.distinct
    · rw [hblocks]
      exact hsound.all

/-- Two blocks are taken from the first memory, one is freed, and there is more memory further
up. -/
theorem free_list_sound_gap : ∃ s,
    runOps 100 (2 ^ 33) sbrkAt (initial (fun _ => 0) (fun _ => 0) 4096)
      [.malloc 100 (some 5000), .malloc 200 none, .free 1, .malloc 40000 (some 90000)] = .ok s ∧
    ∃ lo hi, FreeList s.heap lo hi ∧
      cover (cells HEADER) (lo ++ hi) ∪ cover (cells HEADER) (s.live.map s.heap.block) =
        cover (cells HEADER) s.heap.obtained := by
  have hfreep : (runOps 100 (2 ^ 33) sbrkAt (initial (fun _ => 0) (fun _ => 0) 4096)
      [.malloc 100 (some 5000), .malloc 200 none, .free 1, .malloc 40000 (some 90000)]).toOption.map
      (fun s => decide (s.heap.freep = 0)) = some false := by decide +kernel
  obtain ⟨s, hrun, hs⟩ := @free_list_sound 100 (2 ^ 33) (fun _ => 0) (fun _ => 0) 4096
    [.malloc 100 (some 5000), .malloc 200 none, .free 1, .malloc 40000 (some 90000)]
    (by decide) (by decide) (by decide) le_rfl (by simp [Op.AtMost])
  rw [hrun] at hfreep
  have hne : s.heap.freep ≠ 0 := of_decide_eq_false (Option.some.inj hfreep)
  rcases hs with ⟨hnull, -⟩ | ⟨lo, hi, hlist, -, -, hall⟩
  · exact absurd hnull hne
  · exact ⟨s, hrun, lo, hi, hlist, hall⟩

end Xv6Mlfq.Umalloc
