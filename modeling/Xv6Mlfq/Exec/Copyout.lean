import Xv6Mlfq.Exec.Load

/-!
# `copyout`

`copyout` copies bytes to user addresses of an address space that need not be the one in use.  It
goes from page to page and asks `uva2ka` for each.  As long as it finds user pages it writes; at a
page that is not one it returns -1, if there is a page table for it.  If there is none,
`uva2ka` follows a null pointer.

## Main definitions

* `UserPage pd k` — page number `k` is mapped, for users.
* `Overlaps va len k` — some of the bytes are in page number `k`.
* `Replaced pd va buf mem mem'` — the bytes have been written, and nothing else.

## Main results

* `wp_copyLoop_reach` — the loop comes to a page if those before are user pages.
* `wp_copyLoop_blocked` — it does not go past one that is not for users.
* `copyout_exact_iff` — `copyout` does as it should, whatever is at address 0, as long as the pages
  it comes to have page tables.
-/

namespace Xv6Mlfq.Exec

open Function (update update_self update_of_ne)
open Wp (wp wp_mono wp_bind wp_pure wp_look wp_throw)
open Blocks (Bytes)
open Vm (PGSIZE NPAGES NUSER Pgdir Pte pgrounddown pdx)
open Mem (Ram wp_onMmu)

variable {F : String → Prop} {cur : Pgdir} {r r' : Ram} {va K : ℕ} {buf : List UInt8}

/-! ## Pages -/

/-- Page number `k` is mapped, for users. -/
def UserPage (pd : Pgdir) (k : ℕ) : Prop := ∃ e, pd.entry k = some e ∧ e.perm.u = true

/-- Some of the `len` bytes from `va` on are in page number `k`. -/
def Overlaps (va len k : ℕ) : Prop := ∃ i < len, (va + i) / PGSIZE = k

/-- There is a page table for page number `k`. -/
def HasTable (pd : Pgdir) (k : ℕ) : Prop := (pd.pde (pdx (k * PGSIZE))).isSome = true

variable {pd : Pgdir} {k i : ℕ} {e : Pte} {Q : Bool → Ram → Prop}

theorem not_userPage (he : pd.entry k = some e) (hu : e.perm.u = false) : ¬ UserPage pd k := by
  rintro ⟨e', he', hu'⟩
  rw [he] at he'
  cases he'
  rw [hu] at hu'
  cases hu'

theorem wp_walk_there (h : HasTable r.pgdir k) (hQ : Q true r) :
    wp F (Mem.onMmu (Vm.walkpgdir (k * PGSIZE) false)) Q r := by
  rw [wp_onMmu]
  apply wp_mono Vm.wp_walkpgdir
  rintro there m₁ ⟨_, hm₁, _, hnone⟩
  obtain rfl := hm₁ rfl
  cases there with
  | true => exact hQ
  | false =>
    rw [HasTable, hnone rfl] at h
    cases h

theorem wp_walk_absent (h : ¬ HasTable r.pgdir k) (hQ : Q false r) :
    wp F (Mem.onMmu (Vm.walkpgdir (k * PGSIZE) false)) Q r := by
  rw [wp_onMmu]
  apply wp_mono Vm.wp_walkpgdir
  rintro there m₁ ⟨_, hm₁, hsome, _⟩
  obtain rfl := hm₁ rfl
  cases there with
  | false => exact hQ
  | true => exact absurd (hsome rfl) h

/-- `uva2ka` of a page that is mapped -/
theorem wp_uva2ka (he : r.pgdir.entry k = some e) :
    wp F (uva2ka cur (k * PGSIZE)) (fun res r' => r' = r ∧
      res = if e.perm.u = true then some e.addr else none) r := by
  obtain ⟨-, htable, hpte, hpresent⟩ := Vm.entry_isSome_pde he
  rw [uva2ka, wp_bind]
  apply wp_walk_there htable
  rw [wp_bind, wp_look, if_pos rfl, hpte]
  dsimp only
  rw [if_neg (by simp [hpresent])]
  by_cases hu : e.perm.u = true
  · rw [if_neg (by simp [hu]), if_pos hu, wp_pure]
    exact ⟨rfl, rfl⟩
  · rw [if_pos (by simpa using hu), if_neg hu, wp_pure]
    exact ⟨rfl, rfl⟩

/-- `uva2ka` of a page that is not mapped for users, but has a page table -/
theorem wp_uva2ka_none (hk : k < NPAGES) (htable : HasTable r.pgdir k)
    (huser : ¬ UserPage r.pgdir k) :
    wp F (uva2ka cur (k * PGSIZE)) (fun res r' => r' = r ∧ res = none) r := by
  rw [uva2ka, wp_bind]
  apply wp_walk_there htable
  obtain ⟨t, ht⟩ := Option.isSome_iff_exists.mp htable
  have hpte : r.pgdir.pte (k * PGSIZE) = some (t.2 (Vm.ptx (k * PGSIZE))) := by
    rw [Pgdir.pte, ht]
    rfl
  rw [wp_bind, wp_look, if_pos rfl, hpte]
  dsimp only
  split_ifs with hp hu
  · rw [wp_pure]
    exact ⟨rfl, rfl⟩
  · rw [wp_pure]
    exact ⟨rfl, rfl⟩
  · exfalso
    apply huser
    exact ⟨_, Vm.entry_of_pte hk hpte (by simpa using hp), by simpa using hu⟩

/-- Without a page table, and without a page at address 0, the kernel traps. -/
theorem wp_uva2ka_null (htable : ¬ HasTable r.pgdir k) (hcur : cur.pte 0 = none) :
    wp (· = "trap") (uva2ka cur (k * PGSIZE)) (fun _ _ => False) r := by
  rw [uva2ka, wp_bind]
  apply wp_walk_absent htable
  rw [wp_bind, wp_look, if_neg (by decide), pteAtZero, hcur, wp_throw]

/-- Whatever `uva2ka` finds, it changes nothing. -/
theorem wp_uva2ka_any (htrap : F "trap") (a : ℕ) :
    wp F (uva2ka cur a) (fun _ r' => r' = r) r := by
  rw [uva2ka, wp_bind, wp_onMmu]
  apply wp_mono Vm.wp_walkpgdir
  rintro there m₁ ⟨_, hm₁, _, _⟩
  obtain rfl := hm₁ rfl
  rw [wp_bind, wp_look]
  split
  · rw [wp_throw]
    exact htrap
  · split_ifs
    · rw [wp_pure]
    · rw [wp_pure]
    · rw [wp_pure]

/-! ## Rounds -/

/-- How much of the bytes goes into the first page -/
def chunk (va : ℕ) (buf : List UInt8) : ℕ := min (PGSIZE - va % PGSIZE) buf.length

theorem sub_pgrounddown (va : ℕ) : va - pgrounddown va = va % PGSIZE := by
  rw [pgrounddown]
  lia

theorem copyLoop_nil (fuel va : ℕ) : copyLoop cur fuel va [] = pure true := by
  cases fuel <;> rfl

/-- The rest begins on the next page. -/
theorem div_of_chunk_le (hi : chunk va buf ≤ i) (hlt : i < buf.length) :
    (va / PGSIZE * PGSIZE + PGSIZE) + (i - chunk va buf) = va + i := by
  rw [chunk] at *
  lia

theorem div_of_lt_chunk (hi : i < chunk va buf) :
    (va + i) / PGSIZE = va / PGSIZE ∧ (va + i) % PGSIZE = va % PGSIZE + i := by
  rw [chunk] at hi
  lia

theorem chunk_pos (va : ℕ) (hlen : 0 < buf.length) : 0 < chunk va buf := by
  rw [chunk]
  lia

/-- One round, in a user page -/
theorem wp_copyLoop_round {n : ℕ} (hlen : 0 < buf.length)
    (he : r.pgdir.entry (va / PGSIZE) = some e) (hu : e.perm.u = true)
    (hrest : wp F (copyLoop cur n ((va / PGSIZE * PGSIZE + PGSIZE) % 2 ^ 32)
      (buf.drop (chunk va buf))) Q
      ⟨r.toMmu, update r.mem e.addr (Bytes.move (r.mem e.addr) (va % PGSIZE)
        (buf.take (chunk va buf)))⟩) :
    wp F (copyLoop cur (n + 1) va buf) Q r := by
  rw [copyLoop, if_pos hlen, pgrounddown, wp_bind]
  apply wp_mono (wp_uva2ka he)
  rintro _ r₁ ⟨rfl, rfl⟩
  rw [if_pos hu]
  rw [wp_bind, wp_memmove, ← pgrounddown, sub_pgrounddown]
  exact hrest

/-- One round that goes no further -/
theorem wp_copyLoop_stop {n : ℕ} (hlen : 0 < buf.length) (hva : va < 2 ^ 32)
    (htable : HasTable r.pgdir (va / PGSIZE)) (huser : ¬ UserPage r.pgdir (va / PGSIZE)) :
    wp F (copyLoop cur (n + 1) va buf) (fun ok r' => r' = r ∧ ok = false) r := by
  have hk : va / PGSIZE < NPAGES := by lia
  rw [copyLoop, if_pos hlen, pgrounddown, wp_bind]
  apply wp_mono (wp_uva2ka_none hk htable huser)
  rintro _ r₁ ⟨rfl, rfl⟩
  rw [wp_pure]
  exact ⟨rfl, rfl⟩

/-- Pages of the rest are pages of the whole. -/
theorem Overlaps.of_rest
    (h : Overlaps (va / PGSIZE * PGSIZE + PGSIZE) (buf.drop (chunk va buf)).length k) :
    Overlaps va buf.length k := by
  obtain ⟨i, hi, rfl⟩ := h
  rw [List.length_drop] at hi
  have hback := div_of_chunk_le (Nat.le_add_left (chunk va buf) i) (Nat.add_lt_of_lt_sub hi)
  rw [Nat.add_sub_cancel] at hback
  rw [hback]
  exact ⟨i + chunk va buf, by omega, rfl⟩

theorem Overlaps.rest (h : Overlaps va buf.length k) (hk : k ≠ va / PGSIZE) :
    Overlaps (va / PGSIZE * PGSIZE + PGSIZE) (buf.drop (chunk va buf)).length k := by
  obtain ⟨i, hi, rfl⟩ := h
  have hge : chunk va buf ≤ i := by
    by_contra hlt
    exact hk (div_of_lt_chunk (not_le.mp hlt)).1
  refine ⟨i - chunk va buf, ?_, ?_⟩
  · rw [List.length_drop]
    omega
  · rw [div_of_chunk_le hge hi]

theorem overlaps_first (hlen : 0 < buf.length) : Overlaps va buf.length (va / PGSIZE) :=
  ⟨0, hlen, rfl⟩

theorem Overlaps.le {len : ℕ} (h : Overlaps va len k) : va / PGSIZE ≤ k := by
  obtain ⟨i, -, rfl⟩ := h
  exact Nat.div_le_div_right (Nat.le_add_right va i)

theorem Overlaps.pos (h : Overlaps va buf.length k) : 0 < buf.length := by
  obtain ⟨i, hi, -⟩ := h
  omega

/-- The address of the next page, which is not after the last one -/
theorem next_page_lt (hk : k < NPAGES) (hlt : va / PGSIZE < k) :
    (va / PGSIZE * PGSIZE + PGSIZE) % 2 ^ 32 = va / PGSIZE * PGSIZE + PGSIZE ∧
      (va / PGSIZE * PGSIZE + PGSIZE) / PGSIZE = va / PGSIZE + 1 := by
  lia

/-- **The loop comes to page `K`**, if those before it are user pages.  By induction on the
rounds -/
theorem wp_copyLoop_reach {fuel : ℕ} (hK : K < NPAGES) (hover : Overlaps va buf.length K)
    (huser : ∀ j < K, Overlaps va buf.length j → UserPage r.pgdir j) (hfuel : buf.length ≤ fuel)
    (hgoal : ∀ (r₁ : Ram) (n va' : ℕ) (buf' : List UInt8), r₁.toMmu = r.toMmu →
      (K ≤ NUSER ∨ va / PGSIZE = K → Wrote r r₁) → va' / PGSIZE = K → 0 < buf'.length →
      wp F (copyLoop cur (n + 1) va' buf') Q r₁) :
    wp F (copyLoop cur fuel va buf) Q r := by
  have hlen := hover.pos
  induction fuel generalizing va buf r with
  | zero => omega
  | succ n ih =>
    by_cases hfirst : va / PGSIZE = K
    · exact hgoal r n va buf rfl (fun _ => .refl r) hfirst hlen
    have hlt : va / PGSIZE < K := lt_of_le_of_ne hover.le hfirst
    obtain ⟨hmod, hdiv⟩ := next_page_lt hK hlt
    obtain ⟨e, he, hu⟩ := huser _ hlt (overlaps_first hlen)
    have hover' := hover.rest (Ne.symm hfirst)
    have hfuel' : (buf.drop (chunk va buf)).length ≤ n := by
      have := chunk_pos va hlen
      rw [List.length_drop]
      omega
    apply wp_copyLoop_round hlen he hu
    rw [hmod]
    apply ih (r := ⟨r.toMmu, update r.mem e.addr _⟩) hover' (fun j hj ho => huser j hj ho.of_rest)
      hfuel' _ hover'.pos
    intro r₁ n' va' buf' hsame hwrote
    apply hgoal r₁ n' va' buf' hsame
    intro hlow
    have hlow' : K ≤ NUSER := hlow.resolve_right hfirst
    exact .trans (.page (hlt.trans_le hlow') he _) (hwrote (.inl hlow'))

/-- Whatever the pages before are, the loop does not go past a page that is not for users.  By
induction on the rounds -/
theorem wp_copyLoop_blocked {fuel : ℕ} (htrap : F "trap") (hK : K < NPAGES)
    (hover : Overlaps va buf.length K) (hnot : ¬ UserPage r.pgdir K) (htable : HasTable r.pgdir K)
    (hfuel : buf.length ≤ fuel) :
    wp F (copyLoop cur fuel va buf) (fun ok r' => r'.toMmu = r.toMmu ∧ ok = false) r := by
  have hlen := hover.pos
  induction fuel generalizing va buf r with
  | zero => omega
  | succ n ih =>
    by_cases hfirst : va / PGSIZE = K
    · subst hfirst
      have hva : va < 2 ^ 32 := by lia
      apply wp_mono (wp_copyLoop_stop hlen hva htable hnot)
      rintro ok r' ⟨rfl, hok⟩
      exact ⟨rfl, hok⟩
    have hlt : va / PGSIZE < K := lt_of_le_of_ne hover.le hfirst
    obtain ⟨hmod, -⟩ := next_page_lt hK hlt
    have hover' := hover.rest (Ne.symm hfirst)
    have hfuel' : (buf.drop (chunk va buf)).length ≤ n := by
      have := chunk_pos va hlen
      rw [List.length_drop]
      omega
    rw [copyLoop, if_pos hlen, pgrounddown, wp_bind]
    apply wp_mono (wp_uva2ka_any htrap _)
    rintro res r₁ rfl
    cases res with
    | none =>
      rw [wp_pure]
      exact ⟨rfl, rfl⟩
    | some pa =>
      rw [wp_bind, wp_memmove, ← pgrounddown, sub_pgrounddown, pgrounddown, hmod]
      exact ih (r := ⟨r₁.toMmu, update r₁.mem pa _⟩) hover' hnot htable hfuel' hover'.pos

/-! ## Writing -/

/-- The physical address of `va`: a page, and the place in it -/
def place (pd : Pgdir) (va : ℕ) : Option (ℕ × ℕ) :=
  (pd.entry (va / PGSIZE)).map fun e => (e.addr, va % PGSIZE)

/-- The bytes have been written to the addresses from `va` on, and nothing else has.  Where two of
these addresses are the same place, the last one counts. -/
structure Replaced (pd : Pgdir) (va : ℕ) (buf : List UInt8) (mem mem' : ℕ → Bytes) : Prop where
  written : ∀ i pg o, i < buf.length → place pd (va + i) = some (pg, o) →
    (∀ j, i < j → j < buf.length → place pd (va + j) ≠ some (pg, o)) → mem' pg o = buf.getD i 0
  kept : ∀ pg o, (∀ i < buf.length, place pd (va + i) ≠ some (pg, o)) → mem' pg o = mem pg o

theorem Replaced.nil (pd : Pgdir) (va : ℕ) (mem : ℕ → Bytes) : Replaced pd va [] mem mem :=
  ⟨fun _ _ _ hi => absurd hi (Nat.not_lt_zero _), fun _ _ _ => rfl⟩

theorem place_of_lt_chunk (he : pd.entry (va / PGSIZE) = some e)
    (hi : i < chunk va buf) : place pd (va + i) = some (e.addr, va % PGSIZE + i) := by
  obtain ⟨hdiv, hmod⟩ := div_of_lt_chunk hi
  rw [place, hdiv, hmod, he]
  rfl

theorem length_take_chunk (va : ℕ) (buf : List UInt8) :
    (buf.take (chunk va buf)).length = chunk va buf := by
  rw [List.length_take, chunk]
  omega

/-- What goes into the first page -/
theorem move_chunk {mem : ℕ → Bytes} (hi : i < chunk va buf) :
    update mem e.addr ((mem e.addr).move (va % PGSIZE) (buf.take (chunk va buf))) e.addr
      (va % PGSIZE + i) = buf.getD i 0 := by
  rw [update_self, Bytes.move, length_take_chunk, if_pos (by omega), Nat.add_sub_cancel_left]
  rw [List.getD_eq_getElem?_getD, List.getD_eq_getElem?_getD, List.getElem?_take_of_lt hi]

theorem move_chunk_other {mem : ℕ → Bytes} {pg o : ℕ}
    (h : ∀ i < chunk va buf, (e.addr, va % PGSIZE + i) ≠ (pg, o)) :
    update mem e.addr ((mem e.addr).move (va % PGSIZE) (buf.take (chunk va buf))) pg o =
      mem pg o := by
  by_cases hpg : pg = e.addr
  · subst hpg
    rw [update_self, Bytes.move, length_take_chunk, if_neg]
    intro hin
    apply h (o - va % PGSIZE) (by omega)
    rw [Nat.add_sub_cancel' hin.1]
  · rw [update_of_ne hpg]

/-- The first page, and then the rest -/
theorem Replaced.cons {mem mem' : ℕ → Bytes} (he : pd.entry (va / PGSIZE) = some e)
    (h : Replaced pd (va / PGSIZE * PGSIZE + PGSIZE) (buf.drop (chunk va buf))
      (update mem e.addr ((mem e.addr).move (va % PGSIZE) (buf.take (chunk va buf)))) mem') :
    Replaced pd va buf mem mem' := by
  -- a byte of the rest, with its number in the rest
  have hrest : ∀ i, chunk va buf ≤ i → i < buf.length →
      va / PGSIZE * PGSIZE + PGSIZE + (i - chunk va buf) = va + i := fun i => div_of_chunk_le
  have hback : ∀ i, i < (buf.drop (chunk va buf)).length →
      va / PGSIZE * PGSIZE + PGSIZE + i = va + (i + chunk va buf) := by
    intro i hi
    rw [List.length_drop] at hi
    rw [← hrest (i + chunk va buf) (by omega) (by omega), Nat.add_sub_cancel]
  refine ⟨?_, ?_⟩
  · intro i pg o hi hplace hlast
    by_cases hchunk : i < chunk va buf
    · rw [place_of_lt_chunk he hchunk] at hplace
      cases hplace
      rw [h.kept, move_chunk hchunk]
      intro j hj
      rw [hback j hj]
      rw [List.length_drop] at hj
      exact hlast _ (by omega) (by omega)
    · have hwritten := h.written (i - chunk va buf) pg o
      rw [hrest i (by omega) hi, List.length_drop] at hwritten
      rw [hwritten (by omega) hplace, List.getD_eq_getElem?_getD, List.getD_eq_getElem?_getD,
        List.getElem?_drop, Nat.add_sub_cancel' (by omega)]
      intro j hij hj
      rw [hback j (by rw [List.length_drop]; exact hj)]
      exact hlast _ (by omega) (by omega)
  · intro pg o hout
    rw [h.kept, move_chunk_other]
    · intro i hi heq
      apply hout i
      · have := length_take_chunk va buf
        rw [List.length_take] at this
        omega
      · rw [place_of_lt_chunk he hi, heq]
    · intro i hi
      rw [hback i hi]
      rw [List.length_drop] at hi
      exact hout _ (by omega)

/-- All pages are user pages: all bytes are written.  By induction on the rounds -/
theorem wp_copyLoop_all {fuel : ℕ} (hva : va + buf.length ≤ 2 ^ 32)
    (hall : ∀ k, Overlaps va buf.length k → UserPage r.pgdir k) (hfuel : buf.length ≤ fuel) :
    wp F (copyLoop cur fuel va buf) (fun ok r' => ok = true ∧ r'.toMmu = r.toMmu ∧
      Replaced r.pgdir va buf r.mem r'.mem) r := by
  induction fuel generalizing va buf r with
  | zero =>
    obtain rfl : buf = [] := List.eq_nil_of_length_eq_zero (by omega)
    rw [copyLoop_nil, wp_pure]
    exact ⟨rfl, rfl, .nil _ _ _⟩
  | succ n ih =>
    by_cases hlen : 0 < buf.length
    swap
    · obtain rfl : buf = [] := List.eq_nil_of_length_eq_zero (by omega)
      rw [copyLoop_nil, wp_pure]
      exact ⟨rfl, rfl, .nil _ _ _⟩
    obtain ⟨e, he, hu⟩ := hall _ (overlaps_first hlen)
    apply wp_copyLoop_round hlen he hu
    by_cases hmore : chunk va buf < buf.length
    · -- there are bytes for the next page, so this one is not the last
      have hnext : va / PGSIZE * PGSIZE + PGSIZE = va + chunk va buf := by
        rw [← div_of_chunk_le le_rfl hmore, Nat.sub_self, Nat.add_zero]
      have hdrop : (buf.drop (chunk va buf)).length = buf.length - chunk va buf := List.length_drop
      have hpos := chunk_pos va hlen
      rw [Nat.mod_eq_of_lt (by omega)]
      apply wp_mono (ih (r := ⟨r.toMmu, update r.mem e.addr _⟩) (by omega)
        (fun k ho => hall k ho.of_rest) (by omega))
      rintro ok r' ⟨hok, hsame, hrest⟩
      exact ⟨hok, hsame, hrest.cons he⟩
    · have hdrop : buf.drop (chunk va buf) = [] := List.drop_eq_nil_of_le (not_lt.mp hmore)
      rw [hdrop, copyLoop_nil, wp_pure]
      refine ⟨rfl, rfl, Replaced.cons he ?_⟩
      rw [hdrop]
      exact .nil _ _ _

/-! ## The specification -/

/-- What `copyout` should do, whatever page directory is in use: it never looks at address 0. -/
def CopiesExactly (r : Ram) (va : ℕ) (buf : List UInt8) : Prop :=
  ∀ cur, ∃ ok r', copyout cur va buf r = .ok (ok, r') ∧ r'.toMmu = r.toMmu ∧
    (ok = true ↔ ∀ k, Overlaps va buf.length k → UserPage r.pgdir k) ∧
    (ok = true → Replaced r.pgdir va buf r.mem r'.mem)

/-- The first page that is not a user page -/
theorem exists_first_not_user {len : ℕ} (h : ¬ ∀ k, Overlaps va len k → UserPage pd k) :
    ∃ k, Overlaps va len k ∧ ¬ UserPage pd k ∧ ∀ j < k, Overlaps va len j → UserPage pd j := by
  classical
  push Not at h
  refine ⟨Nat.find h, (Nat.find_spec h).1, (Nat.find_spec h).2, ?_⟩
  intro j hj hover
  by_contra hnot
  exact Nat.find_min h hj ⟨hover, hnot⟩

theorem Overlaps.lt_npages {len : ℕ} (h : Overlaps va len k) (hva : va + len ≤ 2 ^ 32) :
    k < NPAGES := by
  obtain ⟨i, hi, rfl⟩ := h
  lia

/-- **`copyout` is total and exact** if and only if every page it comes to has a page table: it
comes to a page if all pages before it are user pages. -/
theorem copyout_exact_iff (hva : va + buf.length ≤ 2 ^ 32) :
    CopiesExactly r va buf ↔ ∀ k, Overlaps va buf.length k →
      (∀ j < k, Overlaps va buf.length j → UserPage r.pgdir j) → HasTable r.pgdir k := by
  constructor
  · intro hexact k hover huser
    by_contra htable
    -- with nothing at address 0, the null pointer is seen
    have hrun : wp (· = "trap") (copyout ⟨0, fun _ => none⟩ va buf) (fun _ _ => False) r := by
      apply wp_copyLoop_reach (hover.lt_npages hva) hover huser le_rfl
      intro r₁ n va' buf' hsame _ hk hlen
      rw [copyLoop, if_pos hlen, pgrounddown, wp_bind, hk]
      apply wp_mono (wp_uva2ka_null (by rw [hsame]; exact htable) rfl)
      intro _ _ hfalse
      exact hfalse.elim
    obtain ⟨ok, r', hok, -⟩ := hexact ⟨0, fun _ => none⟩
    exact Wp.wp_ok hrun hok
  · intro htables cur
    by_cases hall : ∀ k, Overlaps va buf.length k → UserPage r.pgdir k
    · have hcopy : wp (fun _ => False) (copyout cur va buf) (fun ok r' => ok = true ∧
          r'.toMmu = r.toMmu ∧ Replaced r.pgdir va buf r.mem r'.mem) r :=
        wp_copyLoop_all hva hall le_rfl
      obtain ⟨ok, r', hrun, rfl, hsame, hrep⟩ := Wp.exists_ok hcopy
      exact ⟨true, r', hrun, hsame, ⟨fun _ => hall, fun _ => rfl⟩, fun _ => hrep⟩
    · obtain ⟨k, hover, hnot, huser⟩ := exists_first_not_user hall
      have hk := hover.lt_npages hva
      have hstop : wp (fun _ => False) (copyout cur va buf) (fun ok r' =>
          r'.toMmu = r.toMmu ∧ ok = false) r := by
        apply wp_copyLoop_reach hk hover huser le_rfl
        intro r₁ n va' buf' hsame _ hpage hlen
        have hva' : va' < 2 ^ 32 := by lia
        apply wp_mono (wp_copyLoop_stop hlen hva' _ _)
        · rintro ok r' ⟨rfl, hok⟩
          exact ⟨hsame, hok⟩
        · rw [hpage, hsame]
          exact htables k hover huser
        · rw [hpage, hsame]
          exact hnot
      obtain ⟨ok, r', hrun, hsame, rfl⟩ := Wp.exists_ok hstop
      refine ⟨false, r', hrun, hsame, ⟨?_, ?_⟩, ?_⟩
      · intro h
        cases h
      · intro h
        exact absurd h hall
      · intro h
        cases h

/-- Two bytes for the page of a process of one page -/
theorem copyout_exact_iff_onePage : CopiesExactly Mem.onePage 8 [1, 2] := by
  apply (copyout_exact_iff (by decide)).mpr
  intro k hover _
  obtain ⟨i, hi, rfl⟩ := hover
  have hlt : 8 + i < PGSIZE := Nat.add_lt_of_lt_sub' (lt_trans hi (by decide))
  rw [Nat.div_eq_of_lt hlt]
  rfl

/-- An address space without page tables, in a memory of sevens -/
def noTables : Ram where
  pgdir := ⟨1 * PGSIZE, fun _ => none⟩
  free := []
  mem := fun _ _ => 7

/-- A byte for an address without a page table: if nothing is mapped at address 0 the kernel traps,
and if the word there is 0x07070707 the byte goes to the page at 0x07070000, and `copyout` returns
0. -/
theorem copyout_null_pointer : ¬ CopiesExactly noTables 0 [1] ∧
    copyout ⟨0, fun _ => none⟩ 0 [1] noTables = .error "trap" ∧
    ∃ r', copyout Mem.onePage.pgdir 0 [1] noTables = .ok (true, r') ∧ r'.mem 0x07070000 0 = 1 := by
  have htrap : copyout ⟨0, fun _ => none⟩ 0 [1] noTables = .error "trap" := rfl
  refine ⟨?_, htrap, _, rfl, rfl⟩
  intro hexact
  obtain ⟨ok, r', hrun, -⟩ := hexact ⟨0, fun _ => none⟩
  rw [htrap] at hrun
  cases hrun

end Xv6Mlfq.Exec
