import Xv6Mlfq.Exec.Copyout

/-!
# The stack of a program

The second half of the new address space: two pages above the image, of which the first is a guard
without `PTE_U`, and the arguments, which `copyout` writes from the top of the second one
downwards.  A string that does not fit into the page runs into the guard, and one that is longer
than all of the address space wraps to the end of memory, where the devices are: either way
`copyout` fails.  If it is not longer by more than 32 MB it fails before it has come to an address
without a page table.  What `copyout` writes when it succeeds is in the stack page.

## Main definitions

* `Stacked g m` — the image has `g` pages; the guard and the stack are above.
* `argvSize argv` — the length of the arguments with their terminators.
* `Strings r top argv args bottom` — the strings are in memory, from `top` downwards.
* `Arranged g argv sp r` — all of the stack is.

## Main results

* `wp_pushStack` — what the stack is when the arguments have been pushed.
* `wp_execStack` — the second half of `exec`.
-/

namespace Xv6Mlfq.Exec

open Function (update update_self update_of_ne)
open Wp (wp wp_mono wp_bind wp_pure wp_look wp_modify)
open Vm (PGSIZE KERNBASE DEVSPACE NPAGES NUSER Pgdir Pte Mmu Single)
open Mem (Ram Grown KernelPart pages wp_onMmu zeroed)

variable {F : String → Prop} {cur : Pgdir} {r r' : Ram} {g : ℕ}

/-! ## `copyout` -/

/-- Bytes have been written from `va` on, in page number `k`. -/
structure Stored (k va : ℕ) (buf : List UInt8) (r r' : Ram) : Prop where
  wrote : Wrote r r'
  lo : k * PGSIZE ≤ va
  hi : va + buf.length ≤ k * PGSIZE + PGSIZE
  user : ∀ j < NUSER, j ≠ k → r'.user j = r.user j
  byte : ∀ x < KERNBASE, byte r' x =
    if va ≤ x ∧ x < va + buf.length then some (buf.getD (x - va) 0) else byte r x

variable {k va sp : ℕ} {buf : List UInt8} {argv : List (List UInt8)} {args : List ℕ}

/-- The bytes fit into a user page. -/
theorem wp_copyout_in {e : Pte} (hs : Single r.toMmu) (hk : k < NUSER)
    (he : r.pgdir.entry k = some e) (hu : e.perm.u = true) (hlo : k * PGSIZE ≤ va)
    (hhi : va + buf.length ≤ k * PGSIZE + PGSIZE) (hlen : 0 < buf.length) :
    wp F (copyout cur va buf) (fun ok r' => ok = true ∧ Stored k va buf r r') r := by
  obtain ⟨n, hn⟩ : ∃ n, buf.length = n + 1 := ⟨buf.length - 1, by omega⟩
  have hdiv : va / PGSIZE = k := by lia
  have hat : k * PGSIZE + va % PGSIZE = va := by
    rw [← hdiv]
    exact Nat.div_add_mod' va PGSIZE
  have hchunk : chunk va buf = buf.length := by
    rw [chunk]
    omega
  rw [copyout, hn]
  apply wp_copyLoop_round hlen (by rw [hdiv]; exact he) hu
  rw [hchunk, List.take_length, List.drop_length, copyLoop_nil, wp_pure]
  refine ⟨rfl, .page hk he _, hlo, hhi, ?_, ?_⟩
  · intro j hj hne
    rw [user_write hs hk hj he, if_neg hne]
  · intro x hx
    rw [byte_memmove hs hk hx he (by omega), hat]

/-- The bytes run into page `K`, which is mapped but not for users. -/
theorem wp_copyout_out {K : ℕ} {e : Pte}
    (huser : ∀ j < K, Overlaps va buf.length j → UserPage r.pgdir j)
    (he : r.pgdir.entry K = some e) (hu : e.perm.u = false) (hover : Overlaps va buf.length K)
    (hlow : K ≤ NUSER ∨ va / PGSIZE = K) :
    wp F (copyout cur va buf) (fun ok r' => ok = false ∧ Wrote r r') r := by
  obtain ⟨hK, htable, -, -⟩ := Vm.entry_isSome_pde he
  apply wp_copyLoop_reach hK hover huser le_rfl
  intro r₁ n va' buf' hsame hwrote hpage hlen
  have hva' : va' < 2 ^ 32 := by lia
  apply wp_mono (wp_copyLoop_stop hlen hva' _ _)
  · rintro ok r' ⟨rfl, hok⟩
    exact ⟨hok, hwrote hlow⟩
  · rw [hpage, hsame]
    exact htable
  · rw [hpage, hsame]
    exact not_userPage he hu

/-! ## Where strings go -/

/-- The image has `g` pages; the guard and the stack are above. -/
structure Stacked (g : ℕ) (m : Mmu) : Prop where
  single : Single m
  kernel : KernelPart m.pgdir
  lt : (g + 2) * PGSIZE < KERNBASE
  image : ∀ k < g, ∃ pa, m.pgdir.entry k = some ⟨true, ⟨true, true⟩, pa⟩
  guard : ∃ pa, m.pgdir.entry g = some ⟨true, ⟨true, false⟩, pa⟩
  stack : ∃ pa, m.pgdir.entry (g + 1) = some ⟨true, ⟨true, true⟩, pa⟩
  above : ∀ k < NUSER, g + 2 ≤ k → m.pgdir.entry k = none

theorem Stacked.lt_nuser {m : Mmu} (h : Stacked g m) : g + 1 < NUSER := by
  have hlt := h.lt
  lia

/-- Where `copyout` finds page tables: in the stack, in what is below and the guard, and at the
end of memory -/
def Pushed (g sp len : ℕ) : Prop :=
  (g * PGSIZE + PGSIZE ≤ sp ∧ sp + len ≤ g * PGSIZE + PGSIZE + PGSIZE) ∨
    (sp < g * PGSIZE + PGSIZE ∧ g * PGSIZE < sp + len) ∨ (DEVSPACE ≤ sp ∧ sp < 2 ^ 32)

/-- The bytes go on to the end of memory. -/
def Wraps (sp len : ℕ) : Prop := sp < 2 ^ 32 ∧ 2 ^ 32 ≤ sp + len

theorem Stacked.device {m : Mmu} (h : Stacked g m) (hdev : DEVSPACE ≤ k * PGSIZE)
    (hk : k < NPAGES) : ∃ e, m.pgdir.entry k = some e ∧ e.perm.u = false := by
  obtain ⟨e, he⟩ := Option.ne_none_iff_exists'.mp (h.kernel.devices k hdev hk)
  exact ⟨e, he, h.kernel.supervisor k e (by lia) he⟩

/-- `copyout` where it finds page tables -/
theorem wp_copyout_pushed (h : Stacked g r.toMmu)
    (hsp : Pushed g sp buf.length) (hlen : 0 < buf.length) :
    wp F (copyout cur sp buf) (fun ok r' => Wrote r r' ∧
      (ok = true → Stored (g + 1) sp buf r r')) r := by
  have hfail : ∀ (ok : Bool) (r' : Ram), ok = false ∧ Wrote r r' →
      Wrote r r' ∧ (ok = true → Stored (g + 1) sp buf r r') := by
    rintro ok r' ⟨rfl, hwrote⟩
    exact ⟨hwrote, nofun⟩
  rcases hsp with ⟨hlo, hhi⟩ | ⟨hlo, hhi⟩ | ⟨hlo, hhi⟩
  · obtain ⟨pa, hstack⟩ := h.stack
    have hpage : (g + 1) * PGSIZE = g * PGSIZE + PGSIZE := Nat.succ_mul _ _
    apply wp_mono (wp_copyout_in (k := g + 1) h.single h.lt_nuser hstack rfl
      (by rw [hpage]; exact hlo) (by rw [hpage]; exact hhi) hlen)
    rintro ok r' ⟨_, hstored⟩
    exact ⟨hstored.wrote, fun _ => hstored⟩
  · -- the guard is in the way
    obtain ⟨pa, hguard⟩ := h.guard
    have hg := h.lt_nuser
    have hover : Overlaps sp buf.length g := by
      refine ⟨g * PGSIZE - sp, by omega, ?_⟩
      lia
    apply wp_mono (wp_copyout_out _ hguard rfl hover (.inl (by omega))) hfail
    intro j hj _
    obtain ⟨pa', himage⟩ := h.image j hj
    exact ⟨_, himage, rfl⟩
  · -- the devices are not for users
    obtain ⟨e, he, hu⟩ := h.device (k := sp / PGSIZE) (by lia)
      (by lia)
    apply wp_mono (wp_copyout_out _ he hu (overlaps_first hlen) (.inr rfl)) hfail
    intro j hj hover
    exact absurd hover.le (by omega)

/-- `copyout` wherever `exec` may ask it to write.  If it succeeds, the bytes are in the stack page;
it traps only if it has come to an address without a page table. -/
theorem wp_copyout (h : Stacked g r.toMmu)
    (hsp : Pushed g sp buf.length ∨ F "trap" ∧ Wraps sp buf.length) (hlen : 0 < buf.length) :
    wp F (copyout cur sp buf) (fun ok r' => r'.toMmu = r.toMmu ∧
      (Pushed g sp buf.length → Wrote r r') ∧ (ok = true → Stored (g + 1) sp buf r r')) r := by
  by_cases hpushed : Pushed g sp buf.length
  · apply wp_mono (wp_copyout_pushed h hpushed hlen)
    rintro ok r' ⟨hwrote, hstored⟩
    exact ⟨hwrote.mmu, fun _ => hwrote, hstored⟩
  · obtain ⟨htrap, hlt, hend⟩ := hsp.resolve_left hpushed
    -- the last page of memory is in the way
    obtain ⟨e, he, hu⟩ := h.device (k := NPAGES - 1) (by norm_num) (by norm_num)
    have hover : Overlaps sp buf.length (NPAGES - 1) := by
      refine ⟨2 ^ 32 - 1 - sp, by omega, ?_⟩
      lia
    apply wp_mono (wp_copyLoop_blocked htrap (by norm_num) hover (not_userPage he hu)
      (Vm.entry_isSome_pde he).2.1 le_rfl)
    rintro ok r' ⟨hsame, hok⟩
    refine ⟨hsame, fun hp => absurd hp hpushed, ?_⟩
    rw [hok]
    nofun

/-- The length of the arguments with their terminators -/
def argvSize (argv : List (List UInt8)) : ℕ := (argv.map fun s => s.length + 1).sum

theorem argvSize_cons (s : List UInt8) (argv : List (List UInt8)) :
    argvSize (s :: argv) = s.length + 1 + argvSize argv := by
  rw [argvSize, argvSize, List.map_cons, List.sum_cons]

/-- The stack pointer after a string of length `len` -/
def pushSp (sp len : ℕ) : ℕ := (2 ^ 32 + sp - (len + 1) % 2 ^ 32) % 2 ^ 32 / 4 * 4

/-- Where the next string goes -/
theorem pushSp_or {len : ℕ} (hlt : (g + 2) * PGSIZE < KERNBASE) (hlo : g * PGSIZE + PGSIZE ≤ sp)
    (hhi : sp ≤ g * PGSIZE + PGSIZE + PGSIZE) :
    Pushed g (pushSp sp len) (len + 1) ∨ Wraps (pushSp sp len) (len + 1) := by
  rw [Pushed, Wraps, pushSp]
  lia

/-- Rounding down to multiples of 4 costs at most 3 bytes each time. -/
theorem pushSp_fits {argc : ℕ} (len left : ℕ) (hlt : (g + 2) * PGSIZE < KERNBASE)
    (hlo : g * PGSIZE + PGSIZE ≤ sp) (hhi : sp ≤ g * PGSIZE + PGSIZE + PGSIZE)
    (hargc : argc < MAXARG) (hleft : len + 1 + left + 3 * (MAXARG - argc) ≤ sp + 2 ^ 25) :
    Pushed g (pushSp sp len) (len + 1) ∧
      (pushSp sp len + (len + 1) ≤ g * PGSIZE + PGSIZE + PGSIZE →
        left + 3 * (MAXARG - (argc + 1)) ≤ pushSp sp len + 2 ^ 25) := by
  rw [Pushed, pushSp]
  lia

/-- A string that has gone into the stack page is right below what was there. -/
theorem pushSp_le {len : ℕ} (hlo : g * PGSIZE + PGSIZE ≤ sp)
    (hfits : pushSp sp len + (len + 1) ≤ g * PGSIZE + PGSIZE + PGSIZE) :
    pushSp sp len + (len + 1) ≤ sp ∧ pushSp sp len % 4 = 0 := by
  rw [pushSp] at *
  lia

/-! ## The arguments -/

/-- The bytes are at the user addresses from `va` on. -/
def HoldsAt (r : Ram) (va : ℕ) (bs : List UInt8) : Prop :=
  ∀ i < bs.length, byte r (va + i) = some (bs.getD i 0)

/-- The strings are in memory, the first one at the top, at the addresses `args`. -/
def Strings (r : Ram) : ℕ → List (List UInt8) → List ℕ → ℕ → Prop
  | top, [], [], bottom => bottom = top
  | top, s :: argv, a :: args, bottom =>
    a % 4 = 0 ∧ a + (s.length + 1) ≤ top ∧ HoldsAt r a (s ++ [0]) ∧ Strings r a argv args bottom
  | _, _, _, _ => False

theorem Strings.le {top bottom : ℕ} (h : Strings r top argv args bottom) : bottom ≤ top := by
  induction argv generalizing args top with
  | nil =>
    cases args with
    | nil => exact le_of_eq h
    | cons a args => exact h.elim
  | cons s argv ih =>
    cases args with
    | nil => exact h.elim
    | cons a args =>
      obtain ⟨-, hfits, -, hrest⟩ := h
      have := ih hrest
      omega

theorem Strings.length {top bottom : ℕ}
    (h : Strings r top argv args bottom) : args.length = argv.length := by
  induction argv generalizing args top with
  | nil =>
    cases args with
    | nil => rfl
    | cons a args => exact h.elim
  | cons s argv ih =>
    cases args with
    | nil => exact h.elim
    | cons a args =>
      rw [List.length_cons, List.length_cons, ih h.2.2.2]

/-- What is pushed below does not touch the strings. -/
theorem Strings.congr {top bottom : ℕ} (h : Strings r top argv args bottom) (htop : top ≤ KERNBASE)
    (hbyte : ∀ x, bottom ≤ x → x < KERNBASE → byte r' x = byte r x) :
    Strings r' top argv args bottom := by
  induction argv generalizing args top with
  | nil =>
    cases args with
    | nil => exact h
    | cons a args => exact h.elim
  | cons s argv ih =>
    cases args with
    | nil => exact h.elim
    | cons a args =>
      obtain ⟨halign, hfits, hholds, hrest⟩ := h
      have hle := hrest.le
      refine ⟨halign, hfits, ?_, ih hrest (by omega)⟩
      intro i hi
      rw [hbyte _ (by omega) (by rw [List.length_append, List.length_singleton] at hi; omega)]
      exact hholds i hi

/-- The stack has grown down from `sp` to `sp'`: what is from `sp` on is as it was, and so is what
is not in the stack page. -/
structure Below (g sp sp' : ℕ) (r r' : Ram) : Prop where
  wrote : Wrote r r'
  lo : g * PGSIZE + PGSIZE ≤ sp'
  user : ∀ k < NUSER, k ≠ g + 1 → r'.user k = r.user k
  byte : ∀ x, sp ≤ x → x < KERNBASE → byte r' x = byte r x

theorem Below.refl (hlo : g * PGSIZE + PGSIZE ≤ sp) : Below g sp sp r r :=
  ⟨.refl r, hlo, fun _ _ _ => rfl, fun _ _ _ => rfl⟩

theorem Below.trans {sp₁ sp₂ : ℕ} {r₁ r₂ : Ram} (h : Below g sp sp₁ r r₁)
    (h' : Below g sp₁ sp₂ r₁ r₂) (hle : sp₁ ≤ sp) : Below g sp sp₂ r r₂ := by
  refine ⟨h.wrote.trans h'.wrote, h'.lo, ?_, ?_⟩
  · intro k hk hne
    rw [h'.user k hk hne, h.user k hk hne]
  · intro x hx hlt
    rw [h'.byte x (by omega) hlt, h.byte x hx hlt]

theorem Stored.below (h : Stored (g + 1) va buf r r')
    (hle : va + buf.length ≤ sp) : Below g sp va r r' := by
  have hlo := h.lo
  refine ⟨h.wrote, by rw [Nat.succ_mul] at hlo; exact hlo, h.user, ?_⟩
  intro x hx hlt
  rw [h.byte x hlt, if_neg (by omega)]

theorem Stored.holds (h : Stored k va buf r r') (hk : k < NUSER) : HoldsAt r' va buf := by
  intro i hi
  have hlt : va + i < KERNBASE := by
    have := h.hi
    lia
  rw [h.byte _ hlt, if_pos (by omega), Nat.add_sub_cancel_left]

/-- The loop that pushes the strings, by induction on those that are left -/
theorem wp_pushArgs (h : Stacked g r.toMmu)
    (hlo : g * PGSIZE + PGSIZE ≤ sp) (hhi : sp ≤ g * PGSIZE + PGSIZE + PGSIZE)
    (hargs : args.length ≤ MAXARG)
    (hmode : F "trap" ∨ argvSize argv + 3 * (MAXARG - args.length) ≤ sp + 2 ^ 25) :
    wp F (pushArgs cur argv args sp) (fun res r' => r'.toMmu = r.toMmu ∧
      (argvSize argv + 3 * (MAXARG - args.length) ≤ sp + 2 ^ 25 → Wrote r r') ∧
      ∀ sp' args', res = some (sp', args') → ∃ new, args' = args ++ new ∧ args'.length ≤ MAXARG ∧
        Below g sp sp' r r' ∧ Strings r' sp argv new sp') r := by
  induction argv generalizing args sp r with
  | nil =>
    apply wp_pure.mpr
    refine ⟨rfl, fun _ => .refl r, ?_⟩
    rintro _ _ ⟨⟩
    exact ⟨[], (List.append_nil _).symm, hargs, .refl hlo, rfl⟩
  | cons s argv ih =>
    rw [pushArgs]
    by_cases hmax : args.length ≥ MAXARG
    · rw [if_pos hmax, wp_pure]
      exact ⟨rfl, fun _ => .refl r, nofun⟩
    rw [argvSize_cons] at hmode ⊢
    have hfits := pushSp_fits s.length (argvSize argv) h.lt hlo hhi (not_le.mp hmax)
    have hlen : (s ++ [0]).length = s.length + 1 := List.length_append
    have hpush : Pushed g (pushSp sp s.length) (s ++ [0]).length ∨
        F "trap" ∧ Wraps (pushSp sp s.length) (s ++ [0]).length := by
      rw [hlen]
      rcases hmode with htrap | hshort
      · exact (pushSp_or h.lt hlo hhi).imp_right fun hwraps => ⟨htrap, hwraps⟩
      · exact .inl (hfits hshort).1
    rw [if_neg hmax]
    rw [wp_bind, ← pushSp]
    apply wp_mono (wp_copyout h hpush (by omega))
    rintro ok r₁ ⟨hsame, hwrote, hcopy⟩
    rw [hlen] at hwrote
    by_cases hok : ok = true
    swap
    · rw [if_neg hok, wp_pure]
      exact ⟨hsame, fun hshort => hwrote (hfits hshort).1, nofun⟩
    have hstored := hcopy hok
    have hholds := hstored.holds h.lt_nuser
    have hin := hstored.lo
    have hend := hstored.hi
    rw [hlen] at hend
    rw [Nat.succ_mul] at hin hend
    obtain ⟨hle, halign⟩ := pushSp_le hlo hend
    have hbelow : Below g sp (pushSp sp s.length) r r₁ := hstored.below (by rw [hlen]; exact hle)
    have hargs' : (args ++ [pushSp sp s.length]).length = args.length + 1 := List.length_append
    rw [if_pos hok]
    apply wp_mono (ih (hsame ▸ h) hin (by omega) (by omega) ?_)
    · rintro res r' ⟨hsame', hwrote', hrest⟩
      refine ⟨hsame'.trans hsame, ?_, ?_⟩
      · intro hshort
        apply (hwrote (hfits hshort).1).trans
        apply hwrote'
        rw [hargs']
        exact (hfits hshort).2 hend
      · intro sp' args' hres
        obtain ⟨new, rfl, hmax', hbelow', hstrings⟩ := hrest sp' args' hres
        refine ⟨pushSp sp s.length :: new, by simp, hmax', hbelow.trans hbelow' (by omega), halign,
          hle, ?_, hstrings⟩
        intro i hi
        have htop := h.lt
        rw [hbelow'.byte _ (by omega) (by lia)]
        exact hholds i hi
    · rw [hargs']
      exact hmode.imp_right fun hshort => (hfits hshort).2 hend

theorem length_uints (ws : List ℕ) : (ws.flatMap uintBytes).length = 4 * ws.length := by
  induction ws with
  | nil => rfl
  | cons w ws ih =>
    rw [List.flatMap_cons, List.length_append, ih, List.length_cons]
    simp only [uintBytes, List.length_cons, List.length_nil]
    omega

/-- The stack of a program: the strings in the stack page, and right below them the frame: a return
address, `argc` and the address of the array of pointers that follows. -/
structure Arranged (g : ℕ) (argv : List (List UInt8)) (sp : ℕ) (args : List ℕ) (r : Ram) :
    Prop where
  lo : g * PGSIZE + PGSIZE ≤ sp
  strings : Strings r (g * PGSIZE + PGSIZE + PGSIZE) argv args (sp + 4 * (args.length + 4))
  frame : HoldsAt r sp (([0xffffffff, args.length, sp + 12] ++ args ++ [0]).flatMap uintBytes)

/-- The frame and the strings are in the stack page. -/
theorem Arranged.congr (h : Arranged g argv sp args r)
    (hlt : (g + 2) * PGSIZE < KERNBASE) (hbyte : ∀ x < KERNBASE, byte r' x = byte r x) :
    Arranged g argv sp args r' := by
  have hle := h.strings.le
  have htop : g * PGSIZE + PGSIZE + PGSIZE < KERNBASE := by lia
  refine ⟨h.lo, h.strings.congr htop.le fun x _ hx => hbyte x hx, ?_⟩
  intro i hi
  have hframe := h.frame i hi
  rw [length_uints] at hi
  simp only [List.length_append, List.length_cons, List.length_nil] at hi
  rw [hbyte _ (by omega), hframe]

/-- The frame fits, or the guard is in the way. -/
theorem pushed_frame {n : ℕ} (hlt : (g + 2) * PGSIZE < KERNBASE) (hlo : g * PGSIZE + PGSIZE ≤ sp)
    (hhi : sp ≤ g * PGSIZE + PGSIZE + PGSIZE) (hn : n ≤ MAXARG) :
    Pushed g ((2 ^ 32 + sp - (3 + n + 1) * 4) % 2 ^ 32) (4 * (n + 4)) ∧
      (2 ^ 32 + sp - (3 + n + 1) * 4) % 2 ^ 32 + 4 * (n + 4) = sp ∧
      (2 ^ 32 + sp - (n + 1) * 4) % 2 ^ 32 = (2 ^ 32 + sp - (3 + n + 1) * 4) % 2 ^ 32 + 12 := by
  rw [Pushed]
  lia

/-- The arguments are not longer than the address space by 32 MB. -/
def Fits (argv : List (List UInt8)) (g : ℕ) : Prop :=
  argvSize argv + 3 * MAXARG ≤ (g + 2) * PGSIZE + 2 ^ 25

/-- **The arguments are pushed**: if this succeeds, the stack is as it should be and nothing else
has changed.  If they fit there is no trap, and nothing else changes in any case. -/
theorem wp_pushStack (h : Stacked g r.toMmu) (hmode : F "trap" ∨ Fits argv g) :
    wp F (pushStack cur argv ((g + 2) * PGSIZE)) (fun res r' => r'.toMmu = r.toMmu ∧
      (Fits argv g → Wrote r r') ∧ ∀ sp, res = some sp → Wrote r r' ∧
        (∀ k < NUSER, k ≠ g + 1 → r'.user k = r.user k) ∧ ∃ args,
        Arranged g argv sp args r') r := by
  have htop : (g + 2) * PGSIZE = g * PGSIZE + PGSIZE + PGSIZE := by
    rw [Nat.add_mul]
    norm_num
  rw [Fits, htop] at hmode ⊢
  rw [pushStack, wp_bind]
  apply wp_mono (wp_pushArgs h (Nat.le_add_right _ _) le_rfl (Nat.zero_le _) hmode)
  rintro res r₁ ⟨hsame, hwrote, hres⟩
  cases res with
  | none =>
    apply wp_pure.mpr
    exact ⟨hsame, hwrote, nofun⟩
  | some p =>
    obtain ⟨sp, args⟩ := p
    obtain ⟨new, hnew, hmax, hbelow, hstrings⟩ := hres sp args rfl
    rw [List.nil_append] at hnew
    subst hnew
    obtain ⟨hpushed, hend, hargv⟩ := pushed_frame h.lt hbelow.lo hstrings.le hmax
    have hwords : (([0xffffffff, args.length, (2 ^ 32 + sp - (args.length + 1) * 4) % 2 ^ 32] ++
        args ++ [0]).flatMap uintBytes).length = 4 * (args.length + 4) := by
      rw [length_uints]
      simp only [List.length_append, List.length_cons, List.length_nil]
      omega
    rw [wp_bind]
    apply wp_mono (wp_copyout (hsame ▸ h) (.inl (by rw [hwords]; exact hpushed)) (by omega))
    rintro ok r' ⟨hsame', hwrote', hcopy⟩
    rw [hwords] at hwrote'
    by_cases hok : ok = true
    swap
    · rw [if_neg hok, wp_pure]
      exact ⟨hsame'.trans hsame, fun hfits => (hwrote hfits).trans (hwrote' hpushed), nofun⟩
    have hstored := hcopy hok
    have hframe := hstored.below (hwords ▸ hend.le)
    have hlt := h.lt
    rw [if_pos hok, wp_pure]
    refine ⟨hsame'.trans hsame, fun hfits => (hwrote hfits).trans (hwrote' hpushed), ?_⟩
    rintro _ ⟨⟩
    refine ⟨hbelow.wrote.trans hframe.wrote, ?_, args, hframe.lo, ?_, ?_⟩
    · intro k hk hne
      rw [hframe.user k hk hne, hbelow.user k hk hne]
    · rw [hend]
      exact hstrings.congr (by omega) hframe.byte
    · rw [← hargv]
      exact hstored.holds h.lt_nuser

/-! ## The guard -/

theorem wp_clearpteu {e : Pte} (he : r.pgdir.entry k = some e) :
    wp F (clearpteu (k * PGSIZE)) (fun _ r' => r'.mem = r.mem ∧ (∀ x, r'.total x = r.total x) ∧
      r'.pgdir.entry = update r.pgdir.entry k (some ⟨true, ⟨e.perm.w, false⟩, e.addr⟩)) r := by
  obtain ⟨hk, hpde, hpte, hpresent⟩ := Vm.entry_isSome_pde he
  rw [clearpteu, wp_onMmu, Vm.clearpteu, wp_bind]
  apply wp_mono Vm.wp_walkpgdir
  rintro there m₁ ⟨-, hm₁, -, hnone⟩
  obtain rfl := hm₁ rfl
  by_cases ht : there = false
  · rw [hnone ht] at hpde
    cases hpde
  rw [if_neg ht, wp_bind, wp_look, hpte, Option.getD_some, Vm.setPte, wp_modify]
  refine ⟨rfl, ?_, ?_⟩
  · intro x
    have hrefs := Vm.refs_perm he ⟨e.present, ⟨e.perm.w, false⟩, e.addr⟩ hpresent rfl x
    exact congrArg (r.free.count x + ·) hrefs
  · show (r.pgdir.setPte _ _).entry = _
    rw [Vm.entry_setPte hk hpde, if_pos hpresent, hpresent]

variable {ip : File} {segs : List Proghdr} {sz : ℕ}

theorem pages_mul (k : ℕ) : pages (k * PGSIZE) = k := by
  rw [pages]
  lia

/-- The guard and the stack are put above the image. -/
theorem Loaded.stacked {r₁ r₂ : Ram} {pa : ℕ} (h : Loaded ip segs sz r)
    (hlt : (pages sz + 2) * PGSIZE < KERNBASE) (hg : Grown zeroed (pages sz) (pages sz + 2) r r₁)
    (htotal : ∀ x, r₂.total x = r₁.total x)
    (hentry : r₂.pgdir.entry =
      update r₁.pgdir.entry (pages sz) (some ⟨true, ⟨true, false⟩, pa⟩)) :
    Stacked (pages sz) r₂.toMmu := by
  have hnuser : pages sz + 2 < NUSER := by lia
  have hkept : ∀ j, j < pages sz ∨ pages sz + 2 ≤ j → r₂.pgdir.entry j = r.pgdir.entry j := by
    intro j hj
    rw [hentry, update_of_ne (by omega), hg.kept j (by omega)]
  refine ⟨(h.single.of_total hg.total).of_total htotal, ⟨?_, ?_⟩, hlt, ?_, ?_, ?_, ?_⟩
  · intro j e hj he
    rw [hkept j (by omega)] at he
    exact h.kernel.supervisor j e hj he
  · intro j hdev hj
    have hhigh : NUSER ≤ j := by lia
    rw [hkept j (by omega)]
    exact h.kernel.devices j hdev hj
  · intro k hk
    rw [hkept k (.inl hk)]
    exact h.mapped k hk
  · exact ⟨pa, by rw [hentry, update_self]⟩
  · obtain ⟨pa', -, hstack, -⟩ := hg.fresh (pages sz + 1) (by omega) (by omega)
    exact ⟨pa', by rw [hentry, update_of_ne (by omega), hstack]; rfl⟩
  · intro k hk hge
    rw [hkept k (.inr hge)]
    exact h.above k hk (by omega)

/-- The second half of `exec` -/
theorem wp_execStack (h : Loaded ip segs sz r) (hmode : F "trap" ∨ Fits argv (pages sz)) :
    wp F (execStack cur argv sz) (fun res r' => (∀ x, r'.total x = r.total x) ∧
      (Fits argv (pages sz) → Mem.Within r r') ∧
      ∀ sz' sp, res = some (sz', sp) → sz' = (pages sz + 2) * PGSIZE ∧ Mem.Within r r' ∧
        Stacked (pages sz) r'.toMmu ∧ (∀ k < pages sz, r'.user k = r.user k) ∧
        ∃ args, Arranged (pages sz) argv sp args r') r := by
  have hmax := Mem.pages_le h.lt.le
  have hnew : (pages sz * PGSIZE + 2 * PGSIZE) % 2 ^ 32 = (pages sz + 2) * PGSIZE := by lia
  have hold : pages sz * PGSIZE ≤ KERNBASE := by lia
  have hle : pages sz * PGSIZE ≤ (pages sz + 2) * PGSIZE := Nat.mul_le_mul_right _ (by omega)
  rw [execStack, Mem.pgroundup_pages h.lt.le, hnew, wp_bind]
  apply wp_mono (Mem.wp_allocuvm h.single hold (by rw [pages_mul]; exact h.above))
  intro sz' r₁ halloc
  have hwithin : Mem.Within r r₁ := by
    rcases halloc with ⟨-, hu⟩ | ⟨-, -, hg⟩
    · exact hu.within
    · exact hg.within
  by_cases hzero : sz' = 0
  · rw [if_pos hzero, wp_pure]
    exact ⟨hwithin.total, fun _ => hwithin, nofun⟩
  obtain ⟨hlt, hsz', hg⟩ := halloc.resolve_left fun hfail => hzero hfail.1
  rw [max_eq_right hle] at hsz'
  rw [hsz', pages_mul, pages_mul] at hg
  have hguardAddr : (pages sz + 2) * PGSIZE - 2 * PGSIZE = pages sz * PGSIZE := by
    rw [← Nat.sub_mul, Nat.add_sub_cancel]
  obtain ⟨pa, -, hguard, -⟩ := hg.fresh (pages sz) le_rfl (by omega)
  rw [if_neg hzero, wp_bind, hsz', hguardAddr]
  apply wp_mono (wp_clearpteu hguard)
  rintro _ r₂ ⟨hmem, htotal₂, hentry⟩
  have hst := h.stacked hlt hg htotal₂ hentry
  have hguarded : Mem.Within r r₂ := hwithin.trans ⟨htotal₂, fun x _ => by rw [hmem]⟩
  rw [wp_bind]
  apply wp_mono (wp_pushStack hst hmode)
  rintro res r' ⟨hsame, hwrote, hres⟩
  have htotal' : ∀ x, r'.total x = r.total x := by
    intro x
    rw [hsame]
    exact hguarded.total x
  cases res with
  | none =>
    apply wp_pure.mpr
    exact ⟨htotal', fun hfits => hguarded.trans (hwrote hfits).within, nofun⟩
  | some sp =>
    apply wp_pure.mpr
    refine ⟨htotal', fun hfits => hguarded.trans (hwrote hfits).within, ?_⟩
    rintro _ _ ⟨⟩
    obtain ⟨hwrote', huser, hargs⟩ := hres sp rfl
    refine ⟨rfl, hguarded.trans hwrote'.within, hsame ▸ hst, ?_, hargs⟩
    intro k hk
    have hgrown : r₁.user k = r.user k := hg.user h.single (by omega) (by omega)
    rw [huser k (by omega) (by omega), ← hgrown]
    apply Mem.user_congr
    · rw [hentry, update_of_ne (by omega)]
    · intro e _
      rw [hmem]

end Xv6Mlfq.Exec
