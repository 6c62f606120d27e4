import Xv6Mlfq.Exec.Atomic

/-!
# The stack that a program finds

When `exec` succeeds, the program finds at its stack pointer what a C function finds that has been
called: a return address, `argc` and `argv`.  All of it is in the one page above the guard, whatever
the arguments were: had they not fitted, `copyout` would have met the guard, or the devices at the
end of memory.

## Main definitions

* `wordAt r va` — a word of user memory.
* `areas esp argv args` — the parts of the stack.
* `UserStack r g esp argv args` — the stack is well formed.

## Main results

* `user_stack` — the stack is well formed, for all arguments with which `exec` succeeds.
-/

namespace Xv6Mlfq.Exec

open Wp (wp)
open Vm (PGSIZE KERNBASE Pgdir DataAddr Single)
open Mem (Ram pages)

variable {r : Ram} {g : ℕ} {argv : List (List UInt8)}
  {args : List ℕ}

/-! ## Words -/

/-- The word at a user address -/
def wordAt (r : Ram) (va : ℕ) : Option ℕ := do
  let b₀ ← byte r va
  let b₁ ← byte r (va + 1)
  let b₂ ← byte r (va + 2)
  let b₃ ← byte r (va + 3)
  pure (b₀.toNat + 2 ^ 8 * b₁.toNat + 2 ^ 16 * b₂.toNat + 2 ^ 24 * b₃.toNat)

variable {va i top bottom sp : ℕ} {ip : File}

theorem HoldsAt.wordAt {w : ℕ} (h : HoldsAt r va (uintBytes w)) (hw : w < 2 ^ 32) :
    wordAt r va = some w := by
  have h₀ : byte r va = some w.toUInt8 := h 0 (by show 0 < 4; decide)
  have h₁ : byte r (va + 1) = some (w / 2 ^ 8).toUInt8 := h 1 (by show 1 < 4; decide)
  have h₂ : byte r (va + 2) = some (w / 2 ^ 16).toUInt8 := h 2 (by show 2 < 4; decide)
  have h₃ : byte r (va + 3) = some (w / 2 ^ 24).toUInt8 := h 3 (by show 3 < 4; decide)
  rw [Exec.wordAt, h₀, h₁, h₂, h₃]
  simp only [Option.bind_eq_bind, Option.bind_some, Option.pure_def, Nat.toUInt8_eq,
    UInt8.toNat_ofNat', Option.some.injEq]
  omega

theorem HoldsAt.left {bs cs : List UInt8} (h : HoldsAt r va (bs ++ cs)) : HoldsAt r va bs := by
  intro i hi
  rw [h i (by rw [List.length_append]; omega), List.getD_append _ _ _ _ hi]

theorem HoldsAt.right {bs cs : List UInt8} (h : HoldsAt r va (bs ++ cs)) :
    HoldsAt r (va + bs.length) cs := by
  intro i hi
  rw [Nat.add_assoc, h _ (by rw [List.length_append]; omega),
    List.getD_append_right _ _ _ _ (Nat.le_add_right _ _), Nat.add_sub_cancel_left]

/-- The words of an array, by induction on it -/
theorem HoldsAt.word {w : ℕ} {ws : List ℕ} (h : HoldsAt r va (ws.flatMap uintBytes))
    (hi : ws[i]? = some w) (hw : w < 2 ^ 32) : Exec.wordAt r (va + 4 * i) = some w := by
  induction ws generalizing va i with
  | nil => cases hi
  | cons v ws ih =>
    rw [List.flatMap_cons] at h
    cases i with
    | zero =>
      cases hi
      exact h.left.wordAt hw
    | succ i =>
      have hnext : va + 4 * (i + 1) = va + (uintBytes v).length + 4 * i := by
        simp only [uintBytes, List.length_cons, List.length_nil]
        omega
      rw [hnext]
      exact ih h.right hi

/-! ## The parts of the stack -/

/-- The frame, the array of pointers and the strings: where they begin, and how long they are -/
def areas (esp : ℕ) (argv : List (List UInt8)) (args : List ℕ) : List (ℕ × ℕ) :=
  (esp, 12) :: (esp + 12, 4 * (args.length + 1)) ::
    List.zipWith (fun a (s : List UInt8) => (a, s.length + 1)) args argv

def Apart (x y : ℕ × ℕ) : Prop := x.1 + x.2 ≤ y.1 ∨ y.1 + y.2 ≤ x.1

/-- What `main` finds: the words at `esp`, the strings, and where all of it is -/
structure UserStack (r : Ram) (g esp : ℕ) (argv : List (List UInt8)) (args : List ℕ) : Prop where
  length : args.length = argv.length
  returnPc : wordAt r esp = some 0xffffffff
  argc : wordAt r (esp + 4) = some argv.length
  array : wordAt r (esp + 8) = some (esp + 12)
  pointer : ∀ (i a : ℕ), args[i]? = some a → wordAt r (esp + 12 + 4 * i) = some a
  null : wordAt r (esp + 12 + 4 * argv.length) = some 0
  string : ∀ (i a : ℕ) (s : List UInt8), args[i]? = some a → argv[i]? = some s →
    a % 4 = 0 ∧ HoldsAt r a (s ++ [0])
  disjoint : (areas esp argv args).Pairwise Apart
  inside : ∀ x ∈ areas esp argv args, (g + 1) * PGSIZE ≤ x.1 ∧ x.1 + x.2 ≤ (g + 2) * PGSIZE

theorem Strings.string (h : Strings r top argv args bottom) {a : ℕ} {s : List UInt8}
    (ha : args[i]? = some a) (hs : argv[i]? = some s) : a % 4 = 0 ∧ HoldsAt r a (s ++ [0]) := by
  induction argv generalizing args top i with
  | nil => cases hs
  | cons s' argv ih =>
    cases args with
    | nil => cases ha
    | cons a' args =>
      obtain ⟨halign, -, hholds, hrest⟩ := h
      cases i with
      | zero =>
        cases ha
        cases hs
        exact ⟨halign, hholds⟩
      | succ i => exact ih hrest ha hs

/-- Each string is between the one before and the end. -/
theorem Strings.inside (h : Strings r top argv args bottom) {x : ℕ × ℕ}
    (hx : x ∈ List.zipWith (fun a (s : List UInt8) => (a, s.length + 1)) args argv) :
    bottom ≤ x.1 ∧ x.1 + x.2 ≤ top := by
  induction argv generalizing args top with
  | nil =>
    rw [List.zipWith_nil_right] at hx
    cases hx
  | cons s argv ih =>
    cases args with
    | nil => cases hx
    | cons a args =>
      obtain ⟨-, hfits, -, hrest⟩ := h
      rcases List.mem_cons.mp hx with rfl | hx
      · exact ⟨hrest.le, hfits⟩
      · have := ih hrest hx
        omega

theorem Strings.pairwise (h : Strings r top argv args bottom) :
    (List.zipWith (fun a (s : List UInt8) => (a, s.length + 1)) args argv).Pairwise Apart := by
  induction argv generalizing args top with
  | nil =>
    rw [List.zipWith_nil_right]
    exact .nil
  | cons s argv ih =>
    cases args with
    | nil => exact .nil
    | cons a args =>
      obtain ⟨-, -, -, hrest⟩ := h
      rw [List.zipWith_cons_cons]
      apply List.Pairwise.cons _ (ih hrest)
      intro y hy
      exact .inr (hrest.inside hy).2

/-- The addresses of strings are addresses. -/
theorem Strings.lt (h : Strings r top argv args bottom) {a : ℕ}
    (ha : args[i]? = some a) : a < top := by
  induction argv generalizing args top i with
  | nil =>
    cases args with
    | nil => cases ha
    | cons a args => exact h.elim
  | cons s argv ih =>
    cases args with
    | nil => cases ha
    | cons a' args =>
      obtain ⟨-, hfits, -, hrest⟩ := h
      cases i with
      | zero =>
        cases ha
        omega
      | succ i =>
        have := ih hrest ha
        omega

/-- A stack that has been arranged is well formed. -/
theorem Arranged.userStack {esp : ℕ} (h : Arranged g argv esp args r)
    (hlt : (g + 2) * PGSIZE < KERNBASE) : UserStack r g esp argv args := by
  have hpage₁ : (g + 1) * PGSIZE = g * PGSIZE + PGSIZE := Nat.succ_mul _ _
  have hpage₂ : (g + 2) * PGSIZE = g * PGSIZE + PGSIZE + PGSIZE := by
    rw [Nat.add_mul]
    norm_num
  have hlen := h.strings.length
  have hle := h.strings.le
  have hlo := h.lo
  rw [hpage₂] at hlt
  have hbase : KERNBASE < 2 ^ 32 := by norm_num
  have hword : ∀ {i w : ℕ}, ([0xffffffff, args.length, esp + 12] ++ args ++ [0])[i]? = some w →
      w < 2 ^ 32 → wordAt r (esp + 4 * i) = some w := fun hi hw => h.frame.word hi hw
  refine ⟨hlen, hword (i := 0) rfl (by norm_num), ?_, hword (i := 2) rfl (by omega), ?_,
    ?_, ?_, ?_, ?_⟩
  · rw [← hlen]
    exact hword (i := 1) rfl (by omega)
  · intro i a ha
    have hi : i < args.length := (List.getElem?_eq_some_iff.mp ha).1
    have hat : ([0xffffffff, args.length, esp + 12] ++ args ++ [0])[3 + i]? = some a := by
      rw [List.getElem?_append_left (by simp; omega), List.getElem?_append_right (by simp)]
      simpa using ha
    have := h.strings.lt ha
    rw [Nat.add_assoc, show 12 + 4 * i = 4 * (3 + i) by omega]
    exact hword hat (by omega)
  · have hat : ([0xffffffff, args.length, esp + 12] ++ args ++ [0])[3 + args.length]? = some 0 := by
      have hlast : 3 + args.length = ([0xffffffff, args.length, esp + 12] ++ args).length := by
        rw [List.length_append, List.length_cons, List.length_cons, List.length_singleton]
      rw [hlast, List.getElem?_append_right le_rfl, Nat.sub_self]
      rfl
    rw [← hlen, Nat.add_assoc, show 12 + 4 * args.length = 4 * (3 + args.length) by omega]
    exact hword hat (by norm_num)
  · intro i a s ha hs
    exact h.strings.string ha hs
  · refine .cons ?_ (.cons ?_ h.strings.pairwise)
    · intro y hy
      rcases List.mem_cons.mp hy with rfl | hy
      · exact .inl le_rfl
      · have := h.strings.inside hy
        exact .inl (by dsimp only; omega)
    · intro y hy
      have := h.strings.inside hy
      exact .inl (by dsimp only; omega)
  · intro x hx
    rw [hpage₁, hpage₂]
    rcases List.mem_cons.mp hx with rfl | hx
    · dsimp only
      omega
    · rcases List.mem_cons.mp hx with rfl | hx
      · dsimp only
        omega
      · have := h.strings.inside hx
        omega

/-! ## The specification -/

/-- **The stack is well formed**, for all arguments with which `exec` succeeds; and the pages below
the guard are those of the image. -/
theorem user_stack {data : DataAddr} {path : List UInt8} {file : Option File} {s s' : State}
    (hs : Single s.space.toMmu) (hrun : exec data path file argv s = .ok (true, s')) :
    ∃ ip segs args, file = some ip ∧ segments ip = some segs ∧
      s'.proc.sz = (pages (endOf segs 0) + 2) * PGSIZE ∧
      ¬ UserPage s'.proc.pgdir (pages (endOf segs 0)) ∧
      UserPage s'.proc.pgdir (pages (endOf segs 0) + 1) ∧
      UserStack s'.space (pages (endOf segs 0)) s'.proc.esp argv args ∧
      ∀ va < pages (endOf segs 0) * PGSIZE, byte s'.space va = some (image ip segs va) := by
  have hexec : wp (· = "trap") (exec data path file argv) (Outcome file argv s) s :=
    wp_exec hs (.inl rfl)
  obtain ⟨-, -, htrue⟩ := Wp.wp_ok hexec hrun
  obtain ⟨ip, segs, hfile, hsegs, hstart⟩ := htrue rfl
  obtain ⟨args, hargs⟩ := hstart.stack
  obtain ⟨pa, hguard⟩ := hstart.stacked.guard
  obtain ⟨pa', hstack⟩ := hstart.stacked.stack
  refine ⟨ip, segs, args, hfile, hsegs, hstart.size, not_userPage hguard rfl, ⟨_, hstack, rfl⟩,
    hargs.userStack hstart.stacked.lt, ?_⟩
  intro va hva
  exact hstart.byte (Nat.div_lt_of_lt_mul (by rw [Nat.mul_comm]; exact hva))

/-- A program without segments -/
def noSegments : File where
  bytes := [0x7F, 0x45, 0x4C, 0x46] ++ List.replicate 48 0
  size_lt := by decide

/-- `exec` with two arguments -/
theorem user_stack_noSegments : ∃ s' args,
    exec Vm.smallData [0x6E] (some noSegments) [[0x6E], [0x61, 0x62]] roomy = .ok (true, s') ∧
      UserStack s'.space 0 s'.proc.esp [[0x6E], [0x61, 0x62]] args := by
  have hexec : wp (fun _ => False)
      (exec Vm.smallData [0x6E] (some noSegments) [[0x6E], [0x61, 0x62]])
      (fun ok _ => ok = true) roomy :=
    wp_exec_room Mem.roomy_single rfl rfl
      (fun _ _ hroom => Wp.wp_pure.mpr ⟨0, rfl, by decide, hroom⟩) (roomy_free (by decide))
      (by decide)
  obtain ⟨ok, s', hrun, rfl⟩ := Wp.exists_ok hexec
  obtain ⟨_, segs, args, ⟨⟩, hsegs, -, -, -, hstack, -⟩ :=
    user_stack (s := roomy) Mem.roomy_single hrun
  cases hsegs
  exact ⟨s', args, hrun, hstack⟩

end Xv6Mlfq.Exec
