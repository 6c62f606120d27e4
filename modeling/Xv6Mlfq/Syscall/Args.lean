import Xv6Mlfq.Lib.Wp
import Xv6Mlfq.Vm.PageTable
import Mathlib.Data.Int.Order.Basic
import Mathlib.Tactic.NormNum

/-!
# Arguments of system calls

`fetchint`, `fetchstr`, `argint`, `argptr` and `argstr` of `syscall.c`.  The kernel reads the memory
of the process without asking the page table, so the comparisons with `sz` are all that keeps it
there. The sums in them are `uint`s and could wrap; that they do not follows from `sz ≤ KERNBASE`.

## Main definitions

* `Caller` — the process that makes the call.
* `ReadM` — programs that read its memory; the state lists the addresses they have read.

## Main results

* `arguments_inside` — what is read, and what is approved, is below `sz`.
-/

namespace Xv6Mlfq.Syscall

open Wp (wp wp_mono wp_bind wp_pure wp_modify)
open Vm (KERNBASE)

abbrev Uint := BitVec 32

/-- The process that makes the call: `sz`, `tf->esp` and its memory -/
structure Caller where
  sz : Uint
  esp : Uint
  mem : Uint → UInt8

abbrev ReadM (α : Type) := Wp.Prog (List Uint) String α

def load (c : Caller) (a : Uint) : ReadM UInt8 := do
  modify (a :: ·)
  pure (c.mem a)

/-- The word at `addr`, in little endian -/
def Caller.word (c : Caller) (addr : Uint) : Uint :=
  (c.mem (addr + 3)).toBitVec ++ (c.mem (addr + 2)).toBitVec ++ (c.mem (addr + 1)).toBitVec ++
    (c.mem addr).toBitVec

/-- `*(int*)addr` -/
def loadInt (c : Caller) (addr : Uint) : ReadM Uint := do
  let b0 ← load c addr
  let b1 ← load c (addr + 1)
  let b2 ← load c (addr + 2)
  let b3 ← load c (addr + 3)
  pure (b3.toBitVec ++ b2.toBitVec ++ b1.toBitVec ++ b0.toBitVec)

/-- `fetchint`: the int at `addr`, or `none` for -1 -/
def fetchint (c : Caller) (addr : Uint) : ReadM (Option Uint) :=
  if addr ≥ c.sz ∨ addr + 4 > c.sz then pure none
  else do
    let v ← loadInt c addr
    pure (some v)

/-- The loop of `fetchstr`, which has come to `s` -/
def fetchLoop (c : Caller) (pp : Uint) : ℕ → Uint → ReadM (Option (Uint × Uint))
  | 0, _ => pure none
  | n + 1, s =>
    if s < c.sz then do
      let b ← load c s
      if b = 0 then pure (some (pp, s - pp)) else fetchLoop c pp n (s + 1)
    else pure none

/-- `fetchstr`: the pointer and the length of the string at `addr` -/
def fetchstr (c : Caller) (addr : Uint) : ReadM (Option (Uint × Uint)) :=
  if addr ≥ c.sz then pure none
  else fetchLoop c addr (c.sz - addr).toNat addr

/-- The address of the `n`th argument -/
def Caller.arg (c : Caller) (n : Uint) : Uint := c.esp + 4 + 4 * n

def argint (c : Caller) (n : Uint) : ReadM (Option Uint) := fetchint c (c.arg n)

def argptr (c : Caller) (n size : Uint) : ReadM (Option Uint) := do
  match ← argint c n with
  | none => pure none
  | some i =>
    if size.toInt < 0 ∨ i ≥ c.sz ∨ i + size > c.sz then pure none
    else pure (some i)

def argstr (c : Caller) (n : Uint) : ReadM (Option (Uint × Uint)) := do
  match ← argint c n with
  | none => pure none
  | some addr => fetchstr c addr

/-! ## What is read -/

/-- The `size` bytes from `p` on are in user memory. -/
def Caller.Has (c : Caller) (p : Uint) (size : ℕ) : Prop := p.toNat + size ≤ c.sz.toNat

instance (c : Caller) (p : Uint) (size : ℕ) : Decidable (c.Has p size) :=
  inferInstanceAs (Decidable (_ ≤ _))

/-- Everything that has been read is in user memory. -/
def Caller.Inside (c : Caller) (read : List Uint) : Prop := ∀ a ∈ read, c.Has a 1

/-- There is a string of length `len` at `p`, which ends in user memory. -/
structure Caller.IsString (c : Caller) (p len : Uint) : Prop where
  has : c.Has p (len.toNat + 1)
  nul : c.mem (p + len) = 0
  text : ∀ i, i < len → c.mem (p + i) ≠ 0

variable {F : String → Prop} {c : Caller} {read : List Uint}

theorem Caller.Inside.load (h : c.Inside read) {a : Uint} (ha : c.Has a 1) :
    c.Inside (a :: read) := by
  intro b hb
  rcases List.mem_cons.mp hb with rfl | hb
  · exact ha
  · exact h b hb

theorem wp_load {a : Uint} {Q : UInt8 → List Uint → Prop} :
    wp F (load c a) Q read ↔ Q (c.mem a) (a :: read) := by
  rw [load, wp_bind, wp_modify, wp_pure]

/-- A sum that does not wrap -/
theorem toNat_add_of_has {p k : Uint} {size : ℕ} (h : c.Has p size) (hk : k.toNat < size) :
    (p + k).toNat = p.toNat + k.toNat := by
  rw [Caller.Has] at h
  rw [BitVec.toNat_add]
  omega

theorem Caller.Has.byte {p k : Uint} {size : ℕ} (h : c.Has p size) (hk : k.toNat < size) :
    c.Has (p + k) 1 := by
  rw [Caller.Has, toNat_add_of_has h hk]
  rw [Caller.Has] at h
  omega

/-- The test of `fetchint` -/
theorem fetchint_test (hsz : c.sz.toNat ≤ KERNBASE) (addr : Uint) :
    ¬ (addr ≥ c.sz ∨ addr + 4 > c.sz) ↔ c.Has addr 4 := by
  have hfour : (4 : Uint).toNat = 4 := rfl
  simp only [Caller.Has, ge_iff_le, gt_iff_lt, BitVec.le_def, BitVec.lt_def,
    BitVec.toNat_add, hfour]
  lia

theorem wp_fetchint (hsz : c.sz.toNat ≤ KERNBASE) (hread : c.Inside read) (addr : Uint) :
    wp F (fetchint c addr) (fun res read' => c.Inside read' ∧
      (∀ v, res = some v → c.Has addr 4 ∧ v = c.word addr) ∧
      (c.Has addr 4 → res = some (c.word addr))) read := by
  rw [fetchint]
  split_ifs with htest
  · rw [wp_pure]
    refine ⟨hread, nofun, ?_⟩
    intro hhas
    exact absurd htest ((fetchint_test hsz addr).mpr hhas)
  · have hhas := (fetchint_test hsz addr).mp htest
    have h₀ : c.Has addr 1 := by
      rw [Caller.Has] at hhas ⊢
      omega
    simp only [wp_bind, loadInt, wp_load, wp_pure]
    refine ⟨?_, ?_, ?_⟩
    · apply Caller.Inside.load _ (hhas.byte (by decide))
      apply Caller.Inside.load _ (hhas.byte (by decide))
      apply Caller.Inside.load _ (hhas.byte (by decide))
      exact hread.load h₀
    · intro v hv
      exact ⟨hhas, (Option.some.inj hv).symm⟩
    · intro _
      rfl

/-- The loop of `fetchstr`, by induction on the bytes that are left -/
theorem wp_fetchLoop {pp s : Uint} {n : ℕ} (hread : c.Inside read) (hn : s.toNat + n = c.sz.toNat)
    (hle : pp.toNat ≤ s.toNat) (htext : ∀ i, i < s - pp → c.mem (pp + i) ≠ 0) :
    wp F (fetchLoop c pp n s) (fun res read' => c.Inside read' ∧
      ∀ p len, res = some (p, len) → p = pp ∧ c.IsString p len) read := by
  induction n generalizing s read with
  | zero =>
    rw [fetchLoop, wp_pure]
    exact ⟨hread, nofun⟩
  | succ n ih =>
    have hlt : s < c.sz := by
      rw [BitVec.lt_def]
      omega
    have hhas : c.Has s 1 := by
      rw [Caller.Has]
      omega
    have hat : pp + (s - pp) = s := by rw [BitVec.add_comm, BitVec.sub_add_cancel]
    have hlen : (s - pp).toNat = s.toNat - pp.toNat := by
      rw [BitVec.toNat_sub]
      omega
    rw [fetchLoop, if_pos hlt, wp_bind, wp_load]
    split_ifs with hb
    · rw [wp_pure]
      refine ⟨hread.load hhas, ?_⟩
      rintro p len ⟨⟩
      refine ⟨rfl, ?_, ?_, htext⟩
      · rw [Caller.Has, hlen]
        omega
      · rw [hat]
        exact hb
    · have hsz := c.sz.isLt
      have hnext : (s + 1).toNat = s.toNat + 1 := by
        have hone : (1 : Uint).toNat = 1 := rfl
        rw [BitVec.toNat_add, hone]
        omega
      have hlen' : (s + 1 - pp).toNat = s.toNat + 1 - pp.toNat := by
        rw [BitVec.toNat_sub, hnext]
        omega
      apply ih (hread.load hhas) (by omega) (by omega)
      intro i hi
      rw [BitVec.lt_def, hlen'] at hi
      by_cases hlast : i = s - pp
      · rw [hlast, hat]
        exact hb
      · apply htext
        rw [BitVec.lt_def, hlen]
        rw [← BitVec.toNat_inj, hlen] at hlast
        omega

theorem wp_fetchstr (hread : c.Inside read) (addr : Uint) :
    wp F (fetchstr c addr) (fun res read' => c.Inside read' ∧
      ∀ p len, res = some (p, len) → p = addr ∧ c.IsString p len) read := by
  rw [fetchstr]
  split_ifs with htest
  · rw [wp_pure]
    exact ⟨hread, nofun⟩
  · have hlt : addr.toNat < c.sz.toNat := by
      rw [ge_iff_le, BitVec.le_def] at htest
      omega
    apply wp_fetchLoop hread _ le_rfl
    · intro i hi
      rw [BitVec.sub_self, BitVec.lt_def] at hi
      exact absurd hi (Nat.not_lt_zero _)
    · have := addr.isLt
      rw [BitVec.toNat_sub]
      omega

/-- The test of `argptr`, for a size that is not negative -/
theorem argptr_test (hsz : c.sz.toNat ≤ KERNBASE) {p size : Uint} (hsize : 0 ≤ size.toInt) :
    p ≥ c.sz ∨ p + size > c.sz ↔ ¬ (p.toNat < c.sz.toNat ∧ c.Has p size.toNat) := by
  have hpos : size.toNat < 2 ^ 31 := by
    rw [BitVec.toInt_eq_toNat_cond] at hsize
    split_ifs at hsize <;> omega
  simp only [Caller.Has, ge_iff_le, gt_iff_lt, BitVec.le_def, BitVec.lt_def, BitVec.toNat_add]
  lia

theorem wp_argptr (hsz : c.sz.toNat ≤ KERNBASE) (hread : c.Inside read) (n size : Uint) :
    wp F (argptr c n size) (fun res read' => c.Inside read' ∧
      (∀ p, res = some p → c.Has (c.arg n) 4 ∧ p = c.word (c.arg n) ∧ 0 ≤ size.toInt ∧
        c.Has p size.toNat) ∧
      (c.Has (c.arg n) 4 → 0 ≤ size.toInt → (c.word (c.arg n)).toNat < c.sz.toNat →
        c.Has (c.word (c.arg n)) size.toNat → res = some (c.word (c.arg n)))) read := by
  rw [argptr, wp_bind]
  apply wp_mono (wp_fetchint hsz hread (c.arg n))
  rintro res read' ⟨hread', hsome, hhas⟩
  cases res with
  | none =>
    rw [wp_pure]
    refine ⟨hread', nofun, ?_⟩
    intro h4
    exact absurd (hhas h4) (by simp)
  | some i =>
    obtain ⟨h4, rfl⟩ := hsome i rfl
    dsimp only
    by_cases hneg : size.toInt < 0
    · rw [if_pos (.inl hneg), wp_pure]
      refine ⟨hread', nofun, ?_⟩
      intro _ hpos
      omega
    · have htest := argptr_test hsz (p := c.word (c.arg n)) (not_lt.mp hneg)
      split_ifs with hbad
      · rw [wp_pure]
        refine ⟨hread', nofun, ?_⟩
        intro _ _ hlt hfits
        exact absurd ⟨hlt, hfits⟩ (htest.mp (hbad.resolve_left hneg))
      · have hgood := not_not.mp (mt htest.mpr fun h => hbad (.inr h))
        rw [wp_pure]
        refine ⟨hread', ?_, fun _ _ _ _ => rfl⟩
        intro p hp
        cases hp
        exact ⟨h4, rfl, not_lt.mp hneg, hgood.2⟩

theorem wp_argstr (hsz : c.sz.toNat ≤ KERNBASE) (hread : c.Inside read) (n : Uint) :
    wp F (argstr c n) (fun res read' => c.Inside read' ∧
      ∀ p len, res = some (p, len) → c.Has (c.arg n) 4 ∧ p = c.word (c.arg n) ∧ c.IsString p len)
      read := by
  rw [argstr, wp_bind]
  apply wp_mono (wp_fetchint hsz hread (c.arg n))
  rintro res read' ⟨hread', hsome, _⟩
  cases res with
  | none =>
    rw [wp_pure]
    exact ⟨hread', nofun⟩
  | some addr =>
    obtain ⟨h4, rfl⟩ := hsome addr rfl
    apply wp_mono (wp_fetchstr hread' _)
    rintro res' read'' ⟨hread'', hstr⟩
    refine ⟨hread'', ?_⟩
    intro p len hres
    obtain ⟨rfl, hp⟩ := hstr p len hres
    exact ⟨h4, rfl, hp⟩

/-- **Arguments never reach outside user memory**, for every size up to `KERNBASE`, every stack
pointer, every memory and every argument. -/
theorem arguments_inside (c : Caller) (hsz : c.sz.toNat ≤ KERNBASE) :
    (∀ addr, ∃ res read, fetchint c addr [] = .ok (res, read) ∧ c.Inside read ∧
      (res.isSome → c.Has addr 4)) ∧
    (∀ n, ∃ res read, argint c n [] = .ok (res, read) ∧ c.Inside read ∧
      (res.isSome → c.Has (c.arg n) 4)) ∧
    (∀ addr, ∃ res read, fetchstr c addr [] = .ok (res, read) ∧ c.Inside read ∧
      ∀ p len, res = some (p, len) → p = addr ∧ c.IsString p len) ∧
    (∀ n, ∃ res read, argstr c n [] = .ok (res, read) ∧ c.Inside read ∧
      ∀ p len, res = some (p, len) → c.Has (c.arg n) 4 ∧ c.IsString p len) ∧
    ∀ n size, ∃ res read, argptr c n size [] = .ok (res, read) ∧ c.Inside read ∧
      (∀ p, res = some p → c.Has (c.arg n) 4 ∧ 0 ≤ size.toInt ∧ c.Has p size.toNat) ∧
      (c.Has (c.arg n) 4 → 0 ≤ size.toInt → (c.word (c.arg n)).toNat < c.sz.toNat →
        ((c.word (c.arg n)).toNat : ℤ) + size.toInt ≤ c.sz.toNat →
        res = some (c.word (c.arg n))) := by
  have hnil : c.Inside [] := nofun
  have hint : ∀ addr, ∃ res read, fetchint c addr [] = .ok (res, read) ∧ c.Inside read ∧
      (res.isSome → c.Has addr 4) := by
    intro addr
    obtain ⟨res, read, hrun, hread, hsome, -⟩ := Wp.exists_ok (wp_fetchint hsz hnil addr)
    refine ⟨res, read, hrun, hread, ?_⟩
    intro hres
    obtain ⟨v, hv⟩ := Option.isSome_iff_exists.mp hres
    exact (hsome v hv).1
  refine ⟨hint, fun n => hint (c.arg n), ?_, ?_, ?_⟩
  · intro addr
    exact Wp.exists_ok (wp_fetchstr hnil addr)
  · intro n
    obtain ⟨res, read, hrun, hread, hstr⟩ := Wp.exists_ok (wp_argstr hsz hnil n)
    refine ⟨res, read, hrun, hread, ?_⟩
    intro p len hres
    obtain ⟨h4, -, hp⟩ := hstr p len hres
    exact ⟨h4, hp⟩
  · intro n size
    obtain ⟨res, read, hrun, hread, hsome, hall⟩ := Wp.exists_ok (wp_argptr hsz hnil n size)
    refine ⟨res, read, hrun, hread, ?_, ?_⟩
    · intro p hp
      obtain ⟨h4, -, hpos, hfits⟩ := hsome p hp
      exact ⟨h4, hpos, hfits⟩
    · intro h4 hpos hlt hsum
      apply hall h4 hpos hlt
      rw [BitVec.toInt_eq_toNat_of_lt] at hsum
      · rw [Caller.Has]
        omega
      · have := size.isLt
        rw [BitVec.toInt_eq_toNat_cond] at hpos
        split_ifs at hpos <;> omega

/-- A process of one page whose stack pointer is at its end: the first argument would be above. -/
theorem arguments_inside_top : ∃ res read,
    argptr ⟨4096, 4092, fun _ => 1⟩ 0 8 [] = .ok (res, read) ∧
      Caller.Inside ⟨4096, 4092, fun _ => 1⟩ read ∧ res ≠ some 0 := by
  obtain ⟨-, -, -, -, hptr⟩ := arguments_inside ⟨4096, 4092, fun _ => 1⟩ (by decide)
  obtain ⟨res, read, hrun, hread, hsome, -⟩ := hptr 0 8
  refine ⟨res, read, hrun, hread, ?_⟩
  intro hres
  have h4 := (hsome 0 hres).1
  exact absurd h4 (by decide)

end Xv6Mlfq.Syscall
