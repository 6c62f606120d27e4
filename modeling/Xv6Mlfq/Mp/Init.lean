import Xv6Mlfq.Vm.PageTable

/-!
# Finding the processors

`mp.c`: the search for the configuration table of the MultiProcessor Specification, and the walk
over its entries.  Memory is that of the kernel, `2 ^ 32` bytes by virtual address, and stays as it
is; a pointer is a number, with arithmetic modulo `2 ^ 32`.  `cpus[0..ncpu)` is the list of the
local APIC ids stored in it.

The walk advances by the size of an entry of one of the five types.  The `default` case clears
`ismp` and breaks, out of the `switch` only: at an entry of another type the loop stays where it is.

## Main definitions

* `mpsearch`, `mpconfig`, `mpinit` — as in the source, the last with fuel for its loop.
* `Laid` — the bytes of a table are entries of the five types.

## Main results

* `walk_laid` — what the walk over such a table stores.
* `walk_unknown` — the walk stays at an entry of another type.
* `mpinit_ends_iff` — the walk ends exactly for tables of the first kind.
-/

namespace Xv6Mlfq.Mp

open Vm (KERNBASE)

/-- `param.h`: maximum number of CPUs. -/
abbrev NCPU : ℕ := 8

abbrev Memory := ℕ → UInt8

variable (mem : Memory)

/-- The byte a pointer points to. -/
def byteAt (p : ℕ) : UInt8 := mem (p % 2 ^ 32)

def ushortAt (p : ℕ) : ℕ := (byteAt mem p).toNat + (byteAt mem (p + 1)).toNat * 2 ^ 8

def uintAt (p : ℕ) : ℕ := ushortAt mem p + ushortAt mem (p + 2) * 2 ^ 16

def p2v (a : ℕ) : ℕ := (a + KERNBASE) % 2 ^ 32

/-- `memcmp(p, s, n) == 0`, for a string of `n` characters -/
def hasSignature : ℕ → List UInt8 → Bool
  | _, [] => true
  | p, c :: s => byteAt mem p == c && hasSignature (p + 1) s

/-- `sum`, as a `uchar` -/
def sum : ℕ → ℕ → UInt8
  | _, 0 => 0
  | addr, len + 1 => byteAt mem addr + sum (addr + 1) len

/-- `"_MP_"` -/
def mpSignature : List UInt8 := [0x5F, 0x4D, 0x50, 0x5F]

/-- `"PCMP"` -/
def confSignature : List UInt8 := [0x50, 0x43, 0x4D, 0x50]

/-- The loop of `mpsearch1`. -/
def searchLoop (e : ℕ) : ℕ → ℕ → Option ℕ
  | 0, _ => none
  | n + 1, p =>
    if p < e then
      if hasSignature mem p mpSignature && sum mem p 16 == 0 then some p
      else searchLoop e n ((p + 16) % 2 ^ 32)
    else none

/-- Look for an MP structure in the `len` bytes at `a`. -/
def mpsearch1 (a len : ℕ) : Option ℕ :=
  let addr := p2v a
  searchLoop mem ((addr + len) % 2 ^ 32) (len / 16 + 1) addr

/-- Search for the MP Floating Pointer Structure. -/
def mpsearch : Option ℕ :=
  let bda := p2v 0x400
  let p := ushortAt mem (bda + 0x0E) * 2 ^ 4
  let found :=
    if p ≠ 0 then mpsearch1 mem p 1024
    else mpsearch1 mem ((ushortAt mem (bda + 0x13) * 1024 + 2 ^ 32 - 1024) % 2 ^ 32) 1024
  match found with
  | some mp => some mp
  | none => mpsearch1 mem 0xF0000 0x10000

/-- Search for an MP configuration table: `mp` and `conf`. -/
def mpconfig : Option (ℕ × ℕ) := do
  let mp ← mpsearch mem
  let physaddr := uintAt mem (mp + 4)
  let conf := p2v physaddr
  if physaddr = 0 then none
  else if hasSignature mem conf confSignature = false then none
  else if byteAt mem (conf + 6) ≠ 1 ∧ byteAt mem (conf + 6) ≠ 4 then none
  else if sum mem conf (ushortAt mem (conf + 4)) ≠ 0 then none
  else some (mp, conf)

/-! ## The walk over the entries -/

/-- The locals and globals that the loop of `mpinit` changes. -/
structure Walk where
  p : ℕ
  cpus : List UInt8
  ioapicid : UInt8
  ismp : Bool
  deriving DecidableEq, Repr

/-- The body of the loop. -/
def Walk.round (w : Walk) : Walk :=
  match (byteAt mem w.p).toNat with
  | 0 => { w with                                                 -- MPPROC
      cpus := if w.cpus.length < NCPU then w.cpus ++ [byteAt mem (w.p + 1)] else w.cpus
      p := (w.p + 20) % 2 ^ 32 }
  | 2 => { w with ioapicid := byteAt mem (w.p + 1), p := (w.p + 8) % 2 ^ 32 }   -- MPIOAPIC
  | 1 | 3 | 4 => { w with p := (w.p + 8) % 2 ^ 32 }               -- MPBUS, MPIOINTR, MPLINTR
  | _ => { w with ismp := false }

/-- The loop; `none` if the fuel is used up. -/
def walk (e : ℕ) : ℕ → Walk → Option Walk
  | 0, _ => none
  | n + 1, w => if w.p < e then walk e n (w.round mem) else some w

/-- The globals that `mpinit` sets, and what it writes to the ports. -/
structure Globals where
  lapic : ℕ
  cpus : List UInt8
  ioapicid : UInt8
  out : List (ℕ × UInt8)
  deriving DecidableEq, Repr

/-- Where the table ends. -/
def tableEnd (conf : ℕ) : ℕ := (conf + ushortAt mem (conf + 4)) % 2 ^ 32

/-- The state before the loop. -/
def start (conf : ℕ) (g : Globals) : Walk :=
  ⟨(conf + 44) % 2 ^ 32, g.cpus, g.ioapicid, true⟩

/-- What follows the loop; `imcr` is the value of `inb(0x23)`. -/
def finish (mp conf : ℕ) (imcr : UInt8) (g : Globals) (w : Walk) : Except String Globals :=
  if w.ismp = false then .error "Didn't find a suitable machine"
  else .ok { lapic := uintAt mem (conf + 36), cpus := w.cpus, ioapicid := w.ioapicid, out :=
      if byteAt mem (mp + 12) ≠ 0 then g.out ++ [(0x22, 0x70), (0x23, imcr ||| 1)] else g.out }

/-- `mpinit`; `none` if the loop has not ended with this fuel. -/
def mpinit (fuel : ℕ) (imcr : UInt8) (g : Globals) : Option (Except String Globals) :=
  match mpconfig mem with
  | none => some (.error "Expect to run on an SMP")
  | some (mp, conf) =>
    (walk mem (tableEnd mem conf) fuel (start conf g)).map (finish mem mp conf imcr g)

/-! ## Entries -/

/-- Table entry types -/
inductive Kind
  | MPPROC
  | MPBUS
  | MPIOAPIC
  | MPIOINTR
  | MPLINTR
  deriving DecidableEq, Repr

def Kind.code : Kind → ℕ
  | .MPPROC => 0x00
  | .MPBUS => 0x01
  | .MPIOAPIC => 0x02
  | .MPIOINTR => 0x03
  | .MPLINTR => 0x04

def Kind.size : Kind → ℕ
  | .MPPROC => 20
  | _ => 8

/-- From `p` to `e` the table has entries of these types, one after the other; the last may go
beyond the end. -/
def Laid (e : ℕ) : ℕ → List Kind → Prop
  | p, [] => e ≤ p
  | p, k :: ks => p < e ∧ (byteAt mem p).toNat = k.code ∧ Laid e ((p + k.size) % 2 ^ 32) ks

instance decidableLaid (e : ℕ) : ∀ p ks, Decidable (Laid mem e p ks)
  | p, [] => inferInstanceAs (Decidable (e ≤ p))
  | p, k :: ks =>
    have : Decidable (Laid mem e ((p + k.size) % 2 ^ 32) ks) := decidableLaid e _ ks
    inferInstanceAs (Decidable (p < e ∧ (byteAt mem p).toNat = k.code ∧ _))

/-- What an entry of type `k` at the cursor changes. -/
def Walk.take (w : Walk) (k : Kind) : Walk where
  p := (w.p + k.size) % 2 ^ 32
  cpus := if k = .MPPROC ∧ w.cpus.length < NCPU then w.cpus ++ [byteAt mem (w.p + 1)] else w.cpus
  ioapicid := if k = .MPIOAPIC then byteAt mem (w.p + 1) else w.ioapicid
  ismp := w.ismp

variable {mem} {e : ℕ} {w : Walk}

theorem round_eq_take {k : Kind} (h : (byteAt mem w.p).toNat = k.code) :
    w.round mem = w.take mem k := by
  rw [Walk.round, h]
  cases k <;> simp [Kind.code, Walk.take, Kind.size]

/-- A byte that is no type of an entry. -/
def Unknown (b : UInt8) : Prop := ∀ k : Kind, b.toNat ≠ k.code

theorem round_unknown (h : Unknown (byteAt mem w.p)) : w.round mem = { w with ismp := false } := by
  rw [Walk.round]
  split
  case h_6 => rfl
  case h_1 he => exact absurd he (h .MPPROC)
  case h_2 he => exact absurd he (h .MPIOAPIC)
  case h_3 he => exact absurd he (h .MPBUS)
  case h_4 he => exact absurd he (h .MPIOINTR)
  case h_5 he => exact absurd he (h .MPLINTR)

/-- The walk over a table of entries ends after the last of them. -/
theorem walk_laid {ks : List Kind} (h : Laid mem e w.p ks) {fuel : ℕ} (hf : ks.length < fuel) :
    walk mem e fuel w = some (ks.foldl (Walk.take mem) w) := by
  induction ks generalizing w fuel with
  | nil =>
    obtain ⟨n, rfl⟩ : ∃ n, fuel = n + 1 := ⟨fuel - 1, by omega⟩
    rw [walk, if_neg (Nat.not_lt.mpr h)]
    rfl
  | cons k ks ih =>
    obtain ⟨hlt, hcode, hrest⟩ := h
    rw [List.length_cons] at hf
    obtain ⟨n, rfl⟩ : ∃ n, fuel = n + 1 := ⟨fuel - 1, by omega⟩
    rw [walk, if_pos hlt, round_eq_take hcode]
    exact ih hrest (by omega)

/-- The walk stays at an entry of another type. -/
theorem walk_unknown (hlt : w.p < e) (h : Unknown (byteAt mem w.p)) (fuel : ℕ) :
    walk mem e fuel w = none := by
  induction fuel generalizing w with
  | zero => rfl
  | succ n ih =>
    rw [walk, if_pos hlt, round_unknown h]
    exact ih hlt h

/-- A walk that ends has met entries only: at an entry of another type it would still be there. -/
theorem laid_of_walk {fuel : ℕ} {w' : Walk} (h : walk mem e fuel w = some w') :
    ∃ ks, Laid mem e w.p ks := by
  induction fuel generalizing w with
  | zero => cases h
  | succ n ih =>
    by_cases hlt : w.p < e
    swap
    · exact ⟨[], Nat.not_lt.mp hlt⟩
    by_cases hk : ∃ k : Kind, (byteAt mem w.p).toNat = k.code
    · obtain ⟨k, hk⟩ := hk
      rw [walk, if_pos hlt, round_eq_take hk] at h
      obtain ⟨ks, hks⟩ := ih h
      exact ⟨k :: ks, hlt, hk, hks⟩
    · rw [walk_unknown hlt (fun k he => hk ⟨k, he⟩)] at h
      cases h

theorem walk_consumes {fuel : ℕ} {w' : Walk} (h : walk mem e fuel w = some w') : e ≤ w'.p := by
  induction fuel generalizing w with
  | zero => cases h
  | succ n ih =>
    rw [walk] at h
    split_ifs at h with hlt
    · exact ih h
    · cases h
      exact Nat.not_lt.mp hlt

/-- The loop of `mpinit` ends, and `mpinit` goes on with all entries consumed, or panics. -/
def MpinitEnds (mem : Memory) (mp conf : ℕ) (imcr : UInt8) (g : Globals) : Prop :=
  ∃ fuel w, walk mem (tableEnd mem conf) fuel (start conf g) = some w ∧
    mpinit mem fuel imcr g = some (finish mem mp conf imcr g w) ∧
    (tableEnd mem conf ≤ w.p ∨
      finish mem mp conf imcr g w = .error "Didn't find a suitable machine")

/-- **When the walk over the table ends.**  For every table that `mpconfig` accepts, the loop of
`mpinit` ends if and only if the bytes of the table are entries of the five types. -/
theorem mpinit_ends_iff {mem : Memory} {mp conf : ℕ} (h : mpconfig mem = some (mp, conf))
    (imcr : UInt8) (g : Globals) :
    MpinitEnds mem mp conf imcr g ↔
      ∃ ks, Laid mem (tableEnd mem conf) ((conf + 44) % 2 ^ 32) ks := by
  constructor
  · rintro ⟨fuel, w, hw, -⟩
    exact laid_of_walk hw
  · rintro ⟨ks, hks⟩
    have hw : walk mem (tableEnd mem conf) (ks.length + 1) (start conf g) = _ :=
      walk_laid hks (Nat.lt_succ_self _)
    refine ⟨ks.length + 1, _, hw, ?_, .inl (walk_consumes hw)⟩
    simp only [mpinit, h, hw, Option.map_some]

/-! ## Two tables -/

/-- Memory with these bytes at `a`, and else as before -/
def Memory.put (mem : Memory) (a : ℕ) (bs : List UInt8) : Memory := fun p =>
  if a ≤ p then (bs[p - a]?).getD (mem p) else mem p

/-- An MP structure at the start of the EBDA, and after it a table with this header and entries. -/
def machine (conf entries : List UInt8) : Memory :=
  let ebda := 0x8009FC00
  let mp : List UInt8 := [0x5F, 0x4D, 0x50, 0x5F, 0x10, 0xFC, 0x09, 0x00, 1, 4, 0x8B, 0, 0, 0, 0, 0]
  (((Memory.put (fun _ => 0) 0x8000040E [0xC0, 0x9F]).put ebda mp).put (ebda + 16) conf).put
    (ebda + 60) entries

/-- One processor, with local APIC id 7 -/
def oneProcessor : Memory :=
  machine [0x50, 0x43, 0x4D, 0x50, 64, 0, 4, 0xA6, 0, 0, 0, 0, 0, 0, 0, 0, 0, 0, 0, 0, 0, 0, 0, 0,
    0, 0, 0, 0, 0, 0, 0, 0, 0, 0, 1, 0, 0, 0, 0xE0, 0xFE, 0, 0, 0, 0] [0, 7]

theorem mpinit_ends_iff_one :
    mpconfig oneProcessor = some (0x8009FC00, 0x8009FC10) ∧
      ∀ imcr g, MpinitEnds oneProcessor 0x8009FC00 0x8009FC10 imcr g := by
  have h : mpconfig oneProcessor = some (0x8009FC00, 0x8009FC10) := by decide +kernel
  refine ⟨h, fun imcr g => (mpinit_ends_iff h imcr g).mpr ⟨[.MPPROC], ?_⟩⟩
  decide +kernel

/-- One entry, of type 5 -/
def unknownEntry : Memory :=
  machine [0x50, 0x43, 0x4D, 0x50, 45, 0, 4, 0xBB, 0, 0, 0, 0, 0, 0, 0, 0, 0, 0, 0, 0, 0, 0, 0, 0,
    0, 0, 0, 0, 0, 0, 0, 0, 0, 0, 1, 0, 0, 0, 0xE0, 0xFE, 0, 0, 0, 0] [5]

/-- The table is accepted, and `mpinit` never gets past its only entry. -/
theorem mpinit_loops_forever :
    mpconfig unknownEntry = some (0x8009FC00, 0x8009FC10) ∧
      ∀ fuel imcr g, mpinit unknownEntry fuel imcr g = none := by
  have h : mpconfig unknownEntry = some (0x8009FC00, 0x8009FC10) := by decide +kernel
  refine ⟨h, fun fuel imcr g => ?_⟩
  have hlt : 0x8009FC3C < tableEnd unknownEntry 0x8009FC10 := by decide +kernel
  have hbyte : (byteAt unknownEntry 0x8009FC3C).toNat = 5 := by decide +kernel
  have hunknown : Unknown (byteAt unknownEntry 0x8009FC3C) := by
    intro k
    rw [hbyte]
    cases k <;> decide
  have hloop : walk unknownEntry (tableEnd unknownEntry 0x8009FC10) fuel
      (start 0x8009FC10 g) = none :=
    walk_unknown hlt hunknown fuel
  simp only [mpinit, h, hloop, Option.map_none]

end Xv6Mlfq.Mp
