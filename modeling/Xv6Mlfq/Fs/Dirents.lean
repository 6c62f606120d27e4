import Xv6Mlfq.Fs.ByteArray
import Xv6Mlfq.Fs.Names

/-!
# Directories as finite maps

`dirlookup` and `dirlink` of `fs.c`, and what `sys_unlink` does to a directory, on the bytes of the
directory. A directory is an array of entries of 16 bytes; those with `inum = 0` are empty.
Whatever is linked and unlinked, the directory is a finite map from names, cut off after `DIRSIZ`
bytes, to inodes.

What `dirlookup` gets from `iget`, and `dirlink` gives back with `iput`, are references, which have
nothing to do with the contents of the directory.

## Main definitions

* `dirlookup`, `dirlink`, `unlinkEnt` — the functions, on a disk.
* `DirOp`, `runDir` — a sequence of them.
* `mapOp` — what one of them does to a map.
* `IsMap sb d f i m` — the directory `i` is the map `m`.

## Main results

* `IsMap.wp_dirCall` — a call does to the directory what it should do to the map.
* `directory_map` — a directory is a map after any sequence of calls.
-/

namespace Xv6Mlfq

abbrev DIRSIZ : ℕ := 14

namespace Blocks

open Function (update update_self update_of_ne)
open Wp (wp wp_mono wp_and wp_bind wp_pure wp_throw)
open Names (text strncmp strncpy)

/-! ## The functions -/

/-- `sizeof(struct dirent)` -/
abbrev direntSize : ℕ := 16

/-- `de.inum`, a `ushort` -/
def deInum (de : Bytes) : ℕ := (de 0).toNat + 2 ^ 8 * (de 1).toNat

/-- `de.name` -/
def deName (de : Bytes) : Bytes := fun j => de (2 + j)

/-- The bytes of a `struct dirent` -/
def direntBytes (inum : ℕ) (name : List UInt8) : List UInt8 :=
  inum.toUInt8 :: (inum / 2 ^ 8).toUInt8 :: name

def namecmp (s t : Bytes) : ℤ := strncmp DIRSIZ s t

section Functions

variable (sb : Superblock) (devsw : Devsw)

/-- `if(readi(dp, (char*)&de, off, sizeof(de)) != sizeof(de)) panic(msg)` -/
def readDirent (msg : String) (dp : Dinode) (off : ℕ) : DiskM (Bytes × Dinode) := do
  let (res, dp) ← readi sb devsw dp off direntSize
  match res with
  | some bs => if bs.length ≠ direntSize then throw msg else pure (fun j => bs.getD j 0, dp)
  | none => throw msg

/-- `if(writei(dp, (char*)&de, off, sizeof(de)) != sizeof(de)) panic(msg)` -/
def writeDirent (msg : String) (dp : Dinode) (de : List UInt8) (off : ℕ) : DiskM Dinode := do
  let (ret, dp, _) ← writei sb devsw dp de off
  if ret ≠ direntSize then throw msg else pure dp

/-- The loop of `dirlookup` -/
def lookupLoop (name : Bytes) : ℕ → Dinode → ℕ → DiskM (Option (ℕ × ℕ) × Dinode)
  | 0, dp, _ => pure (none, dp)
  | fuel + 1, dp, off =>
    if off < dp.size then do
      let (de, dp) ← readDirent sb devsw "dirlookup read" dp off
      if deInum de = 0 then lookupLoop name fuel dp (off + direntSize)
      else if namecmp name (deName de) = 0 then pure (some (deInum de, off), dp)
      else lookupLoop name fuel dp (off + direntSize)
    else pure (none, dp)

/-- `dirlookup`: the number of the inode, and `*poff` -/
def dirlookup (dp : Dinode) (name : Bytes) : DiskM (Option (ℕ × ℕ) × Dinode) :=
  if dp.type ≠ .dir then throw "dirlookup not DIR"
  else lookupLoop sb devsw name (dp.size / direntSize + 1) dp 0

/-- The loop of `dirlink`: the offset of an empty entry, or of the end -/
def emptyLoop : ℕ → Dinode → ℕ → DiskM (ℕ × Dinode)
  | 0, dp, off => pure (off, dp)
  | fuel + 1, dp, off =>
    if off < dp.size then do
      let (de, dp) ← readDirent sb devsw "dirlink read" dp off
      if deInum de = 0 then pure (off, dp) else emptyLoop fuel dp (off + direntSize)
    else pure (off, dp)

def dirlink (dp : Dinode) (name : Bytes) (inum : ℕ) : DiskM (ℤ × Dinode) := do
  let (found, dp) ← dirlookup sb devsw dp name
  match found with
  | some _ => pure (-1, dp)
  | none => do
      let (off, dp) ← emptyLoop sb devsw (dp.size / direntSize + 1) dp 0
      let dp ← writeDirent sb devsw "dirlink" dp (direntBytes inum (strncpy DIRSIZ name)) off
      pure (0, dp)

/-- What `sys_unlink` finds out about the inode that it is to unlink -/
inductive Victim
  | notEmpty | emptyDir | other
  deriving DecidableEq, Repr

def dotBytes : Bytes := fun j => [46].getD j 0

def dotdotBytes : Bytes := fun j => [46, 46].getD j 0

/-- The part of `sys_unlink` that has to do with the directory -/
def unlinkEnt (dp : Dinode) (name : Bytes) (victim : Victim) : DiskM (ℤ × Dinode) :=
  if namecmp name dotBytes = 0 ∨ namecmp name dotdotBytes = 0 then pure (-1, dp)
  else do
    let (found, dp) ← dirlookup sb devsw dp name
    match found with
    | none => pure (-1, dp)
    | some (_, off) =>
      if victim = .notEmpty then pure (-1, dp)
      else do
        let dp ← writeDirent sb devsw "unlink: writei" dp (List.replicate direntSize 0) off
        pure (0, if victim = .emptyDir then { dp with nlink := dp.nlink - 1 } else dp)

inductive DirOp
  | link (name : Bytes) (inum : ℕ)
  | unlink (name : Bytes) (victim : Victim)

def dirCall (dp : Dinode) : DirOp → DiskM (ℤ × Dinode)
  | .link name inum => dirlink sb devsw dp name inum
  | .unlink name victim => unlinkEnt sb devsw dp name victim

/-- Calls, one after another -/
def runDir : List DirOp → Dinode → DiskM Dinode
  | [], dp => pure dp
  | op :: ops, dp => do
      let (_, dp) ← dirCall sb devsw dp op
      runDir ops dp

end Functions

/-! ## Maps -/

/-- A name, as it is in a directory -/
def nameOf (name : Bytes) : List UInt8 := text DIRSIZ name

abbrev NameMap := List UInt8 → Option ℕ

/-- What a call does to a map: a name that is there is not linked again, and the dots are not
unlinked. -/
def mapOp (m : NameMap) : DirOp → NameMap
  | .link name inum => if m (nameOf name) = none then update m (nameOf name) (some inum) else m
  | .unlink name victim =>
    if (nameOf name = [46] ∨ nameOf name = [46, 46]) ∨ victim = .notEmpty then m
    else update m (nameOf name) none

/-- Numbers of inodes are not 0, and fit into a `ushort`. -/
def DirOp.Fits : DirOp → Prop
  | .link _ inum => 0 < inum ∧ inum < 2 ^ 16
  | .unlink _ _ => True

theorem namecmp_eq_zero {s t : Bytes} :
    namecmp s t = 0 ↔ nameOf s = nameOf t := Names.strncmp_eq_zero

/-! ## Entries -/

/-- Entry number `k` of a directory -/
def entry (C : List UInt8) (k : ℕ) : Bytes := fun j =>
  ((C.drop (direntSize * k)).take direntSize).getD j 0

theorem entry_apply (C : List UInt8) (k j : ℕ) :
    entry C k j = if j < direntSize then C.getD (direntSize * k + j) 0 else 0 := by
  rw [entry, List.getD_eq_getElem?_getD]
  by_cases hj : j < direntSize
  · rw [if_pos hj, List.getElem?_take_of_lt hj, List.getElem?_drop, List.getD_eq_getElem?_getD]
  · rw [if_neg hj, List.getElem?_take_eq_none (not_lt.mp hj)]
    rfl

/-- An entry is written. -/
theorem entry_overwrite {C de : List UInt8} {k : ℕ} (hk : direntSize * k ≤ C.length)
    (hde : de.length = direntSize) (j : ℕ) :
    entry (overwrite C (direntSize * k) de) j = if j = k then (fun x => de.getD x 0)
    else entry C j := by
  funext x
  rw [entry_apply, getD_overwrite hk, hde]
  by_cases hx : x < direntSize
  · by_cases hj : j = k
    · subst hj
      rw [if_pos hx, if_pos (by omega), if_pos rfl, Nat.add_sub_cancel_left]
    · rw [if_pos hx, if_neg (by lia), if_neg hj, entry_apply, if_pos hx]
  · rw [if_neg hx]
    by_cases hj : j = k
    · rw [if_pos hj, List.getD_eq_default de _ (by omega)]
    · rw [if_neg hj, entry_apply, if_neg hx]

theorem deInum_direntBytes {inum : ℕ} (h : inum < 2 ^ 16) (name : List UInt8) :
    deInum (fun j => (direntBytes inum name).getD j 0) = inum := by
  show inum.toUInt8.toNat + 2 ^ 8 * (inum / 2 ^ 8).toUInt8.toNat = inum
  rw [Nat.toUInt8_eq, Nat.toUInt8_eq, UInt8.toNat_ofNat', UInt8.toNat_ofNat']
  omega

theorem nameOf_direntBytes (inum : ℕ) (name : Bytes) :
    nameOf (deName fun j => (direntBytes inum (strncpy DIRSIZ name)).getD j 0) = nameOf name := by
  rw [nameOf, nameOf, ← Names.text_strncpy DIRSIZ name]
  apply Names.text_congr
  intro j _
  rw [deName, Nat.add_comm]
  rfl

def inumAt (C : List UInt8) (k : ℕ) : ℕ := deInum (entry C k)

def nameAt (C : List UInt8) (k : ℕ) : List UInt8 := nameOf (deName (entry C k))

/-- The entries that are not empty are those of the map. -/
structure Represents (C : List UInt8) (m : NameMap) : Prop where
  size : direntSize ∣ C.length
  live : ∀ k < C.length / direntSize, inumAt C k ≠ 0 → m (nameAt C k) = some (inumAt C k)
  found : ∀ name v, m name = some v →
    v ≠ 0 ∧ ∃ k < C.length / direntSize, inumAt C k = v ∧ nameAt C k = name
  distinct : ∀ j < C.length / direntSize, ∀ k < C.length / direntSize, inumAt C j ≠ 0 →
    inumAt C k ≠ 0 → nameAt C j = nameAt C k → j = k

theorem Represents.nil : Represents [] fun _ => none :=
  ⟨⟨0, rfl⟩, fun k hk => absurd hk (Nat.not_lt_zero k), nofun,
    fun j hj => absurd hj (Nat.not_lt_zero j)⟩

variable {C de : List UInt8} {m : NameMap} {k : ℕ}

theorem inumAt_overwrite (hk : direntSize * k ≤ C.length) (hde : de.length = direntSize) (j : ℕ) :
    inumAt (overwrite C (direntSize * k) de) j =
      if j = k then deInum (fun x => de.getD x 0) else inumAt C j := by
  rw [inumAt, entry_overwrite hk hde]
  split_ifs <;> rfl

theorem nameAt_overwrite (hk : direntSize * k ≤ C.length) (hde : de.length = direntSize) (j : ℕ) :
    nameAt (overwrite C (direntSize * k) de) j =
      if j = k then nameOf (deName fun x => de.getD x 0) else nameAt C j := by
  rw [nameAt, entry_overwrite hk hde]
  split_ifs <;> rfl

theorem le_entries {n : ℕ} : k ≤ n / direntSize ↔ direntSize * k ≤ n := by
  rw [Nat.le_div_iff_mul_le (by norm_num), Nat.mul_comm]

theorem lt_entries {n : ℕ} : k < n / direntSize ↔ direntSize * k + direntSize ≤ n := by
  rw [← Nat.succ_le_iff, le_entries, Nat.mul_succ]

/-- After the last entry -/
theorem not_lt_of_entries {n : ℕ} (hdvd : direntSize ∣ n) (hk : ¬ k < n / direntSize) :
    ¬ direntSize * k < n := by
  obtain ⟨j, rfl⟩ := hdvd
  rw [Nat.mul_div_cancel_left _ (by norm_num)] at hk
  exact not_lt.mpr (Nat.mul_le_mul_left _ (not_lt.mp hk))

/-- The number of entries, after one has been written -/
theorem entries_overwrite (hsize : direntSize ∣ C.length) (hk : direntSize * k ≤ C.length)
    (hde : de.length = direntSize) :
    direntSize ∣ (overwrite C (direntSize * k) de).length ∧
      (overwrite C (direntSize * k) de).length / direntSize =
        max (C.length / direntSize) (k + 1) := by
  obtain ⟨n, hn⟩ := hsize
  rw [length_overwrite hk, hde, hn]
  lia

/-- A name that was not there is written to an entry that was empty. -/
theorem Represents.link {v : ℕ} {name : List UInt8} (h : Represents C m)
    (hk : direntSize * k ≤ C.length) (hempty : k < C.length / direntSize → inumAt C k = 0)
    (hnone : m name = none) (hde : de.length = direntSize) (hv : v ≠ 0)
    (hinum : deInum (fun x => de.getD x 0) = v)
    (hname : nameOf (deName fun x => de.getD x 0) = name) :
    Represents (overwrite C (direntSize * k) de) (update m name (some v)) := by
  have hinumAt := inumAt_overwrite hk hde
  have hnameAt := nameAt_overwrite hk hde
  obtain ⟨hsize, hlen⟩ := entries_overwrite h.size hk hde
  rw [hinum] at hinumAt
  rw [hname] at hnameAt
  -- entries other than `k` that are not empty were there, with other names
  have hother : ∀ j, j ≠ k → j < max (C.length / direntSize) (k + 1) → inumAt C j ≠ 0 →
      j < C.length / direntSize ∧ nameAt C j ≠ name := by
    intro j hj hlt h0
    have hold : j < C.length / direntSize := by
      have hkn : k ≤ C.length / direntSize := le_entries.mpr hk
      omega
    refine ⟨hold, ?_⟩
    rintro rfl
    rw [h.live j hold h0] at hnone
    cases hnone
  refine ⟨hsize, ?_, ?_, ?_⟩
  · intro j hj h0
    rw [hlen] at hj
    rw [hinumAt] at h0 ⊢
    rw [hnameAt]
    by_cases hjk : j = k
    · rw [if_pos hjk, if_pos hjk, update_self]
    · rw [if_neg hjk] at h0
      obtain ⟨hold, hne⟩ := hother j hjk hj h0
      rw [if_neg hjk, if_neg hjk, update_of_ne hne]
      exact h.live j hold h0
  · intro name' v' hm
    rw [hlen]
    by_cases hn : name' = name
    · subst hn
      rw [update_self] at hm
      cases hm
      refine ⟨hv, k, by omega, ?_, ?_⟩
      · rw [hinumAt, if_pos rfl]
      · rw [hnameAt, if_pos rfl]
    · rw [update_of_ne hn] at hm
      obtain ⟨hv', j, hj, hji, hjn⟩ := h.found name' v' hm
      have hjk : j ≠ k := by
        rintro rfl
        exact hv' (hji.symm.trans (hempty hj))
      refine ⟨hv', j, by omega, ?_, ?_⟩
      · rw [hinumAt, if_neg hjk, hji]
      · rw [hnameAt, if_neg hjk, hjn]
  · intro j hj l hl hj0 hl0 hnames
    rw [hlen] at hj hl
    rw [hinumAt] at hj0 hl0
    rw [hnameAt, hnameAt] at hnames
    by_cases hjk : j = k
    · by_cases hlk : l = k
      · rw [hjk, hlk]
      · rw [if_neg hlk] at hl0
        rw [if_pos hjk, if_neg hlk] at hnames
        exact absurd hnames.symm (hother l hlk hl hl0).2
    · rw [if_neg hjk] at hj0
      by_cases hlk : l = k
      · rw [if_neg hjk, if_pos hlk] at hnames
        exact absurd hnames (hother j hjk hj hj0).2
      · rw [if_neg hlk] at hl0
        rw [if_neg hjk, if_neg hlk] at hnames
        exact h.distinct j (hother j hjk hj hj0).1 l (hother l hlk hl hl0).1 hj0 hl0 hnames

/-- An entry is cleared. -/
theorem Represents.unlink (h : Represents C m) (hk : k < C.length / direntSize)
    (h0 : inumAt C k ≠ 0) : Represents (overwrite C (direntSize * k) (List.replicate direntSize 0))
      (update m (nameAt C k) none) := by
  have hde : (List.replicate direntSize (0 : UInt8)).length = direntSize := List.length_replicate
  have hle : direntSize * k ≤ C.length := le_entries.mp hk.le
  have hinumAt := inumAt_overwrite hle hde
  have hnameAt := nameAt_overwrite hle hde
  obtain ⟨hsize, hlen⟩ := entries_overwrite h.size hle hde
  have hzero : deInum (fun x => (List.replicate direntSize (0 : UInt8)).getD x 0) = 0 := rfl
  rw [hzero] at hinumAt
  rw [max_eq_left (by omega)] at hlen
  have hother : ∀ j, inumAt (overwrite C (direntSize * k) (List.replicate direntSize 0)) j ≠ 0 →
      j ≠ k ∧ inumAt C j ≠ 0 := by
    intro j hj
    rw [hinumAt] at hj
    by_cases hjk : j = k
    · rw [if_pos hjk] at hj
      exact absurd rfl hj
    · rw [if_neg hjk] at hj
      exact ⟨hjk, hj⟩
  refine ⟨hsize, ?_, ?_, ?_⟩
  · intro j hj hj0
    rw [hlen] at hj
    obtain ⟨hjk, hold⟩ := hother j hj0
    have hne : nameAt C j ≠ nameAt C k := fun heq => hjk (h.distinct j hj k hk hold h0 heq)
    rw [hinumAt, hnameAt, if_neg hjk, if_neg hjk, update_of_ne hne]
    exact h.live j hj hold
  · intro name v hm
    rw [hlen]
    by_cases hn : name = nameAt C k
    · rw [hn, update_self] at hm
      cases hm
    · rw [update_of_ne hn] at hm
      obtain ⟨hv, j, hj, hji, hjn⟩ := h.found name v hm
      have hjk : j ≠ k := by
        rintro rfl
        exact hn hjn.symm
      refine ⟨hv, j, hj, ?_, ?_⟩
      · rw [hinumAt, if_neg hjk, hji]
      · rw [hnameAt, if_neg hjk, hjn]
  · intro j hj l hl hj0 hl0 hnames
    rw [hlen] at hj hl
    obtain ⟨hjk, hj0⟩ := hother j hj0
    obtain ⟨hlk, hl0⟩ := hother l hl0
    rw [hnameAt, hnameAt, if_neg hjk, if_neg hlk] at hnames
    exact h.distinct j hj l hl hj0 hl0 hnames

/-! ## Programs -/

section Programs

variable {F : String → Prop} {sb : Superblock} {devsw : Devsw} {d : Disk} {f : ℕ → Dinode} {i : ℕ}

/-- The directory `i` is the map `m`. -/
structure IsMap (sb : Superblock) (d : Disk) (f : ℕ → Dinode) (i : ℕ) (m : NameMap) : Prop where
  owned : Owned sb d f
  type : (f i).type = .dir
  rep : Represents (contents d (f i)) m

theorem IsMap.not_dev (h : IsMap sb d f i m) : (f i).type ≠ .dev := by
  rw [h.type]
  decide

variable {msg : String} {name : Bytes}

theorem wp_readDirent (h : IsMap sb d f i m) (hk : k < (f i).size / direntSize) :
    wp F (readDirent sb devsw msg (f i) (direntSize * k)) (fun r d' => d' = d ∧
      r = (entry (contents d (f i)) k, f i)) d := by
  have hsize := h.owned.size_le i
  have hle : direntSize * k + direntSize ≤ (f i).size := lt_entries.mp hk
  have hlen : (((contents d (f i)).drop (direntSize * k)).take direntSize).length = direntSize := by
    rw [List.length_take, List.length_drop, length_contents]
    omega
  rw [readDirent, wp_bind]
  apply wp_mono (wp_readi h.owned h.not_dev (by omega) (by lia))
  rintro _ d' ⟨rfl, rfl⟩
  rw [map_byteAt]
  dsimp only
  rw [if_neg (not_not.mpr hlen), wp_pure]
  exact ⟨rfl, rfl⟩

/-- What a lookup from entry `k` on has found: the name, or that it is not there -/
structure Lookup (C : List UInt8) (name : List UInt8) (k : ℕ) (res : Option (ℕ × ℕ)) : Prop where
  absent : res = none → ∀ j, k ≤ j → j < C.length / direntSize → inumAt C j ≠ 0 → nameAt C j ≠ name
  present : ∀ v off, res = some (v, off) → ∃ j < C.length / direntSize, off = direntSize * j ∧
    inumAt C j = v ∧ v ≠ 0 ∧ nameAt C j = name

theorem Lookup.skip {name : List UInt8} {res : Option (ℕ × ℕ)} (h : Lookup C name (k + 1) res)
    (hthis : inumAt C k ≠ 0 → nameAt C k ≠ name) : Lookup C name k res := by
  refine ⟨?_, h.present⟩
  intro hres j hj hlt h0
  by_cases hjk : j = k
  · subst hjk
    exact hthis h0
  · exact h.absent hres j (by omega) hlt h0

/-- The loop of `dirlookup`, which has come to entry `k`.  By induction on the rounds -/
theorem wp_lookupLoop {fuel : ℕ} (h : IsMap sb d f i m)
    (hfuel : (f i).size / direntSize < k + fuel) :
    wp F (lookupLoop sb devsw name fuel (f i) (direntSize * k)) (fun r d' => d' = d ∧ r.2 = f i ∧
      Lookup (contents d (f i)) (nameOf name) k r.1) d := by
  have hlen : (contents d (f i)).length = (f i).size := length_contents _ _
  induction fuel generalizing k with
  | zero =>
    apply wp_pure.mpr
    refine ⟨rfl, rfl, ?_, nofun⟩
    intro _ j hj hlt
    rw [hlen] at hlt
    omega
  | succ fuel ih =>
    rw [lookupLoop]
    by_cases hlt : k < (f i).size / direntSize
    swap
    · rw [if_neg (not_lt_of_entries (hlen ▸ h.rep.size) hlt), wp_pure]
      refine ⟨rfl, rfl, ?_, nofun⟩
      intro _ j hj hlt'
      rw [hlen] at hlt'
      omega
    have hnext : direntSize * k + direntSize = direntSize * (k + 1) := (Nat.mul_succ _ _).symm
    have hin : direntSize * k < (f i).size := Nat.lt_of_lt_of_le (by norm_num) (lt_entries.mp hlt)
    rw [if_pos hin, wp_bind]
    apply wp_mono (wp_readDirent h hlt)
    rintro _ d' ⟨rfl, rfl⟩
    dsimp only
    rw [hnext]
    -- what is true of the rest is true from here on, if this entry does not count
    have hskip : (inumAt (contents d' (f i)) k ≠ 0 → nameAt (contents d' (f i)) k ≠ nameOf name) →
        wp F (lookupLoop sb devsw name fuel (f i) (direntSize * (k + 1))) (fun r d'' => d'' = d' ∧
          r.2 = f i ∧ Lookup (contents d' (f i)) (nameOf name) k r.1) d' := by
      intro hthis
      apply wp_mono (ih (by omega))
      rintro r d'' ⟨hd, hdp, hlook⟩
      exact ⟨hd, hdp, hlook.skip hthis⟩
    by_cases h0 : deInum (entry (contents d' (f i)) k) = 0
    · rw [if_pos h0]
      exact hskip fun h1 => absurd h0 h1
    · rw [if_neg h0]
      by_cases hname : namecmp name (deName (entry (contents d' (f i)) k)) = 0
      · rw [if_pos hname, wp_pure]
        refine ⟨rfl, rfl, nofun, ?_⟩
        rintro v off ⟨⟩
        exact ⟨k, hlen ▸ hlt, rfl, rfl, h0, (namecmp_eq_zero.mp hname).symm⟩
      · rw [if_neg hname]
        exact hskip fun _ heq => hname (namecmp_eq_zero.mpr heq.symm)

/-- A lookup from the first entry on is one in the map. -/
theorem Lookup.map {name : List UInt8} {res : Option (ℕ × ℕ)} (h : Lookup C name 0 res)
    (hrep : Represents C m) : res.map Prod.fst = m name := by
  cases hres : res with
  | none =>
    cases hm : m name with
    | none => rfl
    | some v =>
      obtain ⟨hv, j, hj, hinum, hname⟩ := hrep.found _ _ hm
      exact absurd hname (h.absent hres j (Nat.zero_le j) hj (hinum ▸ hv))
  | some p =>
    obtain ⟨v, off⟩ := p
    obtain ⟨j, hj, -, hinum, hv, hname⟩ := h.present v off hres
    have hlive := hrep.live j hj (hinum ▸ hv)
    rw [hname, hinum] at hlive
    rw [hlive]
    rfl

/-- `dirlookup` looks the name up in the map. -/
theorem IsMap.wp_dirlookup (h : IsMap sb d f i m) :
    wp F (dirlookup sb devsw (f i) name) (fun r d' => d' = d ∧ r.2 = f i ∧
      r.1.map Prod.fst = m (nameOf name) ∧ Lookup (contents d (f i)) (nameOf name) 0 r.1) d := by
  rw [dirlookup, if_neg (not_not.mpr h.type)]
  have hloop : wp F (lookupLoop sb devsw name ((f i).size / direntSize + 1) (f i) (direntSize * 0))
      _ d :=
    wp_lookupLoop h (by omega)
  apply wp_mono hloop
  rintro r d' ⟨hd, hdp, hlook⟩
  exact ⟨hd, hdp, hlook.map h.rep, hlook⟩

/-- The loop of `dirlink` comes to an empty entry, or to the end. -/
theorem wp_emptyLoop {fuel : ℕ} (h : IsMap sb d f i m) (hk : k ≤ (f i).size / direntSize)
    (hfuel : (f i).size / direntSize < k + fuel) :
    wp F (emptyLoop sb devsw fuel (f i) (direntSize * k)) (fun r d' => d' = d ∧ r.2 = f i ∧
      ∃ j ≤ (f i).size / direntSize, r.1 = direntSize * j ∧
        (j < (f i).size / direntSize → inumAt (contents d (f i)) j = 0)) d := by
  have hlen : (contents d (f i)).length = (f i).size := length_contents _ _
  induction fuel generalizing k with
  | zero => omega
  | succ fuel ih =>
    rw [emptyLoop]
    by_cases hlt : k < (f i).size / direntSize
    swap
    · rw [if_neg (not_lt_of_entries (hlen ▸ h.rep.size) hlt), wp_pure]
      exact ⟨rfl, rfl, k, hk, rfl, fun hlt' => absurd hlt' hlt⟩
    have hnext : direntSize * k + direntSize = direntSize * (k + 1) := (Nat.mul_succ _ _).symm
    have hin : direntSize * k < (f i).size := Nat.lt_of_lt_of_le (by norm_num) (lt_entries.mp hlt)
    rw [if_pos hin, wp_bind]
    apply wp_mono (wp_readDirent h hlt)
    rintro _ d' ⟨rfl, rfl⟩
    dsimp only
    by_cases h0 : deInum (entry (contents d' (f i)) k) = 0
    · rw [if_pos h0, wp_pure]
      exact ⟨rfl, rfl, k, hk, rfl, fun _ => h0⟩
    · rw [if_neg h0, hnext]
      exact ih hlt (by omega)

/-- Why an entry cannot be added: there is no block for it, or the directory is as long as it can
be. -/
def NoRoom (sb : Superblock) (d : Disk) (dp : Dinode) (msg e : String) : Prop :=
  e = "balloc: out of blocks" ∧ freeBlocks sb d < 2 ∨
    e = msg ∧ MAXFILE * BSIZE < dp.size + direntSize

/-- `writei` of an entry.  One that is there already needs no block. -/
theorem wp_writei_dirent (h : IsMap sb d f i m) (hde : de.length = direntSize)
    (hle : direntSize * k ≤ (f i).size) (hmax : direntSize * k + direntSize ≤ MAXFILE * BSIZE)
    (hfault : ¬ k < (f i).size / direntSize → ∀ e, NoRoom sb d (f i) msg e → F e) :
    wp F (writei sb devsw (f i) de (direntSize * k)) (Writes sb d f i (direntSize * k) de) d := by
  have hfree : (f i).type ≠ .free := by
    rw [h.type]
    decide
  replace hmax : direntSize * k + de.length ≤ MAXFILE * BSIZE := by rwa [hde]
  have hwrite : wp OutOfBlocks (writei sb devsw (f i) de (direntSize * k)) _ d :=
    wp_writei h.owned h.not_dev hfree hle hmax
  have hgrow : nblocks (direntSize * k + de.length) ≤ nblocks (f i).size + 1 := by
    rw [nblocks, nblocks, hde]
    lia
  -- the blocks that there are will do, or are too few
  by_cases hroom : nblocks (f i).size < nblocks (direntSize * k + de.length) → 2 ≤ freeBlocks sb d
  · have hno : wp F (writei sb devsw (f i) de (direntSize * k)) _ d :=
      wp_writei_room h.owned h.not_dev hle hmax fun hmore => by
        omega
    apply wp_mono (wp_and hno hwrite)
    intro r d' hw
    exact hw.2
  · obtain ⟨hmore, hfew⟩ := Classical.not_imp.mp hroom
    apply Wp.wp_faults hwrite
    intro e he
    refine hfault ?_ e (.inl ⟨he, not_le.mp hfew⟩)
    intro hk
    have hin : nblocks (direntSize * k + de.length) ≤ nblocks (f i).size := by
      have := lt_entries.mp hk
      rw [nblocks, nblocks, hde]
      apply Nat.div_le_div_right
      omega
    omega

/-- An entry is written. -/
theorem wp_writeDirent (h : IsMap sb d f i m) (hk : k ≤ (f i).size / direntSize)
    (hde : de.length = direntSize)
    (hfault : ¬ k < (f i).size / direntSize → ∀ e, NoRoom sb d (f i) msg e → F e) :
    wp F (writeDirent sb devsw msg (f i) de (direntSize * k)) (fun dp' d' => dp'.type = .dir ∧
      Owned sb d' (update f i dp') ∧
      contents d' dp' = overwrite (contents d (f i)) (direntSize * k) de) d := by
  have hle : direntSize * k ≤ (f i).size := le_entries.mp hk
  have hsize := h.owned.size_le i
  rw [writeDirent, wp_bind]
  by_cases hmax : direntSize * k + direntSize ≤ MAXFILE * BSIZE
  · apply wp_mono (wp_writei_dirent h hde hle hmax hfault)
    rintro ⟨ret, dp', iupdate⟩ d' hw
    have hret : ret = direntSize := by
      rw [← hde]
      exact hw.ret
    have hinode : dp' = { f i with
      addrs := dp'.addrs
      size := max (f i).size (direntSize * k + de.length) } := hw.inode
    dsimp only
    rw [if_neg (not_not.mpr hret), wp_pure]
    refine ⟨?_, hw.owned, hw.contents_self hle⟩
    rw [hinode]
    exact h.type
  · have hlen : de.length < 2 ^ 32 := by
      rw [hde]
      decide
    have hno : MAXFILE * BSIZE < direntSize * k + de.length := by omega
    apply wp_mono (wp_writei_refused hlen (.inr (.inr hno)))
    rintro ⟨ret, dp', iupdate⟩ d' ⟨-, -, hret⟩
    obtain rfl : ret = -1 := hret h.not_dev
    dsimp only
    rw [if_pos (by decide), wp_throw]
    refine hfault ?_ msg (.inr ⟨rfl, by omega⟩)
    intro hlt
    have := lt_entries.mp hlt
    omega

/-! ## Calls -/

/-- A call has made the directory the map `m`. -/
def Becomes (sb : Superblock) (f : ℕ → Dinode) (i : ℕ) (m : NameMap) (dp' : Dinode)
    (d' : Disk) : Prop :=
  IsMap sb d' (update f i dp') i m

theorem IsMap.becomes (h : IsMap sb d f i m) : Becomes sb f i m (f i) d := by
  rw [Becomes, Function.update_eq_self]
  exact h

theorem becomes_iff {dp' : Dinode} {d' : Disk} : Becomes sb f i m dp' d' ↔
    dp'.type = .dir ∧ Owned sb d' (update f i dp') ∧ Represents (contents d' dp') m := by
  rw [Becomes]
  refine ⟨fun h => ?_, fun h => ⟨h.2.1, ?_, ?_⟩⟩
  · have htype := h.type
    have hrep := h.rep
    rw [update_self] at htype hrep
    exact ⟨htype, h.owned, hrep⟩
  · rw [update_self]
    exact h.1
  · rw [update_self]
    exact h.2.2

/-- `dirlink` fails if the name is there, and changes nothing; otherwise it is there afterwards. -/
theorem IsMap.wp_dirlink {inum : ℕ} (h : IsMap sb d f i m) (hpos : 0 < inum) (hlt : inum < 2 ^ 16) :
    wp (fun e => m (nameOf name) = none ∧ NoRoom sb d (f i) "dirlink" e)
      (dirlink sb devsw (f i) name inum) (fun r d' =>
        (m (nameOf name) ≠ none → r = (-1, f i) ∧ d' = d) ∧ (m (nameOf name) = none → r.1 = 0) ∧
        Becomes sb f i (mapOp m (.link name inum)) r.2 d') d := by
  have hlen : (contents d (f i)).length = (f i).size := length_contents _ _
  rw [dirlink, wp_bind]
  apply wp_mono h.wp_dirlookup
  rintro ⟨found, _⟩ d₁ ⟨rfl, rfl, hmap, hlook⟩
  rw [mapOp]
  cases found with
  | some p =>
    have hthere : m (nameOf name) ≠ none := by
      rw [← hmap]
      exact Option.some_ne_none _
    rw [if_neg hthere, wp_pure]
    exact ⟨fun _ => ⟨rfl, rfl⟩, fun hnone => absurd hnone hthere, h.becomes⟩
  | none =>
    have hnone : m (nameOf name) = none := hmap.symm
    rw [if_pos hnone, wp_bind]
    refine wp_mono (wp_emptyLoop (k := 0) h (Nat.zero_le _) (by omega)) ?_
    rintro ⟨_, _⟩ d₂ ⟨rfl, rfl, k, hk, rfl, hempty⟩
    have hde : (direntBytes inum (strncpy DIRSIZ name)).length = direntSize := by
      rw [direntBytes, List.length_cons, List.length_cons, Names.length_strncpy]
    rw [wp_bind]
    apply wp_mono (wp_writeDirent h hk hde fun _ e he => ⟨hnone, he⟩)
    rintro dp' d' ⟨htype, howned, hcontents⟩
    rw [wp_pure]
    refine ⟨fun hthere => absurd hnone hthere, fun _ => rfl, becomes_iff.mpr ⟨htype, howned, ?_⟩⟩
    rw [hcontents]
    rw [← hlen] at hk hempty
    exact h.rep.link (le_entries.mp hk) hempty hnone hde hpos.ne' (deInum_direntBytes hlt _)
      (nameOf_direntBytes _ _)

/-- A name that is not there is not there without it, either. -/
theorem mapOp_unlink_absent {victim : Victim} (h : m (nameOf name) = none) :
    mapOp m (.unlink name victim) = m := by
  rw [mapOp]
  split_ifs
  · rfl
  · rw [← h, Function.update_eq_self]

/-- What `sys_unlink` does to the directory never fails. -/
theorem IsMap.wp_unlinkEnt {victim : Victim} (h : IsMap sb d f i m) :
    wp F (unlinkEnt sb devsw (f i) name victim) (fun r d' =>
      Becomes sb f i (mapOp m (.unlink name victim)) r.2 d') d := by
  have hlen : (contents d (f i)).length = (f i).size := length_contents _ _
  have hdot : nameOf dotBytes = [46] := by decide
  have hdotdot : nameOf dotdotBytes = [46, 46] := by decide
  have hcmp : (namecmp name dotBytes = 0 ∨ namecmp name dotdotBytes = 0) ↔
      (nameOf name = [46] ∨ nameOf name = [46, 46]) := by
    rw [namecmp_eq_zero, namecmp_eq_zero, hdot, hdotdot]
  rw [unlinkEnt]
  by_cases hdots : nameOf name = [46] ∨ nameOf name = [46, 46]
  · have hsame : mapOp m (.unlink name victim) = m := by
      rw [mapOp, if_pos (.inl hdots)]
    rw [if_pos (hcmp.mpr hdots), wp_pure, hsame]
    exact h.becomes
  rw [if_neg (hcmp.not.mpr hdots), wp_bind]
  apply wp_mono h.wp_dirlookup
  rintro ⟨found, _⟩ d₁ ⟨rfl, rfl, hmap, hlook⟩
  cases found with
  | none =>
    rw [wp_pure, mapOp_unlink_absent hmap.symm]
    exact h.becomes
  | some p =>
    obtain ⟨v, off⟩ := p
    obtain ⟨k, hk, rfl, rfl, hinum, hname⟩ := hlook.present v off rfl
    dsimp only
    by_cases hv : victim = .notEmpty
    · have hsame : mapOp m (.unlink name victim) = m := by
        rw [mapOp, if_pos (.inr hv)]
      rw [if_pos hv, wp_pure, hsame]
      exact h.becomes
    rw [if_neg hv, wp_bind]
    have hk' : k < (f i).size / direntSize := hlen ▸ hk
    apply wp_mono (wp_writeDirent h hk'.le List.length_replicate fun hno => absurd hk' hno)
    rintro dp' d' ⟨htype, howned, hcontents⟩
    have hrep := h.rep.unlink hk hinum
    have hop : mapOp m (.unlink name victim) = update m (nameAt (contents d₁ (f i)) k) none := by
      rw [mapOp, if_neg (not_or.mpr ⟨hdots, hv⟩), hname]
    rw [wp_pure, becomes_iff, hop]
    split_ifs
    · -- one link less, for the `..` of the directory that is gone
      have hrelink : Owned sb d' (update (update f i dp') i { dp' with nlink := dp'.nlink - 1 }) :=
        howned.relink (by rw [update_self]) (by rw [update_self]) (by rw [update_self]; exact id)
      rw [Function.update_idem] at hrelink
      exact ⟨htype, hrelink, hcontents ▸ hrep⟩
    · exact ⟨htype, howned, hcontents ▸ hrep⟩

/-- **A call does to the directory what it should do to the map.** -/
theorem IsMap.wp_dirCall {op : DirOp} (h : IsMap sb d f i m) (hop : op.Fits) :
    wp (fun _ => True) (dirCall sb devsw (f i) op)
    (fun r d' => Becomes sb f i (mapOp m op) r.2 d') d := by
  cases op with
  | link name inum =>
    apply Wp.wp_faults (wp_mono (h.wp_dirlink hop.1 hop.2) fun r d' hr => hr.2.2)
    exact fun _ _ => trivial
  | unlink name victim => exact h.wp_unlinkEnt

/-- Calls one after another, by induction on them -/
theorem IsMap.wp_runDir {ops : List DirOp} (h : IsMap sb d f i m) (hops : ∀ op ∈ ops, op.Fits) :
    wp (fun _ => True) (runDir sb devsw ops (f i))
      (fun dp' d' => Becomes sb f i (ops.foldl mapOp m) dp' d') d := by
  induction ops generalizing d f m with
  | nil => exact wp_pure.mpr h.becomes
  | cons op ops ih =>
    rw [runDir, wp_bind]
    apply wp_mono (h.wp_dirCall (hops op List.mem_cons_self))
    rintro ⟨ret, dp₁⟩ d₁ h₁
    have hrest := ih h₁ fun op' hop' => hops op' (List.mem_cons_of_mem op hop')
    rw [update_self] at hrest
    apply wp_mono hrest
    intro dp' d' hb
    rw [Becomes, Function.update_idem] at hb
    exact hb

/-- **Directories are finite maps.**  After any calls on an empty directory, no two entries have one
name, `dirlookup` finds what was linked last and not unlinked since, and where it is, and `dirlink`
fails if the name is there, and changes nothing; otherwise it stops only for want of a block, or if
the directory is as long as it can be. -/
theorem directory_map {ops : List DirOp} {dp : Dinode} {d' : Disk} (h : Owned sb d f)
    (hdir : (f i).type = .dir) (hempty : (f i).size = 0) (hops : ∀ op ∈ ops, op.Fits)
    (hrun : runDir sb devsw ops (f i) d = .ok (dp, d')) :
    direntSize ∣ dp.size ∧
    (∀ j < dp.size / direntSize, ∀ k < dp.size / direntSize,
      deInum (entry (contents d' dp) j) ≠ 0 → deInum (entry (contents d' dp) k) ≠ 0 →
      namecmp (deName (entry (contents d' dp) j)) (deName (entry (contents d' dp) k)) = 0 → j = k) ∧
    (∀ name, ∃ res, dirlookup sb devsw dp name d' = .ok ((res, dp), d') ∧
      res.map Prod.fst = ops.foldl mapOp (fun _ => none) (nameOf name) ∧
      ∀ v off, res = some (v, off) → ∃ k < dp.size / direntSize, off = direntSize * k ∧
        deInum (entry (contents d' dp) k) = v ∧
        namecmp name (deName (entry (contents d' dp) k)) = 0) ∧
    (∀ name inum, 0 < inum → inum < 2 ^ 16 →
      (ops.foldl mapOp (fun _ => none) (nameOf name) ≠ none →
        dirlink sb devsw dp name inum d' = .ok ((-1, dp), d')) ∧
      (ops.foldl mapOp (fun _ => none) (nameOf name) = none →
        (∃ r, dirlink sb devsw dp name inum d' = .ok r ∧ r.1.1 = 0) ∨
        ∃ e, dirlink sb devsw dp name inum d' = .error e ∧ NoRoom sb d' dp "dirlink" e)) ∧
    ∀ name victim, ∃ r, unlinkEnt sb devsw dp name victim d' = .ok r := by
  have hrep : Represents (contents d (f i)) fun _ => none := by
    rw [contents, hempty]
    exact Represents.nil
  have hinit : IsMap sb d f i fun _ => none := ⟨h, hdir, hrep⟩
  have hmap := Wp.wp_ok (hinit.wp_runDir hops) hrun
  rw [Becomes] at hmap
  generalize ops.foldl mapOp (fun _ => none) = m at hmap ⊢
  have hself : update f i dp i = dp := update_self i dp f
  have hlen : (contents d' dp).length = dp.size := length_contents _ _
  have hdp := hmap.rep
  rw [hself] at hdp
  refine ⟨hlen ▸ hdp.size, ?_, ?_, ?_, ?_⟩
  · intro j hj k hk hj0 hk0 hnames
    rw [← hlen] at hj hk
    exact hdp.distinct j hj k hk hj0 hk0 (namecmp_eq_zero.mp hnames)
  · intro name
    have hlookup : wp (fun _ => False) (dirlookup sb devsw (update f i dp i) name) _ d' :=
      hmap.wp_dirlookup
    rw [hself] at hlookup
    obtain ⟨⟨res, _⟩, _, hres, rfl, rfl, hm, hlook⟩ := Wp.exists_ok hlookup
    refine ⟨res, hres, hm, ?_⟩
    intro v off hv
    obtain ⟨k, hk, hoff, hinum, -, hname⟩ := hlook.present v off hv
    rw [hlen] at hk
    exact ⟨k, hk, hoff, hinum, namecmp_eq_zero.mpr hname.symm⟩
  · intro name inum hpos hlt
    have hlink : wp _ (dirlink sb devsw (update f i dp i) name inum) _ d' :=
      hmap.wp_dirlink hpos hlt
    rw [hself] at hlink
    cases hres : dirlink sb devsw dp name inum d' with
    | error e =>
      obtain ⟨hnone, hroom⟩ := Wp.wp_error hlink hres
      exact ⟨fun hthere => absurd hnone hthere, fun _ => .inr ⟨e, rfl, hroom⟩⟩
    | ok r =>
      obtain ⟨hthere, hnone, -⟩ := Wp.wp_ok hlink hres
      refine ⟨?_, fun h0 => .inl ⟨r, rfl, hnone h0⟩⟩
      intro h0
      obtain ⟨hr, hd⟩ := hthere h0
      rw [← hr, ← hd]
  · intro name victim
    have hunlink : wp (fun _ => False) (unlinkEnt sb devsw (update f i dp i) name victim) _ d' :=
      hmap.wp_unlinkEnt
    rw [hself] at hunlink
    obtain ⟨r, d'', hres, -⟩ := Wp.exists_ok hunlink
    exact ⟨(r, d''), hres⟩

/-- Two names are linked, and the first is unlinked. -/
theorem directory_map_two : ∃ dp d', runDir tinySb (fun _ => none)
      [.link (fun j => [97].getD j 0) 2, .link (fun j => [98].getD j 0) 3,
        .unlink (fun j => [97].getD j 0) .other] ⟨.dir, 0, 0, 0, fun _ => 0⟩ tinyDisk =
          .ok (dp, d') ∧
    ∃ res, dirlookup tinySb (fun _ => none) dp (fun j => [98].getD j 0) d' = .ok ((res, dp), d') ∧
      res.map Prod.fst = some 3 := by
  let f : ℕ → Dinode := update tinyDinode 1 ⟨.dir, 0, 0, 0, fun _ => 0⟩
  have howned : Owned tinySb tinyDisk f := tiny_owned.alloc rfl .dir
  have hok : ((runDir tinySb (fun _ => none) [.link (fun j => [97].getD j 0) 2,
      .link (fun j => [98].getD j 0) 3, .unlink (fun j => [97].getD j 0) .other]
      ⟨.dir, 0, 0, 0, fun _ => 0⟩ tinyDisk).toOption.isSome) = true := by decide +kernel
  cases hrun : runDir tinySb (fun _ => none) [.link (fun j => [97].getD j 0) 2,
      .link (fun j => [98].getD j 0) 3, .unlink (fun j => [97].getD j 0) .other]
      ⟨.dir, 0, 0, 0, fun _ => 0⟩ tinyDisk with
  | error e =>
    rw [hrun] at hok
    cases hok
  | ok r =>
    obtain ⟨dp, d'⟩ := r
    have hfits : ∀ op ∈ [DirOp.link (fun j => [97].getD j 0) 2, .link (fun j => [98].getD j 0) 3,
        .unlink (fun j => [97].getD j 0) .other], op.Fits := by
      simp [DirOp.Fits]
    obtain ⟨-, -, hlookup, -⟩ := directory_map (i := 1) (f := f) howned rfl rfl hfits hrun
    obtain ⟨res, hres, hmap, -⟩ := hlookup fun j => [98].getD j 0
    exact ⟨dp, d', rfl, res, hres, hmap.trans (by decide +kernel)⟩

end Programs

end Blocks

end Xv6Mlfq
