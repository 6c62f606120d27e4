import Xv6Mlfq.Lib.RedoLog
import Mathlib.Data.BitVec

/-!
# The disk, and the header of the log

A block is 512 bytes, here 128 words.  `mkfs` lays the disk out: the log is the 30 blocks from
block 2 on, of which the first is the header.  The header is `struct logheader`, a count and that
many block numbers.

## Main results

* `readHead_writeHead` — reading the header gives the list that was written.
-/

namespace Xv6Mlfq

/-- max # of blocks any FS op writes -/
abbrev MAXOPBLOCKS : ℕ := 10

/-- max data blocks in on-disk log -/
abbrev LOGSIZE : ℕ := MAXOPBLOCKS * 3

/-- size of disk block cache -/
abbrev NBUF : ℕ := MAXOPBLOCKS * 3

/-- size of file system in blocks -/
abbrev FSSIZE : ℕ := 1000

/-- `sb.logstart`, from `mkfs` -/
abbrev logstart : ℕ := 2

/-- `sb.nlog`, from `mkfs` -/
abbrev nlog : ℕ := LOGSIZE

/-- A block of `BSIZE` bytes, as 32-bit words. -/
abbrev Block := Fin 128 → BitVec 32

abbrev Disk := ℕ → Block

/-- A block of the file system that is not part of the log. -/
def Home (b : ℕ) : Prop := b < FSSIZE ∧ (b < logstart ∨ logstart + nlog ≤ b)

instance (b : ℕ) : Decidable (Home b) := inferInstanceAs (Decidable (_ ∧ _))

/-- The block of the log for the `i`-th entry of the header. -/
def logBlock (i : ℕ) : ℕ := logstart + i + 1

/-- The layout of the log: one block is the header, so there is room for `nlog - 1` others. -/
def logLayout : RedoLog.Layout ℕ where
  slot := logBlock
  home := {b | Home b}
  cap := nlog - 1
  apart i hi := by
    rintro ⟨-, h⟩
    simp only [logBlock, nlog, LOGSIZE, MAXOPBLOCKS, logstart] at hi h
    omega
  inj i j _ _ h := by
    simp only [logBlock] at h
    omega

theorem not_home_logstart : ¬ Home logstart := by decide

theorem logBlock_ne_logstart (i : ℕ) : logBlock i ≠ logstart := by
  simp only [logBlock, logstart]
  omega

/-! ## The header -/

/-- `read_head`: the list of block numbers, unless it would overrun `log.lh.block`. -/
def readHead (hb : Block) : Option (List ℕ) :=
  let n := (hb 0).toInt.toNat
  if n ≤ LOGSIZE then some ((List.range n).map fun i => (hb (Fin.ofNat 128 (i + 1))).toNat)
  else none

/-- The block that `write_head` writes: the count and the first words of the list, over what the
block held before. -/
def writeHead (lh : List ℕ) (hb : Block) : Block := fun j =>
  if j = 0 then BitVec.ofNat 32 lh.length
  else
    match lh[j.val - 1]? with
    | some b => BitVec.ofNat 32 b
    | none => hb j

/-- **What `read_head` reads is what `write_head` wrote.** -/
theorem readHead_writeHead {lh : List ℕ} (hb : Block) (hn : lh.length ≤ LOGSIZE)
    (hlt : ∀ b ∈ lh, b < FSSIZE) : readHead (writeHead lh hb) = some lh := by
  have hcount : (writeHead lh hb 0).toInt.toNat = lh.length := by
    simp only [LOGSIZE, MAXOPBLOCKS] at hn
    have hword : (BitVec.ofNat 32 lh.length).toNat = lh.length := by
      rw [BitVec.toNat_ofNat]
      omega
    simp only [writeHead, if_pos]
    rw [BitVec.toInt_eq_toNat_of_lt (by omega), hword, Int.toNat_natCast]
  simp only [readHead, hcount, if_pos hn]
  congr 1
  refine List.ext_getElem (by simp) fun i hi hi' => ?_
  have hi30 : i + 1 < 128 := by
    simp only [LOGSIZE, MAXOPBLOCKS] at hn
    omega
  have hb' := hlt _ (List.getElem_mem hi')
  have hne : Fin.ofNat 128 (i + 1) ≠ 0 := by
    intro h
    have := congrArg Fin.val h
    simp [Nat.mod_eq_of_lt hi30] at this
  have hval : (Fin.ofNat 128 (i + 1)).val - 1 = i := by simp [Nat.mod_eq_of_lt hi30]
  simp only [List.getElem_map, List.getElem_range, writeHead, if_neg hne, hval,
    List.getElem?_eq_getElem hi', BitVec.toNat_ofNat]
  simp only [FSSIZE] at hb'
  omega

end Xv6Mlfq
