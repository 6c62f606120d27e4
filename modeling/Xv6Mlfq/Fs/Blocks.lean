import Xv6Mlfq.Lib.Transition
import Xv6Mlfq.Lib.Wp
import Mathlib.Data.Int.Notation
import Mathlib.Logic.Function.Basic
import Mathlib.Algebra.Group.Nat.Defs

/-!
# Blocks and the contents of inodes

The lower half of `fs.c`: `balloc` and `bfree` on the free bitmap, `bmap` and `itrunc` on the
addresses of an inode, `readi` and `writei` on its contents.  The buffer cache and the log are left
out: a block is what `bread` returns, and the bitmap is the bits in its blocks.

An inode is on the disk (`dinode`) and, while it is in use, in the inode cache as well (`mem`).  The
functions work on the copy in memory; `iupdate` writes it to the disk.

Numbers that are `uint`s in the source are below `2 ^ 32`.

## Main definitions

* `Disk` — the free bitmap and the blocks.
* `balloc`, `bfree`, `bmap`, `itrunc`, `readi`, `writei` — programs on a disk.
* `inodeStep` — one of these functions, as the system calls use them.
-/

namespace Xv6Mlfq

/-- `type` of an inode, 0 if it is free -/
inductive FileType
  | free | dir | file | dev
  deriving DecidableEq, Repr

namespace Blocks

open Function (update)
open Wp (look)

/-- block size -/
abbrev BSIZE : ℕ := 512

abbrev NDIRECT : ℕ := 12

abbrev NINDIRECT : ℕ := BSIZE / 4

abbrev MAXFILE : ℕ := NDIRECT + NINDIRECT

/-- Bitmap bits per block -/
abbrev BPB : ℕ := BSIZE * 8

abbrev NDEV : ℕ := 10

/-! ## Bytes -/

/-- The bytes of a block, of which there are `BSIZE`. -/
abbrev Bytes := ℕ → UInt8

/-- `((uint*)data)[k]` -/
def Bytes.word (b : Bytes) (k : ℕ) : ℕ :=
  (b (4 * k)).toNat + 2 ^ 8 * (b (4 * k + 1)).toNat + 2 ^ 16 * (b (4 * k + 2)).toNat +
    2 ^ 24 * (b (4 * k + 3)).toNat

/-- `((uint*)data)[k] = v` -/
def Bytes.setWord (b : Bytes) (k v : ℕ) : Bytes := fun j =>
  if j / 4 = k then (v / 2 ^ (8 * (j % 4))).toUInt8 else b j

/-- `memmove(data + o, src, n)`, for the `n` bytes of `src` -/
def Bytes.move (b : Bytes) (o : ℕ) (src : List UInt8) : Bytes := fun j =>
  if o ≤ j ∧ j < o + src.length then src.getD (j - o) 0 else b j

/-- `n` bytes from `data + o` on -/
def Bytes.slice (b : Bytes) (o n : ℕ) : List UInt8 := (List.range n).map fun j => b (o + j)

/-! ## The disk -/

/-- `struct superblock` -/
structure Superblock where
  size : ℕ
  ninodes : ℕ
  bmapstart : ℕ
  size_lt : size < 2 ^ 32

/-- The blocks before the data: those up to the bitmap, and the bitmap. -/
def Superblock.nmeta (sb : Superblock) : ℕ := sb.bmapstart + (sb.size / BPB + 1)

structure Disk where
  /-- The bit of a block in the free bitmap -/
  used : ℕ → Bool
  block : ℕ → Bytes

/-- `struct dinode`; there are `NDIRECT + 1` addresses. -/
structure Dinode where
  type : FileType
  major : ℤ
  nlink : ℤ
  size : ℕ
  addrs : ℕ → ℕ

def Dinode.setAddr (ip : Dinode) (k addr : ℕ) : Dinode :=
  { ip with addrs := update ip.addrs k addr }

/-- An entry of `devsw`: what the device returns.  Devices have nothing to do with the disk. -/
structure Device where
  read : ℕ → Option (List UInt8)
  write : List UInt8 → ℤ

abbrev Devsw := ℕ → Option Device

abbrev DiskM (α : Type) := Wp.Prog Disk String α

section Functions

variable (sb : Superblock) (devsw : Devsw)

/-- `balloc`: the first block that is free, zeroed -/
def balloc : DiskM ℕ := fun d =>
  match (List.range sb.size).find? fun b => d.used b = false with
  | some b => .ok (b, ⟨update d.used b true, update d.block b fun _ => 0⟩)
  | none => .error "balloc: out of blocks"

def bfree (b : ℕ) : DiskM Unit := fun d =>
  if d.used b = false then .error "freeing free block"
  else .ok ((), { d with used := update d.used b false })

/-! ## Addresses -/

/-- `if((addr = ip->addrs[k]) == 0) ip->addrs[k] = addr = balloc(ip->dev)` -/
def slot (ip : Dinode) (k : ℕ) : DiskM (ℕ × Dinode) :=
  if ip.addrs k = 0 then do
    let addr ← balloc sb
    pure (addr, ip.setAddr k addr)
  else pure (ip.addrs k, ip)

/-- `if((addr = a[j]) == 0) a[j] = addr = balloc(ip->dev)`, where `a` is the block `ind` -/
def word (ind j : ℕ) : DiskM ℕ := do
  let addr ← look fun d => (d.block ind).word j
  if addr = 0 then do
    let addr ← balloc sb
    modify fun d => { d with block := update d.block ind ((d.block ind).setWord j addr) }
    pure addr
  else pure addr

/-- `bmap`: the address of block `bn`, and the inode with what has been allocated -/
def bmap (ip : Dinode) (bn : ℕ) : DiskM (ℕ × Dinode) :=
  if bn < NDIRECT then slot sb ip bn
  else if bn - NDIRECT < NINDIRECT then do
    let (ind, ip) ← slot sb ip NDIRECT
    let addr ← word sb ind (bn - NDIRECT)
    pure (addr, ip)
  else throw "bmap: out of range"

/-- The first loop of `itrunc`, over the slots `ks` -/
def truncSlots : List ℕ → Dinode → DiskM Dinode
  | [], ip => pure ip
  | k :: ks, ip =>
    if ip.addrs k ≠ 0 then do
      bfree (ip.addrs k)
      truncSlots ks (ip.setAddr k 0)
    else truncSlots ks ip

/-- The second loop of `itrunc`, over the words `js` of the indirect block `ind` -/
def truncWords (ind : ℕ) : List ℕ → DiskM Unit
  | [] => pure ()
  | j :: js => do
      let addr ← look fun d => (d.block ind).word j
      if addr ≠ 0 then do
        bfree addr
        truncWords ind js
      else truncWords ind js

/-- The part of `itrunc` for the indirect block -/
def truncIndirect (ip : Dinode) : DiskM Dinode :=
  if ip.addrs NDIRECT ≠ 0 then do
    truncWords (ip.addrs NDIRECT) (List.range NINDIRECT)
    bfree (ip.addrs NDIRECT)
    pure (ip.setAddr NDIRECT 0)
  else pure ip

def itrunc (ip : Dinode) : DiskM Dinode := do
  let ip ← truncSlots (List.range NDIRECT) ip
  let ip ← truncIndirect ip
  pure { ip with size := 0 }

/-! ## Contents -/

/-- The loop of `readi`; `n` bytes are to be read, in at most `fuel` rounds. -/
def readLoop : ℕ → Dinode → ℕ → ℕ → DiskM (List UInt8 × Dinode)
  | 0, ip, _, _ => pure ([], ip)
  | fuel + 1, ip, off, n =>
    if 0 < n then do
      let (addr, ip) ← bmap sb ip (off / BSIZE)
      let m := min n (BSIZE - off % BSIZE)
      let bs ← look fun d => (d.block addr).slice (off % BSIZE) m
      let (rest, ip) ← readLoop fuel ip (off + m) (n - m)
      pure (bs ++ rest, ip)
    else pure ([], ip)

/-- `readi`: the bytes, or `none` for -1.  Each round reads at least one byte. -/
def readi (ip : Dinode) (off n : ℕ) : DiskM (Option (List UInt8) × Dinode) :=
  if ip.type = .dev then
    if ip.major < 0 ∨ NDEV ≤ ip.major then pure (none, ip)
    else pure ((devsw ip.major.toNat).bind fun v => v.read n, ip)
  else if off > ip.size ∨ (off + n) % 2 ^ 32 < off then pure (none, ip)
  else do
    let n' := if off + n > ip.size then ip.size - off else n
    let (bs, ip) ← readLoop sb n' ip off n'
    pure (some bs, ip)

/-- The loop of `writei`, in at most `fuel` rounds -/
def writeLoop : ℕ → Dinode → ℕ → List UInt8 → DiskM Dinode
  | 0, ip, _, _ => pure ip
  | fuel + 1, ip, off, src =>
    if 0 < src.length then do
      let (addr, ip) ← bmap sb ip (off / BSIZE)
      let m := min src.length (BSIZE - off % BSIZE)
      modify fun d =>
        { d with block := update d.block addr ((d.block addr).move (off % BSIZE) (src.take m)) }
      writeLoop fuel ip (off + m) (src.drop m)
    else pure ip

/-- `writei`: what it returns, the inode in memory, and whether that has been written to the disk
by `iupdate` -/
def writei (ip : Dinode) (src : List UInt8) (off : ℕ) : DiskM (ℤ × Dinode × Bool) :=
  if ip.type = .dev then
    if ip.major < 0 ∨ NDEV ≤ ip.major then pure (-1, ip, false)
    else pure (((devsw ip.major.toNat).map fun v => v.write src).getD (-1), ip, false)
  else if off > ip.size ∨ (off + src.length) % 2 ^ 32 < off then pure (-1, ip, false)
  else if (off + src.length) % 2 ^ 32 > MAXFILE * BSIZE then pure (-1, ip, false)
  else do
    let ip ← writeLoop sb src.length ip off src
    if 0 < src.length ∧ off + src.length > ip.size then
      pure (src.length, { ip with size := off + src.length }, true)
    else pure (src.length, ip, false)

end Functions

/-! ## Inodes on the disk and in memory -/

structure Inodes where
  disk : Disk
  dinode : ℕ → Dinode
  /-- The entry of `icache` for an inode, if there is one and it is valid -/
  mem : ℕ → Option Dinode
  panicked : Option String

/-- What the system calls do with inodes.  `open`, `mkdir` and `mknod` of a new name are `ialloc`,
`ilock`, `relink` and `writei` of directory entries; `link` and `unlink` are `relink` and `writei`;
the last `close` or `unlink` is `free`.  An entry of `icache` without references may be recycled at
any time. -/
inductive InodeOp
  | ialloc (type : FileType)
  | ilock (i : ℕ)
  | relink (i : ℕ) (major nlink : ℤ)
  | writei (i : ℕ) (src : List UInt8) (off : ℕ)
  | readi (i off n : ℕ)
  | free (i : ℕ)
  | recycle (i : ℕ)

def Inodes.panic (s : Inodes) (msg : String) : Inodes := { s with panicked := some msg }

/-- A program on the disk; `k` is what becomes of the inodes. -/
def Inodes.run {α : Type} (s : Inodes) (m : DiskM α) (k : α → Inodes → Inodes) : Inodes :=
  match m s.disk with
  | .ok (a, d) => k a { s with disk := d }
  | .error msg => s.panic msg

/-- `ialloc`: the first free inode, from 1 on -/
def ialloc (sb : Superblock) (s : Inodes) (type : FileType) : Inodes :=
  match (List.range sb.ninodes).find? fun i => 1 ≤ i ∧ (s.dinode i).type = .free with
  | some i => { s with dinode := update s.dinode i ⟨type, 0, 0, 0, fun _ => 0⟩ }
  | none => s.panic "ialloc: no inodes"

/-- The part of `ilock` that reads the inode from the disk if necessary -/
def iload (s : Inodes) (i : ℕ) : Inodes :=
  match s.mem i with
  | some _ => s
  | none =>
    if (s.dinode i).type = .free then s.panic "ilock: no type"
    else { s with mem := update s.mem i (some (s.dinode i)) }

/-- The copy in memory of inode `i`; what `iupdate` was called with is on the disk, too. -/
def Inodes.store (s : Inodes) (i : ℕ) (ip : Dinode) (iupdate : Bool) : Inodes :=
  { s with
    mem := update s.mem i (some ip)
    dinode := if iupdate then update s.dinode i ip else s.dinode }

def inodeCall (sb : Superblock) (devsw : Devsw) (s : Inodes) : InodeOp → Option Inodes
  | .ialloc type => some (ialloc sb s type)
  | .ilock i => some (iload s i)
  | .relink i major nlink =>
    (s.mem i).map fun ip => s.store i { ip with major := major, nlink := nlink } true
  | .writei i src off =>
    (s.mem i).map fun ip => s.run (writei sb devsw ip src off) fun r s => s.store i r.2.1 r.2.2
  | .readi i off n =>
    (s.mem i).map fun ip => s.run (readi sb devsw ip off n) fun r s => s.store i r.2 false
  | .free i =>
    (s.mem i).map fun ip => s.run (itrunc ip) fun ip s =>
      { s with
        dinode := update s.dinode i { ip with type := .free }
        mem := update s.mem i none }
  | .recycle i => some { s with mem := update s.mem i none }

/-- The offset and the number of bytes are `uint`s. -/
def InodeOp.Fits : InodeOp → Prop
  | .writei _ src off => off < 2 ^ 32 ∧ src.length < 2 ^ 32
  | .readi _ off n => off < 2 ^ 32 ∧ n < 2 ^ 32
  | _ => True

instance : DecidablePred InodeOp.Fits
  | .writei _ _ _ => inferInstanceAs (Decidable (_ ∧ _))
  | .readi _ _ _ => inferInstanceAs (Decidable (_ ∧ _))
  | .ialloc _ | .ilock _ | .relink _ _ _ | .free _ | .recycle _ => isTrue trivial

/-- One function; a panic stops the machine. -/
def inodeStep (sb : Superblock) (devsw : Devsw) (op : InodeOp) (s : Inodes) : Option Inodes :=
  if s.panicked = none ∧ op.Fits then inodeCall sb devsw s op else none

end Blocks

end Xv6Mlfq
