import Xv6Mlfq.Fs.Dirents
import Xv6Mlfq.Log.Disk
import Xv6Mlfq.Proc.Types

/-!
# `mkfs`

The program that builds the initial file system (`mkfs.c`), on the sectors of the image it writes,
and how the kernel reads that image.

A `struct dinode` of `mkfs` is the bytes that it copies to and from the image: four `short`s, the
size, and `NDIRECT + 1` addresses.  The host's own file operations succeed, but for reads after the
end of the image and files that cannot be opened; `exit(1)` and a failed `assert` are errors.

## Main definitions

* `iappend` — append bytes to an inode.
* `mkfs` — the program.
* `kernel` — the image, as the kernel sees it.
-/

namespace Xv6Mlfq

/-- The number that stands for a type on the disk -/
def FileType.code : FileType → ℕ
  | .free => 0
  | .dir => 1
  | .file => 2
  | .dev => 3

/-- The kernel asks only if a type is 0, `T_DIR` or `T_DEV`. -/
def FileType.ofCode : ℕ → FileType
  | 0 => .free
  | 1 => .dir
  | 3 => .dev
  | _ => .file

namespace Blocks

/-- `((ushort*)data)[k]` -/
def Bytes.half (b : Bytes) (k : ℕ) : ℕ := (b (2 * k)).toNat + 2 ^ 8 * (b (2 * k + 1)).toNat

/-- `((ushort*)data)[k] = v` -/
def Bytes.setHalf (b : Bytes) (k v : ℕ) : Bytes := fun j =>
  if j / 2 = k then (v / 2 ^ (8 * (j % 2))).toUInt8 else b j

/-- `data[k / 8] & (1 << (k % 8))` -/
def Bytes.bit (b : Bytes) (k : ℕ) : Bool := (b (k / 8)).toNat.testBit (k % 8)

/-- `sizeof(struct dinode)` -/
abbrev DINODE : ℕ := 64

/-- Inodes per block. -/
abbrev IPB : ℕ := BSIZE / DINODE

/-- `((struct dinode*)data)[k]` -/
def Bytes.record (b : Bytes) (k : ℕ) : Bytes := fun j => b (DINODE * k + j)

/-- `((struct dinode*)data)[k] = r` -/
def Bytes.setRecord (b : Bytes) (k : ℕ) (r : Bytes) : Bytes := fun j =>
  if j / DINODE = k then r (j % DINODE) else b j

/-- A `short` -/
def toShort (v : ℕ) : ℤ := if v < 2 ^ 15 then v else v - 2 ^ 16

end Blocks

namespace Mkfs

open Function (update)
open Wp (look)
open Blocks hiding balloc

abbrev NINODES : ℕ := 200

abbrev nbitmap : ℕ := FSSIZE / (BSIZE * 8) + 1

abbrev ninodeblocks : ℕ := NINODES / IPB + 1

/-- Number of meta blocks (boot, sb, nlog, inode, bitmap) -/
abbrev nmeta : ℕ := 2 + nlog + ninodeblocks + nbitmap

abbrev inodestart : ℕ := 2 + nlog

abbrev bmapstart : ℕ := 2 + nlog + ninodeblocks

/-- Block containing inode `i` -/
def IBLOCK (i : ℕ) : ℕ := i / IPB + inodestart

/-- The super block, as the kernel knows it -/
def sb : Superblock := ⟨FSSIZE, NINODES, bmapstart, by norm_num⟩

/-! ## The program -/

/-- The image and the variables of `mkfs`. -/
structure State where
  /-- The sectors of the image -/
  block : ℕ → Bytes
  /-- The length of the image, in sectors -/
  nsect : ℕ
  freeinode : ℕ
  freeblock : ℕ

abbrev MkfsM (α : Type) := Wp.Prog State String α

def zeroes : Bytes := fun _ => 0

/-- The offset `sec * BSIZE` is a `uint`. -/
def sector (sec : ℕ) : ℕ := sec * BSIZE % 2 ^ 32 / BSIZE

def wsect (sec : ℕ) (buf : Bytes) : MkfsM Unit :=
  modify fun s => { s with
    block := update s.block (sector sec) buf
    nsect := max s.nsect (sector sec + 1) }

/-- `rsect`: a sector after the end of the image cannot be read. -/
def rsect (sec : ℕ) : MkfsM Bytes := do
  let nsect ← look (·.nsect)
  if sector sec < nsect then look (·.block (sector sec)) else throw "read"

def winode (inum : ℕ) (ip : Bytes) : MkfsM Unit := do
  let buf ← rsect (IBLOCK inum)
  wsect (IBLOCK inum) (buf.setRecord (inum % IPB) ip)

def rinode (inum : ℕ) : MkfsM Bytes := do
  let buf ← rsect (IBLOCK inum)
  pure (buf.record (inum % IPB))

/-- `din.size` -/
def size (din : Bytes) : ℕ := din.word 2

def setSize (din : Bytes) (n : ℕ) : Bytes := din.setWord 2 n

/-- `din.addrs[k]` -/
def addr (din : Bytes) (k : ℕ) : ℕ := din.word (3 + k)

def setAddr (din : Bytes) (k a : ℕ) : Bytes := din.setWord (3 + k) a

/-- The inode that `ialloc` writes -/
def newInode (type : FileType) : Bytes := setSize ((zeroes.setHalf 0 type.code).setHalf 3 1) 0

def ialloc (type : FileType) : MkfsM ℕ := do
  let inum ← look (·.freeinode)
  modify fun s => { s with freeinode := s.freeinode + 1 }
  winode inum (newInode type)
  pure inum

/-- `freeblock++` -/
def takeBlock : MkfsM ℕ := do
  let b ← look (·.freeblock)
  modify fun s => { s with freeblock := s.freeblock + 1 }
  pure b

/-- `if(xint(din.addrs[k]) == 0) din.addrs[k] = xint(freeblock++)` -/
def slot (din : Bytes) (k : ℕ) : MkfsM Bytes :=
  if addr din k = 0 then do
    let b ← takeBlock
    pure (setAddr din k b)
  else pure din

/-- The part of `iappend` that reads the indirect block: the address `indirect[j]`, which may be
new -/
def word (ind j : ℕ) : MkfsM ℕ := do
  let indirect ← rsect ind
  if indirect.word j = 0 then do
    let b ← takeBlock
    wsect ind (indirect.setWord j b)
    pure b
  else pure (indirect.word j)

/-- The first part of the loop in `iappend`: the block `x` for position `fbn` -/
def locate (din : Bytes) (fbn : ℕ) : MkfsM (ℕ × Bytes) :=
  if fbn < NDIRECT then do
    let din ← slot din fbn
    pure (addr din fbn, din)
  else do
    let din ← slot din NDIRECT
    let x ← word (addr din NDIRECT) (fbn - NDIRECT)
    pure (x, din)

/-- The second part of it: the bytes `p` are copied into block `x`. -/
def store (x off : ℕ) (p : List UInt8) : MkfsM Unit := do
  let buf ← rsect x
  wsect x (buf.move (off - off / BSIZE * BSIZE) p)

/-- The loop of `iappend`, in at most `fuel` rounds -/
def appendLoop : ℕ → Bytes → ℕ → List UInt8 → MkfsM (Bytes × ℕ)
  | 0, din, off, _ => pure (din, off)
  | fuel + 1, din, off, p =>
    if 0 < p.length then
      if off / BSIZE < MAXFILE then do
        let (x, din) ← locate din (off / BSIZE)
        let n1 := min p.length ((off / BSIZE + 1) * BSIZE - off)
        store x off (p.take n1)
        appendLoop fuel din (off + n1) (p.drop n1)
      else throw "fbn < MAXFILE"
    else pure (din, off)

/-- `iappend`; each round of the loop appends at least one byte. -/
def iappend (inum : ℕ) (p : List UInt8) : MkfsM Unit := do
  let din ← rinode inum
  let (din, off) ← appendLoop p.length din (size din) p
  winode inum (setSize din off)

/-- The bytes of `balloc`'s buffer: `used` bits are set. -/
def bitmap (used : ℕ) : Bytes :=
  (List.range used).foldl
    (fun buf i => update buf (i / 8) (buf (i / 8) ||| (1 <<< (i % 8)).toUInt8)) zeroes

def balloc (used : ℕ) : MkfsM Unit :=
  if used < BSIZE * 8 then wsect bmapstart (bitmap used) else throw "used < BSIZE*8"

/-- `struct dirent`: `strncpy` copies at most `DIRSIZ` bytes, and fills up with zeros. -/
def dirent (inum : ℕ) (name : List UInt8) : List UInt8 :=
  direntBytes inum ((name.take DIRSIZ).rightpad DIRSIZ 0)

/-- What `read(fd, buf, sizeof(buf))` returns, but for the end of the file -/
abbrev Chunk := { p : List UInt8 // 0 < p.length ∧ p.length ≤ BSIZE }

/-- An argument of `mkfs`: a string, and what is read from the file, if it can be opened. -/
structure Arg where
  name : List UInt8
  ne_nul : ∀ c ∈ name, c ≠ 0
  file : Option (List Chunk)

/-- The name in the file system: a leading underscore is skipped. -/
def Arg.entry (arg : Arg) : List UInt8 :=
  if arg.name.head? = some 95 then arg.name.tail else arg.name

def appendChunks (inum : ℕ) : List Chunk → MkfsM Unit
  | [] => pure ()
  | p :: ps => do
      iappend inum p.1
      appendChunks inum ps

/-- One round of the loop over the arguments; 47 is a slash. -/
def addFile (rootino : ℕ) (arg : Arg) : MkfsM Unit :=
  if 47 ∈ arg.name then throw "index(argv[i], '/') == 0"
  else match arg.file with
    | none => throw "open"
    | some chunks => do
        let inum ← ialloc .file
        iappend rootino (dirent inum arg.entry)
        appendChunks inum chunks

def addFiles (rootino : ℕ) : List Arg → MkfsM Unit
  | [] => pure ()
  | arg :: args => do
      addFile rootino arg
      addFiles rootino args

/-- `struct superblock` -/
def superblock : Bytes :=
  ((((((zeroes.setWord 0 FSSIZE).setWord 1 (FSSIZE - nmeta)).setWord 2 NINODES).setWord 3
    nlog).setWord 4
    2).setWord 5 inodestart).setWord 6 bmapstart

/-- `for(i = 0; i < n; i++) wsect(i, zeroes)` -/
def wipe : ℕ → MkfsM Unit
  | 0 => pure ()
  | n + 1 => do
      wipe n
      wsect n zeroes

/-- The empty image, with the super block -/
def format : MkfsM Unit := do
  wipe FSSIZE
  wsect 1 superblock

/-- The root directory with its first two entries -/
def makeRoot : MkfsM ℕ := do
  let rootino ← ialloc .dir
  if rootino = ROOTINO then do
    iappend rootino (dirent rootino [46])
    iappend rootino (dirent rootino [46, 46])
    pure rootino
  else throw "rootino == ROOTINO"

/-- fix size of root inode dir -/
def fixRoot (rootino : ℕ) : MkfsM Unit := do
  let din ← rinode rootino
  winode rootino (setSize din ((size din / BSIZE + 1) * BSIZE))

def main (args : List Arg) : MkfsM Unit := do
  format
  let rootino ← makeRoot
  addFiles rootino args
  fixRoot rootino
  let used ← look (·.freeblock)
  balloc used

/-- The image file is empty. -/
def init : State := ⟨fun _ => zeroes, 0, 1, nmeta⟩

/-- `mkfs`: the image, or why there is none. -/
def mkfs (args : List Arg) : Except String (ℕ → Bytes) := (main args init).map fun r => r.2.block

/-! ## The kernel -/

/-- What `ilock` takes from a `struct dinode` -/
def dinode (r : Bytes) : Blocks.Dinode where
  type := .ofCode (r.half 0)
  major := toShort (r.half 1)
  nlink := toShort (r.half 3)
  size := size r
  addrs k := if k ≤ NDIRECT then addr r k else 0

/-- The image when the kernel starts: no inode is in memory. -/
def kernel (block : ℕ → Bytes) : Inodes where
  disk := ⟨fun b => (block (bmapstart + b / BPB)).bit (b % BPB), block⟩
  dinode i := dinode ((block (IBLOCK i)).record (i % IPB))
  mem _ := none
  panicked := none

end Mkfs

end Xv6Mlfq
