import Xv6Mlfq.Fs.Paths
import Xv6Mlfq.Fs.SharedFile
import Xv6Mlfq.Mkfs.Image

/-!
# Transactions and their log

The functions of `fs.c` that write, and the system calls that use them, with the numbers of the
blocks that they pass to `log_write`.  A transaction is what is between `begin_op` and `end_op`; no
other one is under way.  It stops where the kernel panics, and then the numbers are those up to
there.

Locks are left out, and so is the panic of `iget` when the cache is full: a transaction that
waits or stops for such a reason has passed fewer blocks.  An inode on the disk and its copy in the
cache are one.

## Main definitions

* `Volume` — the disk, the inodes, the references to them, and the log.
* `balloc`, `bmap`, `writei`, `itrunc`, `iput`, `dirlink`, `namex` — the functions.
* `Tx`, `runTx` — the transactions.
-/

namespace Xv6Mlfq.Blocks.Logged

open Function (update)
open Wp (look)
open Names (strncpy)

/-! ## The state -/

structure Volume where
  disk : Disk
  inode : ℕ → Dinode
  /-- `ip->ref` -/
  ref : ℕ → ℕ
  /-- `ip->valid` -/
  valid : ℕ → Bool
  /-- what has been passed to `log_write` -/
  log : List ℕ

/-- A function, which panics with a message and the log up to there -/
abbrev VolM (α : Type) := Wp.Prog Volume (String × List ℕ) α

def panic {α : Type} (msg : String) : VolM α := fun v => .error (msg, v.log)

def logWrite (b : ℕ) : VolM Unit := modify fun v => { v with log := b :: v.log }

/-- A function of the disk that logs nothing -/
def onDisk {α : Type} (m : DiskM α) : VolM α := fun v =>
  match m v.disk with
  | .ok (a, d) => .ok (a, { v with disk := d })
  | .error msg => .error (msg, v.log)

/-- Where things are on the disk -/
structure Layout where
  sb : Superblock
  inodestart : ℕ

/-- `BBLOCK(b, sb)` -/
def Layout.bblock (l : Layout) (b : ℕ) : ℕ := b / BPB + l.sb.bmapstart

/-- `IBLOCK(i, sb)` -/
def Layout.iblock (l : Layout) (i : ℕ) : ℕ := i / IPB + l.inodestart

section Functions

variable (l : Layout) (devsw : Devsw)

/-! ## Blocks -/

/-- `balloc`, with `bzero` -/
def balloc : VolM ℕ := do
  let b ← onDisk (Blocks.balloc l.sb)
  logWrite (l.bblock b)
  logWrite b
  pure b

def bfree (b : ℕ) : VolM Unit := do
  onDisk (Blocks.bfree b)
  logWrite (l.bblock b)

def slot (ip : Dinode) (k : ℕ) : VolM (ℕ × Dinode) :=
  if ip.addrs k = 0 then do
    let addr ← balloc l
    pure (addr, ip.setAddr k addr)
  else pure (ip.addrs k, ip)

def word (ind j : ℕ) : VolM ℕ := do
  let addr ← onDisk (look fun d => (d.block ind).word j)
  if addr = 0 then do
    let addr ← balloc l
    onDisk (modify fun d => { d with block := update d.block ind ((d.block ind).setWord j addr) })
    logWrite ind
    pure addr
  else pure addr

def bmap (ip : Dinode) (bn : ℕ) : VolM (ℕ × Dinode) :=
  if bn < NDIRECT then slot l ip bn
  else if bn - NDIRECT < NINDIRECT then do
    let (ind, ip) ← slot l ip NDIRECT
    let addr ← word l ind (bn - NDIRECT)
    pure (addr, ip)
  else panic "bmap: out of range"

def truncSlots : List ℕ → Dinode → VolM Dinode
  | [], ip => pure ip
  | k :: ks, ip =>
    if ip.addrs k ≠ 0 then do
      bfree l (ip.addrs k)
      truncSlots ks (ip.setAddr k 0)
    else truncSlots ks ip

def truncWords (ind : ℕ) : List ℕ → VolM Unit
  | [] => pure ()
  | j :: js => do
      let addr ← onDisk (look fun d => (d.block ind).word j)
      if addr ≠ 0 then do
        bfree l addr
        truncWords ind js
      else truncWords ind js

def truncIndirect (ip : Dinode) : VolM Dinode :=
  if ip.addrs NDIRECT ≠ 0 then do
    truncWords l (ip.addrs NDIRECT) (List.range NINDIRECT)
    bfree l (ip.addrs NDIRECT)
    pure (ip.setAddr NDIRECT 0)
  else pure ip

/-- `itrunc`, up to `iupdate` -/
def truncBlocks (ip : Dinode) : VolM Dinode := do
  let ip ← truncSlots l (List.range NDIRECT) ip
  let ip ← truncIndirect l ip
  pure { ip with size := 0 }

/-! ## Contents -/

def readLoop : ℕ → Dinode → ℕ → ℕ → VolM (List UInt8 × Dinode)
  | 0, ip, _, _ => pure ([], ip)
  | fuel + 1, ip, off, n =>
    if 0 < n then do
      let (addr, ip) ← bmap l ip (off / BSIZE)
      let m := min n (BSIZE - off % BSIZE)
      let bs ← onDisk (look fun d => (d.block addr).slice (off % BSIZE) m)
      let (rest, ip) ← readLoop fuel ip (off + m) (n - m)
      pure (bs ++ rest, ip)
    else pure ([], ip)

def readi (ip : Dinode) (off n : ℕ) : VolM (Option (List UInt8) × Dinode) :=
  if ip.type = .dev then
    if ip.major < 0 ∨ NDEV ≤ ip.major then pure (none, ip)
    else pure ((devsw ip.major.toNat).bind fun v => v.read n, ip)
  else if off > ip.size ∨ (off + n) % 2 ^ 32 < off then pure (none, ip)
  else do
    let n' := if off + n > ip.size then ip.size - off else n
    let (bs, ip) ← readLoop l n' ip off n'
    pure (some bs, ip)

def writeLoop : ℕ → Dinode → ℕ → List UInt8 → VolM Dinode
  | 0, ip, _, _ => pure ip
  | fuel + 1, ip, off, src =>
    if 0 < src.length then do
      let (addr, ip) ← bmap l ip (off / BSIZE)
      let m := min src.length (BSIZE - off % BSIZE)
      onDisk (modify fun d =>
        { d with block := update d.block addr ((d.block addr).move (off % BSIZE) (src.take m)) })
      logWrite addr
      writeLoop fuel ip (off + m) (src.drop m)
    else pure ip

/-- `iupdate`, for the inode as it is in the cache -/
def iupdate (i : ℕ) : VolM Unit := logWrite (l.iblock i)

/-- `writei` to the inode `i`, whose copy is `ip` -/
def writei (i : ℕ) (ip : Dinode) (src : List UInt8) (off : ℕ) : VolM (ℤ × Dinode × Bool) :=
  if ip.type = .dev then
    if ip.major < 0 ∨ NDEV ≤ ip.major then pure (-1, ip, false)
    else pure (((devsw ip.major.toNat).map fun v => v.write src).getD (-1), ip, false)
  else if off > ip.size ∨ (off + src.length) % 2 ^ 32 < off then pure (-1, ip, false)
  else if (off + src.length) % 2 ^ 32 > MAXFILE * BSIZE then pure (-1, ip, false)
  else do
    let ip ← writeLoop l src.length ip off src
    if 0 < src.length ∧ off + src.length > ip.size then do
      iupdate l i
      pure (src.length, { ip with size := off + src.length }, true)
    else pure (src.length, ip, false)

/-! ## Inodes -/

def setInode (i : ℕ) (ip : Dinode) : VolM Unit := modify fun v =>
    { v with inode := update v.inode i ip }

/-- There is one more reference to `i`; it is not valid if it is the first. -/
def Volume.got (v : Volume) (i : ℕ) : Volume :=
  { v with
    ref := update v.ref i (v.ref i + 1)
    valid := if v.ref i = 0 then update v.valid i false else v.valid }

def iget (i : ℕ) : VolM Unit := modify fun v => v.got i

def idup (i : ℕ) : VolM Unit := modify fun v => { v with ref := update v.ref i (v.ref i + 1) }

def ilock (i : ℕ) : VolM Unit := do
  let unused ← look fun v => decide (v.ref i < 1)
  if unused then panic "ilock"
  else do
    let cached ← look fun v => v.valid i
    if cached then pure ()
    else do
      modify fun v => { v with valid := update v.valid i true }
      let type ← look fun v => (v.inode i).type
      if type = .free then panic "ilock: no type" else pure ()

def itrunc (i : ℕ) : VolM Unit := do
  let ip ← look fun v => v.inode i
  let ip ← truncBlocks l ip
  setInode i ip
  iupdate l i

def iput (i : ℕ) : VolM Unit := do
  let last ← look fun v => v.valid i && decide ((v.inode i).nlink = 0) && decide (v.ref i = 1)
  if last then do
    itrunc l i
    let ip ← look fun v => v.inode i
    setInode i { ip with type := .free }
    iupdate l i
    modify fun v => { v with valid := update v.valid i false }
    modify fun v => { v with ref := update v.ref i (v.ref i - 1) }
  else modify fun v => { v with ref := update v.ref i (v.ref i - 1) }

def ialloc (type : FileType) : VolM ℕ := do
  let free ← look fun v =>
    ((List.range l.sb.ninodes).find? fun i => decide (0 < i) && decide ((v.inode i).type = .free))
  match free with
  | none => panic "ialloc: no inodes"
  | some i => do
      setInode i ⟨type, 0, 0, 0, fun _ => 0⟩
      logWrite (l.iblock i)
      iget i
      pure i

/-- `ip->nlink += n; iupdate(ip)`, where `nlink` is a `short` -/
def addLinks (i : ℕ) (n : ℤ) : VolM Unit := do
  let ip ← look fun v => v.inode i
  setInode i { ip with nlink := (ip.nlink + n).bmod (2 ^ 16) }
  iupdate l i

/-! ## Directories -/

def readDirent (msg : String) (dp : Dinode) (off : ℕ) : VolM (Bytes × Dinode) := do
  let (res, dp) ← readi l devsw dp off direntSize
  match res with
  | some bs => if bs.length ≠ direntSize then panic msg else pure (fun j => bs.getD j 0, dp)
  | none => panic msg

def writeDirent (msg : String) (i : ℕ) (dp : Dinode) (de : List UInt8) (off : ℕ) : VolM Dinode := do
  let (ret, dp, _) ← writei l devsw i dp de off
  if ret ≠ direntSize then panic msg else pure dp

def lookupLoop (name : Bytes) : ℕ → Dinode → ℕ → VolM (Option (ℕ × ℕ) × Dinode)
  | 0, dp, _ => pure (none, dp)
  | fuel + 1, dp, off =>
    if off < dp.size then do
      let (de, dp) ← readDirent l devsw "dirlookup read" dp off
      if deInum de = 0 then lookupLoop name fuel dp (off + direntSize)
      else if namecmp name (deName de) = 0 then pure (some (deInum de, off), dp)
      else lookupLoop name fuel dp (off + direntSize)
    else pure (none, dp)

/-- `dirlookup`: the inode, to which there is a reference more, and `*poff` -/
def dirlookup (i : ℕ) (name : Bytes) : VolM (Option (ℕ × ℕ)) := do
  let dp ← look fun v => v.inode i
  if dp.type ≠ .dir then panic "dirlookup not DIR"
  else do
    let (found, dp) ← lookupLoop l devsw name (dp.size / direntSize + 1) dp 0
    setInode i dp
    match found with
    | none => pure none
    | some (inum, off) => do
        iget inum
        pure (some (inum, off))

def emptyLoop : ℕ → Dinode → ℕ → VolM (ℕ × Dinode)
  | 0, dp, off => pure (off, dp)
  | fuel + 1, dp, off =>
    if off < dp.size then do
      let (de, dp) ← readDirent l devsw "dirlink read" dp off
      if deInum de = 0 then pure (off, dp) else emptyLoop fuel dp (off + direntSize)
    else pure (off, dp)

def dirlink (i : ℕ) (name : Bytes) (inum : ℕ) : VolM ℤ := do
  match ← dirlookup l devsw i name with
  | some (ip, _) => do
      iput l ip
      pure (-1)
  | none => do
      let dp ← look fun v => v.inode i
      let (off, dp) ← emptyLoop l devsw (dp.size / direntSize + 1) dp 0
      let dp ← writeDirent l devsw "dirlink" i dp (direntBytes inum (strncpy DIRSIZ name)) off
      setInode i dp
      pure 0

/-- The loop of `isdirempty` -/
def isdiremptyLoop : ℕ → Dinode → ℕ → VolM (Bool × Dinode)
  | 0, dp, _ => pure (true, dp)
  | fuel + 1, dp, off =>
    if off < dp.size then do
      let (de, dp) ← readDirent l devsw "isdirempty: readi" dp off
      if deInum de ≠ 0 then pure (false, dp) else isdiremptyLoop fuel dp (off + direntSize)
    else pure (true, dp)

def isdirempty (i : ℕ) : VolM Bool := do
  let dp ← look fun v => v.inode i
  let (empty, dp) ← isdiremptyLoop l devsw (dp.size / direntSize + 1) dp (2 * direntSize)
  setInode i dp
  pure empty

/-! ## Paths -/

def namexLoop (parent : Bool) : ℕ → ℕ → List UInt8 → Bytes → VolM (Option ℕ × Bytes)
  | 0, _, _, name => pure (none, name)
  | fuel + 1, ip, path, name =>
    match skipelem path name with
    | (none, name) =>
      if parent then do
        iput l ip
        pure (none, name)
      else pure (some ip, name)
    | (some path, name) => do
        ilock ip
        let type ← look fun v => (v.inode ip).type
        if type ≠ .dir then do
          iput l ip
          pure (none, name)
        else if parent = true ∧ path.headD 0 = 0 then pure (some ip, name)
        else do
          match ← dirlookup l devsw ip name with
          | none => do
              iput l ip
              pure (none, name)
          | some (next, _) => do
              iput l ip
              namexLoop parent fuel next path name

def namex (cwd : ℕ) (path : List UInt8) (parent : Bool) (name : Bytes) : VolM (Option ℕ × Bytes) :=
  if path.headD 0 = SLASH then do
    iget ROOTINO
    namexLoop l devsw parent (path.length + 1) ROOTINO path name
  else do
    idup cwd
    namexLoop l devsw parent (path.length + 1) cwd path name

/-! ## System calls -/

/-- `sys_link`, after `bad` -/
def linkBad (ip : ℕ) : VolM Unit := do
  ilock ip
  addLinks l ip (-1)
  iput l ip

/-- `sys_link`, after `nameiparent` -/
def linkEntry (dp : ℕ) (name : Bytes) (ip : ℕ) : VolM Unit := do
  ilock dp
  let ret ← dirlink l devsw dp name ip
  iput l dp
  if ret < 0 then linkBad l ip else iput l ip

def sysLink (cwd : ℕ) (old new : List UInt8) (name : Bytes) : VolM Unit := do
  let (ip, name) ← namex l devsw cwd old false name
  match ip with
  | none => pure ()
  | some ip => do
      ilock ip
      let type ← look fun v => (v.inode ip).type
      if type = .dir then iput l ip
      else do
        addLinks l ip 1
        let (dp, name) ← namex l devsw cwd new true name
        match dp with
        | none => linkBad l ip
        | some dp => linkEntry l devsw dp name ip

/-- `ip->type == T_DIR && !isdirempty(ip)` -/
def occupied (ip : ℕ) : VolM Bool := do
  let type ← look fun v => (v.inode ip).type
  if type = .dir then do
    let empty ← isdirempty l devsw ip
    pure !empty
  else pure false

/-- The part of `sys_unlink` that writes to the directory `dp`, where the entry of `ip` is at
`off` -/
def unlinkEntry (dp ip off : ℕ) : VolM Unit := do
  let d ← look fun v => v.inode dp
  let d ← writeDirent l devsw "unlink: writei" dp d (List.replicate direntSize 0) off
  setInode dp d
  let type ← look fun v => (v.inode ip).type
  if type = .dir then addLinks l dp (-1) else pure ()

/-- `sys_unlink`, after `dirlookup` -/
def unlinkFound (dp ip off : ℕ) : VolM Unit := do
  ilock ip
  let nlink ← look fun v => (v.inode ip).nlink
  if nlink < 1 then panic "unlink: nlink < 1"
  else do
    let refuse ← occupied l devsw ip
    if refuse then do
      iput l ip
      iput l dp
    else do
      unlinkEntry l devsw dp ip off
      iput l dp
      addLinks l ip (-1)
      iput l ip

def sysUnlink (cwd : ℕ) (path : List UInt8) (name : Bytes) : VolM Unit := do
  let (dp, name) ← namex l devsw cwd path true name
  match dp with
  | none => pure ()
  | some dp => do
      ilock dp
      if namecmp name dotBytes = 0 ∨ namecmp name dotdotBytes = 0 then iput l dp
      else do
        match ← dirlookup l devsw dp name with
        | none => iput l dp
        | some (ip, off) => unlinkFound l devsw dp ip off

/-- The part of `create` for a directory: the entries `.` and `..` of `ip` -/
def createDots (type : FileType) (dp ip : ℕ) : VolM Unit :=
  if type = .dir then do
    addLinks l dp 1
    let dot ← dirlink l devsw ip dotBytes ip
    if dot < 0 then panic "create dots"
    else do
      let dotdot ← dirlink l devsw ip dotdotBytes dp
      if dotdot < 0 then panic "create dots" else pure ()
  else pure ()

/-- `create`, if there is an inode `ip` of that name -/
def createOld (type : FileType) (dp ip : ℕ) : VolM (Option ℕ) := do
  iput l dp
  ilock ip
  let old ← look fun v => (v.inode ip).type
  if type = .file ∧ old = .file then pure (some ip)
  else do
    iput l ip
    pure none

/-- `create`, after `ialloc` -/
def createNew (type : FileType) (major : ℤ) (dp : ℕ) (name : Bytes) (ip : ℕ) : VolM (Option ℕ) := do
  ilock ip
  let d ← look fun v => v.inode ip
  setInode ip { d with major := major, nlink := 1 }
  iupdate l ip
  createDots l devsw type dp ip
  let ret ← dirlink l devsw dp name ip
  if ret < 0 then panic "create: dirlink"
  else do
    iput l dp
    pure (some ip)

/-- `create`: the inode, if there is one -/
def create (cwd : ℕ) (path : List UInt8) (type : FileType) (major : ℤ) (name : Bytes) :
    VolM (Option ℕ) := do
  let (dp, name) ← namex l devsw cwd path true name
  match dp with
  | none => pure none
  | some dp => do
      ilock dp
      match ← dirlookup l devsw dp name with
      | some (ip, _) => createOld l type dp ip
      | none => do
          let ip ← ialloc l type
          createNew l devsw type major dp name ip

/-- `sys_open` with `O_CREATE`; with `nofile`, there is no file or no descriptor left. -/
def sysOpenCreate (cwd : ℕ) (path : List UInt8) (nofile : Bool) (name : Bytes) : VolM Unit := do
  match ← create l devsw cwd path .file 0 name with
  | none => pure ()
  | some ip => if nofile then iput l ip else pure ()

/-- `sys_mkdir` and `sys_mknod` -/
def sysMake (cwd : ℕ) (path : List UInt8) (type : FileType) (major : ℤ) (name : Bytes) :
    VolM Unit := do
  match ← create l devsw cwd path type major name with
  | none => pure ()
  | some ip => iput l ip

def sysChdir (cwd : ℕ) (path : List UInt8) (name : Bytes) : VolM Unit := do
  let (ip, _) ← namex l devsw cwd path false name
  match ip with
  | none => pure ()
  | some ip => do
      ilock ip
      let type ← look fun v => (v.inode ip).type
      if type ≠ .dir then iput l ip else iput l cwd

/-- One round of the loop of `filewrite`, which has come to byte `i` of `addr` -/
def filewriteRound (ip : ℕ) (addr : List UInt8) (i off : ℕ) : VolM Unit := do
  ilock ip
  let n1 := min (addr.length - i) maxChunk
  let d ← look fun v => v.inode ip
  let (_, d, _) ← writei l devsw ip d ((addr.drop i).take n1) off
  setInode ip d

/-! ## Transactions -/

inductive Tx
  | filewrite (ip : ℕ) (addr : List UInt8) (i off : ℕ)
  | openCreate (path : List UInt8) (nofile : Bool)
  | mkdir (path : List UInt8)
  | mknod (path : List UInt8) (major : ℤ)
  | link (old new : List UInt8)
  | unlink (path : List UInt8)
  | chdir (path : List UInt8)
  | close (ip : ℕ)

/-- A transaction of a process with the directory `cwd`; `name` is what is in the array `name`. -/
def runTx (cwd : ℕ) (name : Bytes) : Tx → VolM Unit
  | .filewrite ip addr i off => filewriteRound l devsw ip addr i off
  | .openCreate path nofile => sysOpenCreate l devsw cwd path nofile name
  | .mkdir path => sysMake l devsw cwd path .dir 0 name
  | .mknod path major => sysMake l devsw cwd path .dev major name
  | .link old new => sysLink l devsw cwd old new name
  | .unlink path => sysUnlink l devsw cwd path name
  | .chdir path => sysChdir l devsw cwd path name
  | .close ip => iput l ip

end Functions

end Xv6Mlfq.Blocks.Logged
