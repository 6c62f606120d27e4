import Xv6Mlfq.Fs.Blocks
import Xv6Mlfq.Vm.Ram

/-!
# `exec`

`exec.c`, with `loaduvm`, `clearpteu`, `uva2ka` and `copyout` of `vm.c`, on a memory with contents.
The program file is a list of bytes, from which `readi` takes what `exec` asks for; addresses,
sizes and offsets are `uint`s and wrap.

`uva2ka` does not test whether there is a page table for the address.  If there is none,
`walkpgdir` returns 0, and the entry is what stands at address 0: the first word of the process
that calls `exec`, which may name any page.  What is written there is followed as
the contents of this page; the links of the free list and the page tables, which are not
part of the contents here, it may change as well.

## Main definitions

* `readi`, `Elfhdr`, `Proghdr` — the file and its headers.
* `loadSegs`, `execStack` — the two halves of the new address space.
* `exec` — the system call, with `begin_op`, `end_op` and the inode's lock and reference.
-/

namespace Xv6Mlfq.Exec

open Function (update)
open Wp (look)
open Blocks (Bytes)
open Vm (PGSIZE Pgdir Pte DataAddr pgroundup pgrounddown)
open Mem (Ram RamM onMmu allocuvm freevm setupkvm)

/-- max exec arguments -/
abbrev MAXARG : ℕ := 32

/-- "\x7FELF" in little endian -/
abbrev ELF_MAGIC : ℕ := 0x464C457F

abbrev ELF_PROG_LOAD : ℕ := 1

/-! ## The file -/

/-- The contents of a file, whose size is a `uint` -/
structure File where
  bytes : List UInt8
  size_lt : bytes.length < 2 ^ 32

/-- `readi`: the bytes, or `none` for -1 -/
def readi (ip : File) (off n : ℕ) : Option (List UInt8) :=
  if off > ip.bytes.length ∨ (off + n) % 2 ^ 32 < off then none
  else some ((ip.bytes.drop off).take n)

/-- `readi` of `n` bytes, unless there are fewer -/
def readAll (ip : File) (off n : ℕ) : Option Bytes :=
  match readi ip off n with
  | some bs => if bs.length = n then some fun i => bs.getD i 0 else none
  | none => none

/-- `struct elfhdr`, the fields that are used -/
structure Elfhdr where
  magic : ℕ
  entry : ℕ
  phoff : ℕ
  phnum : ℕ
  deriving DecidableEq, Repr

/-- `struct proghdr`, the fields that are used -/
structure Proghdr where
  type : ℕ
  off : ℕ
  vaddr : ℕ
  filesz : ℕ
  memsz : ℕ
  deriving DecidableEq, Repr

/-- `sizeof(struct elfhdr)` -/
abbrev elfhdrSize : ℕ := 52

/-- `sizeof(struct proghdr)` -/
abbrev proghdrSize : ℕ := 32

-- `phnum` is the lower half of word 11
def readElfhdr (ip : File) : Option Elfhdr :=
  (readAll ip 0 elfhdrSize).map fun b => ⟨b.word 0, b.word 6, b.word 7, b.word 11 % 2 ^ 16⟩

def readProghdr (ip : File) (off : ℕ) : Option Proghdr :=
  (readAll ip off proghdrSize).map fun b => ⟨b.word 0, b.word 1, b.word 2, b.word 4, b.word 5⟩

/-! ## Segments -/

/-- `memmove` into a page -/
def memmove (pg o : ℕ) (src : List UInt8) : RamM Unit :=
  modify fun r => { r with mem := update r.mem pg (Bytes.move (r.mem pg) o src) }

/-- `readi` into a page: whether all `n` bytes could be read -/
def readPage (ip : File) (pg off n : ℕ) : RamM Bool :=
  match readi ip off n with
  | none => pure false
  | some bs => do
      memmove pg 0 bs
      pure (bs.length = n)

/-- The loop of `loaduvm` -/
def loadLoop (addr : ℕ) (ip : File) (offset sz : ℕ) : ℕ → ℕ → RamM Bool
  | 0, _ => pure true
  | fuel + 1, i =>
    if i < sz then do
      let there ← onMmu (Vm.walkpgdir ((addr + i) % 2 ^ 32) false)
      if there = false then throw "loaduvm: address should exist"
      else
        let pte ← look fun r => (r.pgdir.pte ((addr + i) % 2 ^ 32)).getD Pte.zero
        let ok ← readPage ip pte.addr ((offset + i) % 2 ^ 32)
          (if sz - i < PGSIZE then sz - i else PGSIZE)
        if ok then loadLoop addr ip offset sz fuel (i + PGSIZE) else pure false
    else pure true

def loaduvm (addr : ℕ) (ip : File) (offset sz : ℕ) : RamM Bool :=
  if addr % PGSIZE ≠ 0 then throw "loaduvm: addr must be page aligned"
  else loadLoop addr ip offset sz (sz / PGSIZE + 1) 0

/-- A round of the loop over the program headers, for a segment to load: the new size, or `none` for
`goto bad` -/
def loadSeg (ip : File) (ph : Proghdr) (sz : ℕ) : RamM (Option ℕ) :=
  if ph.memsz < ph.filesz then pure none
  else if (ph.vaddr + ph.memsz) % 2 ^ 32 < ph.vaddr then pure none
  else do
    let sz ← allocuvm sz ((ph.vaddr + ph.memsz) % 2 ^ 32)
    if sz = 0 then pure none
    else if ph.vaddr % PGSIZE ≠ 0 then pure none
    else
      let ok ← loaduvm ph.vaddr ip ph.off ph.filesz
      if ok then pure (some sz) else pure none

/-- The loop over the program headers, of which `n` are left -/
def loadSegs (ip : File) : ℕ → ℕ → ℕ → RamM (Option ℕ)
  | 0, _, sz => pure (some sz)
  | n + 1, off, sz =>
    match readProghdr ip off with
    | none => pure none
    | some ph =>
      if ph.type ≠ ELF_PROG_LOAD then loadSegs ip n ((off + proghdrSize) % 2 ^ 32) sz
      else do
        match ← loadSeg ip ph sz with
        | none => pure none
        | some sz => loadSegs ip n ((off + proghdrSize) % 2 ^ 32) sz

/-! ## The stack -/

def clearpteu (va : ℕ) : RamM Unit := onMmu (Vm.clearpteu va)

/-- A word as an entry of a page table: `PTE_P`, `PTE_W`, `PTE_U` and `PTE_ADDR` -/
def pteOfWord (w : ℕ) : Pte :=
  ⟨w % 2 = 1, ⟨w / 2 % 2 = 1, w / 4 % 2 = 1⟩, w / PGSIZE * PGSIZE⟩

/-- The entry that a null pointer leads to, while the page directory `cur` is in use -/
def pteAtZero (cur : Pgdir) (mem : ℕ → Bytes) : Option Pte :=
  match cur.pte 0 with
  | some ⟨true, _, pa⟩ => some (pteOfWord ((mem pa).word 0))
  | _ => none

/-- `uva2ka`: the page, or `none` for 0.  Without a page at address 0 the kernel traps. -/
def uva2ka (cur : Pgdir) (va : ℕ) : RamM (Option ℕ) := do
  let there ← onMmu (Vm.walkpgdir va false)
  let pte ← look fun r => if there then r.pgdir.pte va else pteAtZero cur r.mem
  match pte with
  | none => throw "trap"
  | some pte =>
    if pte.present = false then pure none
    else if pte.perm.u = false then pure none
    else pure (some pte.addr)

/-- The loop of `copyout`; each round copies at least one byte. -/
def copyLoop (cur : Pgdir) : ℕ → ℕ → List UInt8 → RamM Bool
  | 0, _, _ => pure true
  | fuel + 1, va, buf =>
    if 0 < buf.length then do
      let va0 := pgrounddown va
      match ← uva2ka cur va0 with
      | none => pure false
      | some pa0 => do
          let n := min (PGSIZE - (va - va0)) buf.length
          memmove pa0 (va - va0) (buf.take n)
          copyLoop cur fuel ((va0 + PGSIZE) % 2 ^ 32) (buf.drop n)
    else pure true

def copyout (cur : Pgdir) (va : ℕ) (p : List UInt8) : RamM Bool := copyLoop cur p.length va p

/-- The loop that pushes the argument strings; `args` are the addresses of those before. -/
def pushArgs (cur : Pgdir) : List (List UInt8) → List ℕ → ℕ → RamM (Option (ℕ × List ℕ))
  | [], args, sp => pure (some (sp, args))
  | s :: argv, args, sp =>
    if args.length ≥ MAXARG then pure none
    else do
      let sp := (2 ^ 32 + sp - (s.length + 1) % 2 ^ 32) % 2 ^ 32 / 4 * 4
      let ok ← copyout cur sp (s ++ [0])
      if ok then pushArgs cur argv (args ++ [sp]) sp else pure none

/-- The bytes of a `uint` -/
def uintBytes (v : ℕ) : List UInt8 :=
  [v.toUInt8, (v / 2 ^ 8).toUInt8, (v / 2 ^ 16).toUInt8, (v / 2 ^ 24).toUInt8]

/-- The argument strings and the rest of the stack: the new stack pointer -/
def pushStack (cur : Pgdir) (argv : List (List UInt8)) (sz : ℕ) : RamM (Option ℕ) := do
  match ← pushArgs cur argv [] sz with
  | none => pure none
  | some (sp, args) => do
      let argc := args.length
      -- fake return PC, argc, argv pointer, argv
      let ustack := [0xffffffff, argc, (2 ^ 32 + sp - (argc + 1) * 4) % 2 ^ 32] ++ args ++ [0]
      let sp := (2 ^ 32 + sp - (3 + argc + 1) * 4) % 2 ^ 32
      let ok ← copyout cur sp (ustack.flatMap uintBytes)
      if ok then pure (some sp) else pure none

/-- Two pages for the stack, of which the first is inaccessible; size and stack pointer -/
def execStack (cur : Pgdir) (argv : List (List UInt8)) (sz : ℕ) : RamM (Option (ℕ × ℕ)) := do
  let sz ← allocuvm (pgroundup sz) ((pgroundup sz + 2 * PGSIZE) % 2 ^ 32)
  if sz = 0 then pure none
  else
    clearpteu (sz - 2 * PGSIZE)
    match ← pushStack cur argv sz with
    | none => pure none
    | some sp => pure (some (sz, sp))

/-! ## The system call -/

/-- The parts of `struct proc` that `exec` writes -/
structure Task where
  pgdir : Pgdir
  sz : ℕ
  eip : ℕ
  esp : ℕ
  name : List UInt8

/-- The calls of `begin_op` without `end_op`, the holds on `ip->lock`, and `ip->ref` -/
structure Balance where
  ops : ℤ
  locks : ℤ
  refs : ℤ
  deriving DecidableEq, Repr

structure State where
  ram : Ram
  proc : Task
  bal : Balance

abbrev ExecM (α : Type) := Wp.Prog State String α

def onRam {α : Type} (x : RamM α) : ExecM α := fun s =>
  match x s.ram with
  | .ok (a, r) => .ok (a, { s with ram := r })
  | .error e => .error e

def balance (f : Balance → Balance) : ExecM Unit := modify fun s => { s with bal := f s.bal }

def begin_op : ExecM Unit := balance fun b => { b with ops := b.ops + 1 }

def end_op : ExecM Unit := balance fun b => { b with ops := b.ops - 1 }

def ilock : ExecM Unit := balance fun b => { b with locks := b.locks + 1 }

def iunlockput : ExecM Unit := balance fun b => { b with locks := b.locks - 1, refs := b.refs - 1 }

/-- `namei`: a reference to the inode, if there is one -/
def namei (file : Option File) : ExecM (Option File) :=
  match file with
  | none => pure none
  | some ip => do
      balance fun b => { b with refs := b.refs + 1 }
      pure (some ip)

/-- The label `bad` while the inode is locked -/
def badLocked : ExecM Bool := do
  iunlockput
  end_op
  pure false

/-- The last element of a path -/
def lastElem : List UInt8 → List UInt8 → List UInt8
  | [], last => last
  | c :: s, last => if c = '/'.toUInt8 then lastElem s s else lastElem s last

/-- `sizeof(curproc->name)` -/
abbrev nameSize : ℕ := 16

/-- Commit to the user image. -/
def commit (path : List UInt8) (entry sz sp : ℕ) : ExecM Bool := do
  let pgdir ← look fun s => s.ram.pgdir
  let old ← look fun s => s.proc.pgdir
  modify fun s =>
    { s with proc := ⟨pgdir, sz, entry, sp, (lastElem path path).take (nameSize - 1)⟩ }
  onRam (modify fun r => { r with pgdir := old })
  onRam freevm
  pure true

/-- What follows when the page directory has been made -/
def execLoad (path : List UInt8) (ip : File) (elf : Elfhdr) (argv : List (List UInt8)) :
    ExecM Bool := do
  match ← onRam (loadSegs ip elf.phnum elf.phoff 0) with
  | none => do
      onRam freevm
      badLocked
  | some sz => do
      iunlockput
      end_op
      let cur ← look fun s => s.proc.pgdir
      match ← onRam (execStack cur argv sz) with
      | none => do
          onRam freevm
          pure false
      | some (sz, sp) => commit path elf.entry sz sp

/-- `exec`; `false` stands for -1.  `file` is what `path` names. -/
def exec (data : DataAddr) (path : List UInt8) (file : Option File) (argv : List (List UInt8)) :
    ExecM Bool := do
  begin_op
  match ← namei file with
  | none => do
      end_op
      pure false
  | some ip => do
      ilock
      match readElfhdr ip with
      | none => badLocked
      | some elf =>
        if elf.magic ≠ ELF_MAGIC then badLocked
        else do
          let ok ← onRam (setupkvm data)
          if ok then execLoad path ip elf argv else badLocked

end Xv6Mlfq.Exec
