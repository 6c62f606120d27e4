import Xv6Mlfq.Lib.Transition
import Xv6Mlfq.Lib.Wp
import Mathlib.Logic.Function.Basic
import Mathlib.Algebra.Group.Nat.Defs

/-!
# Page tables and address spaces

`vm.c`, with `growproc`, `fork` and `exec` as far as they change address spaces.  A page directory
is a value here: its page, and for each present entry the page table.  What is in the pages of a
process is left out, so `memmove` and `memset` of user pages and the copying of arguments are too;
whether the reading of a program and the copying of arguments succeed is up to the caller.

Addresses and sizes are `uint`s: numbers below `2 ^ 32`, with arithmetic modulo `2 ^ 32` where it
can wrap.

## Main definitions

* `allocuvm`, `deallocuvm`, `copyuvm`, `growproc`, `execvm` — programs on a page directory and the
  list of free pages.
* `vmStep` — one call of `fork`, `exec` or `sbrk`, or the end of a process.
-/

namespace Xv6Mlfq.Vm

open Function (update)
open Wp (look)

abbrev PGSIZE : ℕ := 4096

abbrev NPDENTRIES : ℕ := 1024

/-- First kernel virtual address -/
abbrev KERNBASE : ℕ := 0x80000000

/-- Start of extended memory -/
abbrev EXTMEM : ℕ := 0x100000

/-- Address where kernel is linked -/
abbrev KERNLINK : ℕ := KERNBASE + EXTMEM

/-- Top physical memory -/
abbrev PHYSTOP : ℕ := 0xE000000

/-- Other devices are at high addresses -/
abbrev DEVSPACE : ℕ := 0xFE000000

def pgroundup (sz : ℕ) : ℕ := (sz + PGSIZE - 1) % 2 ^ 32 / PGSIZE * PGSIZE

def pgrounddown (a : ℕ) : ℕ := a / PGSIZE * PGSIZE

/-- page directory index -/
def pdx (va : ℕ) : ℕ := va / 2 ^ 22 % NPDENTRIES

/-- page table index -/
def ptx (va : ℕ) : ℕ := va / 2 ^ 12 % 1024

structure Perm where
  w : Bool
  u : Bool
  deriving DecidableEq, Repr

structure Pte where
  present : Bool
  perm : Perm
  addr : ℕ
  deriving DecidableEq, Repr

def Pte.zero : Pte := ⟨false, ⟨false, false⟩, 0⟩

/-- A page directory: its own page, and page and contents of the page tables. -/
structure Pgdir where
  page : ℕ
  pde : ℕ → Option (ℕ × (ℕ → Pte))

/-- The page directory at work, and `kmem.freelist`. -/
structure Mmu where
  pgdir : Pgdir
  free : List ℕ

abbrev VmM (α : Type) := Wp.Prog Mmu String α

/-- `*walkpgdir(pgdir, va, 0)`, if there is such an entry -/
def Pgdir.pte (pd : Pgdir) (va : ℕ) : Option Pte := (pd.pde (pdx va)).map fun t => t.2 (ptx va)

def Pgdir.setPte (pd : Pgdir) (va : ℕ) (x : Pte) : Pgdir :=
  { pd with
    pde := update pd.pde (pdx va) ((pd.pde (pdx va)).map fun t => (t.1, update t.2 (ptx va) x)) }

def Pgdir.present (pd : Pgdir) (va : ℕ) : Bool := (pd.pte va).any Pte.present

def setPte (va : ℕ) (x : Pte) : VmM Unit := modify fun m => { m with pgdir := m.pgdir.setPte va x }

/-! ## Pages -/

def kalloc : VmM (Option ℕ) := fun m =>
  match m.free with
  | [] => .ok (none, m)
  | pg :: rest => .ok (some pg, { m with free := rest })

def kfree (pg : ℕ) : VmM Unit := modify fun m => { m with free := pg :: m.free }

/-- `walkpgdir`: whether there is an entry for `va`, which is then `Pgdir.pte`. -/
def walkpgdir (va : ℕ) (alloc : Bool) : VmM Bool := do
  let pde ← look fun m => m.pgdir.pde (pdx va)
  match pde with
  | some _ => pure true
  | none =>
    if alloc then
      match ← kalloc with
      | none => pure false
      | some pg => do
          modify fun m => { m with
            pgdir := { m.pgdir with
              pde := update m.pgdir.pde (pdx va) (some (pg, fun _ => Pte.zero)) } }
          pure true
    else pure false

/-- A round of the loop of `mappages` -/
def mapPage (perm : Perm) (a pa : ℕ) : VmM Bool := do
  let there ← walkpgdir a true
  if there = false then pure false
  else
    let pte ← look fun m => m.pgdir.pte a
    if pte.any Pte.present then throw "remap"
    else
      setPte a ⟨true, perm, pa⟩
      pure true

/-- The loop of `mappages`; `n` pages are to follow this one. -/
def mapLoop (perm : Perm) : ℕ → ℕ → ℕ → VmM Bool
  | 0, a, pa => mapPage perm a pa
  | n + 1, a, pa => do
      let ok ← mapPage perm a pa
      if ok then mapLoop perm n (a + PGSIZE) (pa + PGSIZE) else pure false

/-- `mappages`; `false` stands for -1. -/
def mappages (va size pa : ℕ) (perm : Perm) : VmM Bool :=
  let a := pgrounddown va
  let last := pgrounddown ((va + size - 1) % 2 ^ 32)
  mapLoop perm ((last - a) / PGSIZE) a pa

/-! ## User memory -/

/-- What `deallocuvm` does with an entry. -/
def freePte (a : ℕ) (pte : Option Pte) : VmM Unit :=
  match pte with
  | some ⟨true, _, pa⟩ =>
    if pa = 0 then throw "kfree"
    else do
      kfree pa
      setPte a Pte.zero
  | _ => pure ()

/-- The loop of `deallocuvm`; where there is no page table it goes on with the next one. -/
def deallocLoop (oldsz : ℕ) : ℕ → ℕ → VmM Unit
  | 0, _ => pure ()
  | n + 1, a =>
    if a < oldsz then do
      let there ← walkpgdir a false
      if there = false then deallocLoop oldsz n ((pdx a + 1) * 2 ^ 22)
      else
        let pte ← look fun m => m.pgdir.pte a
        freePte a pte
        deallocLoop oldsz n (a + PGSIZE)
    else pure ()

def deallocuvm (oldsz newsz : ℕ) : VmM ℕ :=
  if newsz ≥ oldsz then pure oldsz
  else do
    deallocLoop oldsz (oldsz / PGSIZE + 1) (pgroundup newsz)
    pure newsz

/-- The loop of `allocuvm` -/
def allocLoop (oldsz newsz : ℕ) : ℕ → ℕ → VmM ℕ
  | 0, _ => pure newsz
  | n + 1, a =>
    if a < newsz then do
      match ← kalloc with
      | none => do
          let _ ← deallocuvm newsz oldsz
          pure 0
      | some mem => do
          let ok ← mappages a PGSIZE mem ⟨true, true⟩
          if ok then allocLoop oldsz newsz n (a + PGSIZE)
          else
            let _ ← deallocuvm newsz oldsz
            kfree mem
            pure 0
    else pure newsz

/-- `allocuvm`: the new size, or 0 on error -/
def allocuvm (oldsz newsz : ℕ) : VmM ℕ :=
  if newsz ≥ KERNBASE then pure 0
  else if newsz < oldsz then pure oldsz
  else allocLoop oldsz newsz (newsz / PGSIZE + 1) (pgroundup oldsz)

/-- The loop of `freevm` over the page directory -/
def freeTables : List ℕ → VmM Unit
  | [] => pure ()
  | i :: is => do
      let pde ← look fun m => m.pgdir.pde i
      freeTable pde
      freeTables is
where
  freeTable : Option (ℕ × (ℕ → Pte)) → VmM Unit
    | some t => kfree t.1
    | none => pure ()

def freevm : VmM Unit := do
  let _ ← deallocuvm KERNBASE 0
  freeTables (List.range NPDENTRIES)
  let page ← look fun m => m.pgdir.page
  kfree page

/-! ## New address spaces -/

structure Kmap where
  virt : ℕ
  physStart : ℕ
  physEnd : ℕ
  perm : Perm

/-- Where the kernel's data begin, as the linker has put them: at a page boundary, after the code -/
structure DataAddr where
  val : ℕ
  aligned : val % PGSIZE = 0
  kernlink_lt : KERNLINK < val
  lt_phystop : val < KERNBASE + PHYSTOP

def kmap (data : DataAddr) : List Kmap :=
  [⟨KERNBASE, 0, EXTMEM, ⟨true, false⟩⟩,
   ⟨KERNLINK, KERNLINK - KERNBASE, data.val - KERNBASE, ⟨false, false⟩⟩,
   ⟨data.val, data.val - KERNBASE, PHYSTOP, ⟨true, false⟩⟩,
   ⟨DEVSPACE, DEVSPACE, 0, ⟨true, false⟩⟩]

def setupLoop : List Kmap → VmM Bool
  | [] => pure true
  | k :: ks => do
      let ok ← mappages k.virt ((2 ^ 32 + k.physEnd - k.physStart) % 2 ^ 32) k.physStart k.perm
      if ok then setupLoop ks
      else
        freevm
        pure false

/-- `setupkvm`: the page directory at work is a new one, with the kernel's mappings. -/
def setupkvm (data : DataAddr) : VmM Bool := do
  match ← kalloc with
  | none => pure false
  | some pg => do
      modify fun m => { m with pgdir := ⟨pg, fun _ => none⟩ }
      setupLoop (kmap data)

def copyLoop (src : Pgdir) (sz : ℕ) : ℕ → ℕ → VmM Bool
  | 0, _ => pure true
  | n + 1, i =>
    if i < sz then
      match src.pte i with
      | none => throw "copyuvm: pte should exist"
      | some ⟨false, _, _⟩ => throw "copyuvm: page not present"
      | some ⟨true, flags, _⟩ => do
          match ← kalloc with
          | none => do
              freevm
              pure false
          | some mem => do
              let ok ← mappages i PGSIZE mem flags
              if ok then copyLoop src sz n (i + PGSIZE)
              else
                kfree mem
                freevm
                pure false
    else pure true

/-- `copyuvm`: a copy of `src`, as the page directory at work -/
def copyuvm (data : DataAddr) (src : Pgdir) (sz : ℕ) : VmM Bool := do
  let ok ← setupkvm data
  if ok then copyLoop src sz (sz / PGSIZE + 1) 0 else pure false

/-! ## `growproc` and `exec` -/

/-- `growproc`: the new size, or `none` if it returns -1 -/
def growproc (sz : ℕ) (n : BitVec 32) : VmM (Option ℕ) :=
  if 0 < n.toInt then do
    let sz' ← allocuvm sz ((sz + n.toNat) % 2 ^ 32)
    if sz' = 0 then pure none else pure (some sz')
  else if n.toInt < 0 then do
    let sz' ← deallocuvm sz ((sz + n.toNat) % 2 ^ 32)
    if sz' = 0 then pure none else pure (some sz')
  else pure (some sz)

/-- `struct proghdr`, with what becomes of the reads: whether the header can be read, and whether
the segment can. -/
structure Proghdr where
  read : Bool
  load : Bool
  vaddr : BitVec 32
  filesz : BitVec 32
  memsz : BitVec 32
  contents : Bool
  deriving DecidableEq, Repr

/-- A program: whether its ELF header is good, its program headers, and whether the arguments can
be copied to the new stack. -/
structure Elf where
  header : Bool
  phs : List Proghdr
  args : Bool
  deriving DecidableEq, Repr

def loadLoop (addr sz : ℕ) (contents : Bool) : ℕ → ℕ → VmM Bool
  | 0, _ => pure true
  | n + 1, i =>
    if i < sz then do
      let there ← walkpgdir ((addr + i) % 2 ^ 32) false
      if there = false then throw "loaduvm: address should exist"
      else if contents then loadLoop addr sz contents n (i + PGSIZE)
      else pure false
    else pure true

def loaduvm (addr sz : ℕ) (contents : Bool) : VmM Bool :=
  if addr % PGSIZE ≠ 0 then throw "loaduvm: addr must be page aligned"
  else loadLoop addr sz contents (sz / PGSIZE + 1) 0

/-- The loop of `exec` over the program headers; `none` is `goto bad`. -/
def loadSegs : List Proghdr → ℕ → VmM (Option ℕ)
  | [], sz => pure (some sz)
  | ph :: phs, sz =>
    if ph.read = false then pure none
    else if ph.load = false then loadSegs phs sz
    else if ph.memsz < ph.filesz then pure none
    else if ph.vaddr + ph.memsz < ph.vaddr then pure none
    else do
      let sz' ← allocuvm sz (ph.vaddr + ph.memsz).toNat
      if sz' = 0 then pure none
      else if ph.vaddr.toNat % PGSIZE ≠ 0 then pure none
      else
        let ok ← loaduvm ph.vaddr.toNat ph.filesz.toNat ph.contents
        if ok then loadSegs phs sz' else pure none

def clearpteu (va : ℕ) : VmM Unit := do
  let there ← walkpgdir va false
  if there = false then throw "clearpteu"
  else
    let pte ← look fun m => (m.pgdir.pte va).getD Pte.zero
    setPte va { pte with perm := { pte.perm with u := false } }

/-- The label `bad` of `exec`, with a page directory to free. -/
def execBad : VmM (Option ℕ) := do
  freevm
  pure none

/-- The part of `exec` that makes the stack. -/
def execStack (sz : ℕ) (args : Bool) : VmM (Option ℕ) := do
  let sz' ← allocuvm (pgroundup sz) ((pgroundup sz + 2 * PGSIZE) % 2 ^ 32)
  if sz' = 0 then execBad
  else
    clearpteu (sz' - 2 * PGSIZE)
    if args then pure (some sz') else execBad

/-- The address space that `exec` builds, as the page directory at work; its size, or `none` -/
def execvm (data : DataAddr) (elf : Elf) : VmM (Option ℕ) :=
  if elf.header = false then pure none
  else do
    let ok ← setupkvm data
    if ok = false then pure none
    else
      match ← loadSegs elf.phs 0 with
      | none => execBad
      | some sz => execStack sz elf.args

/-! ## Processes -/

structure Uproc where
  pgdir : Pgdir
  sz : ℕ

/-- The processes with their address spaces, and the free pages. -/
structure Memory (P : Type) where
  proc : P → Option Uproc
  free : List ℕ
  panicked : Option String

/-- `env free` stands for what other parts of the kernel do with `kalloc` and `kfree`. -/
inductive VmLabel (P : Type)
  | fork (p q : P)
  | exec (p : P) (elf : Elf)
  | sbrk (p : P) (n : BitVec 32)
  | exit (p : P)
  | env (free : List ℕ)

variable {P : Type} [DecidableEq P]

/-- A program on the page directory `pd`; `k` is what becomes of the processes. -/
def withPgdir {α : Type} (s : Memory P) (pd : Pgdir) (m : VmM α)
    (k : α → Pgdir → P → Option Uproc) : Memory P :=
  match m ⟨pd, s.free⟩ with
  | .ok (a, m') => { s with proc := k a m'.pgdir, free := m'.free }
  | .error msg => { s with panicked := some msg }

/-- What `exec` does with the old address space: its pages are free. -/
def freeOld {α : Type} (old : Pgdir) (m : VmM (Option α)) : VmM (Option (α × Pgdir)) := do
  match ← m with
  | none => pure none
  | some a => do
      let new ← look fun m => m.pgdir
      modify fun m => { m with pgdir := old }
      freevm
      pure (some (a, new))

def vmCall (data : DataAddr) (s : Memory P) : VmLabel P → Option (Memory P)
  | .fork p q =>
    match s.proc p, s.proc q with
    | some c, none =>
      some (withPgdir s c.pgdir (copyuvm data c.pgdir c.sz) fun ok pd =>
        if ok then update s.proc q (some ⟨pd, c.sz⟩) else s.proc)
    | _, _ => none
  | .exec p elf =>
    (s.proc p).map fun c =>
      withPgdir s c.pgdir (freeOld c.pgdir (execvm data elf)) fun r _ =>
        match r with
        | some (sz, pd) => update s.proc p (some ⟨pd, sz⟩)
        | none => s.proc
  | .sbrk p n =>
    (s.proc p).map fun c =>
      withPgdir s c.pgdir (growproc c.sz n) fun r pd =>
        update s.proc p (some ⟨pd, r.getD c.sz⟩)
  | .exit p =>
    (s.proc p).map fun c => withPgdir s c.pgdir freevm fun _ _ => update s.proc p none
  | .env free => some { s with free := free }

/-- One call; a panic stops the machine. -/
def vmStep (data : DataAddr) (l : VmLabel P) (s : Memory P) : Option (Memory P) :=
  if s.panicked = none then vmCall data s l else none

/-- The address space of the first process: one page for `initcode` -/
def inituvm (data : DataAddr) : VmM Bool := do
  let ok ← setupkvm data
  if ok = false then throw "userinit: out of memory?"
  else
    match ← kalloc with
    | none => pure false
    | some mem => mappages 0 PGSIZE mem ⟨true, true⟩

/-- After `userinit`, with what `inituvm` has made. -/
def Memory.boot (m : Mmu) (init : P) : Memory P where
  proc := update (fun _ => none) init (some ⟨m.pgdir, PGSIZE⟩)
  free := m.free
  panicked := none

end Xv6Mlfq.Vm
