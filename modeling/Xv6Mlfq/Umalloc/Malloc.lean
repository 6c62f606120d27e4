import Xv6Mlfq.Lib.Cycle
import Xv6Mlfq.Lib.Extents
import Xv6Mlfq.Lib.Wp
import Xv6Mlfq.Vm.PageTable
import Mathlib.Algebra.Group.Int.Defs

/-!
# The user allocator

`malloc`, `free` and `morecore` of `umalloc.c`.  A pointer is its address, the fields of a `Header`
are functions of it, and 0 is the null pointer.  Sums and products are those of 32 bits.

The loops of C go on until they stop; here they have `fuel` rounds, and one that needs more is a
fault.

What `sbrk` does is a parameter: `sbrkAt` returns any memory that is fresh, `sysSbrk` does what
`sys_sbrk` and `growproc` do to the size of the process.

## Main definitions

* `Heap` — the state; `got` is the memory that `sbrk` has returned.
* `free`, `morecore`, `malloc` — the functions.
* `Op`, `runOps` — a sequence of calls.
-/

namespace Xv6Mlfq.Umalloc

open Function (update)
open Wp (look)
open Vm (KERNBASE)

/-- `sizeof(Header)` -/
abbrev HEADER : ℕ := 8

/-- `x + n`, for a pointer `x` to a `Header` -/
def header (x n : ℕ) : ℕ := (x + HEADER * n) % 2 ^ 32

/-- A `uint`, as an `int` -/
def toInt (x : ℕ) : ℤ := if x < 2 ^ 31 then x else x - 2 ^ 32

structure Heap where
  /-- `p->s.ptr` -/
  ptr : ℕ → ℕ
  /-- `p->s.size` -/
  size : ℕ → ℕ
  freep : ℕ
  /-- the size of the process: where its memory ends -/
  brk : ℕ
  /-- the memory from `sbrk`: addresses, and numbers of bytes -/
  got : List (ℕ × ℕ)

abbrev HeapM (α : Type) := Wp.Prog Heap String α

section Functions

variable (base fuel : ℕ)

/-- The loop of `free` -/
def freeLoop (bp : ℕ) : ℕ → ℕ → HeapM ℕ
  | 0, _ => throw "free does not return"
  | fuel + 1, p => do
      let next ← look fun s => s.ptr p
      if bp > p ∧ bp < next then pure p
      else if p ≥ next ∧ (bp > p ∨ bp < next) then pure p
      else freeLoop bp fuel next

/-- `if(bp + bp->s.size == p->s.ptr) ... else bp->s.ptr = p->s.ptr` -/
def joinNext (bp p : ℕ) : HeapM Unit := do
  let joins ← look fun s => decide (header bp (s.size bp) = s.ptr p)
  if joins then do
    modify fun s => { s with size := update s.size bp ((s.size bp + s.size (s.ptr p)) % 2 ^ 32) }
    modify fun s => { s with ptr := update s.ptr bp (s.ptr (s.ptr p)) }
  else modify fun s => { s with ptr := update s.ptr bp (s.ptr p) }

/-- `if(p + p->s.size == bp) ... else p->s.ptr = bp` -/
def joinPrev (bp p : ℕ) : HeapM Unit := do
  let joins ← look fun s => decide (header p (s.size p) = bp)
  if joins then do
    modify fun s => { s with size := update s.size p ((s.size p + s.size bp) % 2 ^ 32) }
    modify fun s => { s with ptr := update s.ptr p (s.ptr bp) }
  else modify fun s => { s with ptr := update s.ptr p bp }

def free (ap : ℕ) : HeapM Unit := do
  let bp := (ap + 2 ^ 32 - HEADER) % 2 ^ 32
  let start ← look fun s => s.freep
  let p ← freeLoop bp fuel start
  joinNext bp p
  joinPrev bp p
  modify fun s => { s with freep := p }

variable (sbrk : ℤ → HeapM ℕ)

def morecore (nu : ℕ) : HeapM ℕ := do
  let nu := if nu < 4096 then 4096 else nu
  let p ← sbrk (toInt (nu * HEADER % 2 ^ 32))
  if p = 2 ^ 32 - 1 then pure 0
  else do
    modify fun s => { s with size := update s.size p nu }
    free fuel (header p 1)
    look fun s => s.freep

/-- What `malloc` does when it has found a block: it takes all of it, or its end. -/
def takeUnits (nunits prevp p : ℕ) : HeapM ℕ := do
  let size ← look fun s => s.size p
  if size = nunits then do
    modify fun s => { s with ptr := update s.ptr prevp (s.ptr p) }
    modify fun s => { s with freep := prevp }
    pure (header p 1)
  else do
    let tail := header p (size - nunits)
    modify fun s => { s with size := update s.size p (size - nunits) }
    modify fun s => { s with size := update s.size tail nunits }
    modify fun s => { s with freep := prevp }
    pure (header tail 1)

/-- The loop of `malloc` -/
def mallocLoop (nunits : ℕ) : ℕ → ℕ → ℕ → HeapM ℕ
  | 0, _, _ => throw "malloc does not return"
  | rounds + 1, prevp, p => do
      let size ← look fun s => s.size p
      if size ≥ nunits then takeUnits nunits prevp p
      else do
        let last ← look fun s => decide (p = s.freep)
        if last then do
          let p ← morecore fuel sbrk nunits
          if p = 0 then pure 0
          else do
            let next ← look fun s => s.ptr p
            mallocLoop nunits rounds p next
        else do
          let next ← look fun s => s.ptr p
          mallocLoop nunits rounds p next

/-- `(nbytes + sizeof(Header) - 1)/sizeof(Header) + 1` -/
def unitsFor (nbytes : ℕ) : ℕ := (nbytes + HEADER - 1) % 2 ^ 32 / HEADER + 1

/-- `if((prevp = freep) == 0)`: the list has only `base`, which has no units. -/
def initList : HeapM ℕ := do
  let null ← look fun s => decide (s.freep = 0)
  if null then do
    modify fun s =>
      { s with ptr := update s.ptr base base, size := update s.size base 0, freep := base }
    pure base
  else look fun s => s.freep

def malloc (nbytes : ℕ) : HeapM ℕ := do
  let prevp ← initList base
  let p ← look fun s => s.ptr prevp
  mallocLoop fuel sbrk (unitsFor nbytes) fuel prevp p

end Functions

/-! ## `sbrk` -/

/-- `(char*)-1` -/
abbrev FAILED : ℕ := 2 ^ 32 - 1

/-- Memory at the address that is given, if it is above all that there was, or else -1 -/
def sbrkAt (addr : Option ℕ) (n : ℤ) : HeapM ℕ := do
  let brk ← look fun s => s.brk
  match addr with
  | none => pure FAILED
  | some a =>
    if brk ≤ a ∧ a + n.toNat < 2 ^ 32 then do
      modify fun s => { s with brk := a + n.toNat, got := (a, n.toNat) :: s.got }
      pure a
    else pure FAILED

/-- The size that `growproc` gets from `allocuvm` or `deallocuvm`; 0 is an error.  With `oom`, there
are not enough pages. -/
def growTo (oom : Bool) (n : ℤ) (sz : ℕ) : ℕ :=
  let newsz := ((sz + n) % 2 ^ 32).toNat
  if n > 0 then
    if newsz ≥ KERNBASE then 0 else if newsz < sz then sz else if oom then 0 else newsz
  else if newsz ≥ sz then sz else newsz

/-- `sys_sbrk`.  What is above the new size is given back. -/
def sysSbrk (oom : Bool) (n : ℤ) : HeapM ℕ := do
  let addr ← look fun s => s.brk
  if n = 0 then pure addr
  else
    let sz := growTo oom n addr
    if sz = 0 then do
      modify fun s => { s with got := if n < 0 then [] else s.got }
      pure FAILED
    else do
      modify fun s => { s with
        brk := sz
        got := if addr < sz then (addr, sz - addr) :: s.got
          else s.got.map fun r => (r.1, min r.2 (sz - r.1)) }
      pure addr

/-! ## Calls -/

/-- A call; `env` is what `sbrk` is to do, if it is called. -/
inductive Op (ε : Type)
  | malloc (nbytes : ℕ) (env : ε)
  | free (k : ℕ)

/-- The heap, and the pointers that `malloc` has returned and that have not been freed -/
structure State where
  heap : Heap
  live : List ℕ

/-- A call.  `free k` frees the pointer number `k` of those that can be freed. -/
def runOp {ε : Type} (base fuel : ℕ) (sbrk : ε → ℤ → HeapM ℕ) (s : State) :
    Op ε → Except String State
  | .malloc nbytes env => do
      let (p, heap) ← malloc base fuel (sbrk env) nbytes s.heap
      pure ⟨heap, if p = 0 then s.live else p :: s.live⟩
  | .free k =>
    match s.live[k]? with
    | none => pure s
    | some p => do
        let (_, heap) ← free fuel p s.heap
        pure ⟨heap, s.live.eraseIdx k⟩

def runOps {ε : Type} (base fuel : ℕ) (sbrk : ε → ℤ → HeapM ℕ) :
    State → List (Op ε) → Except String State :=
  List.foldlM (runOp base fuel sbrk)

/-- Before the first call: the process has `brk` bytes, whatever they are. -/
def initial (ptr size : ℕ → ℕ) (brk : ℕ) : State := ⟨⟨ptr, size, 0, brk, []⟩, []⟩

end Xv6Mlfq.Umalloc
