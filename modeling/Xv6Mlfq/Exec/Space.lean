import Xv6Mlfq.Exec.Atomic
import Xv6Mlfq.Vm.Skip

/-!
# `exec` as a step of the memory

`Xv6Mlfq.Vm.PageTable` has `exec` without files and contents: what the reads find is in the label.
Every run of `exec` is one of those steps.

## Main results

* `exec_execvm` — what `exec` does to the address spaces and the free pages, `execvm` does for some
  label.
-/

namespace Xv6Mlfq.Exec

open Wp (wp wp_mono wp_bind wp_pure wp_look wp_throw wp_modify wp_ok wp_of_ok bind_of_ok Moves)
open Vm (PGSIZE Pgdir Mmu DataAddr VmM)
open Mem (Ram RamM Erases wp_onMmu)

variable {α : Type} {r : Ram} {ip : File} {cur : Pgdir} {addr offset off sz : ℕ}

/-! ## Contents -/

/-- If `x` returns, it has changed contents only. -/
abbrev Keeps (x : RamM α) : Prop := Moves (· = ·) Ram.toMmu x

theorem keeps_memmove (pg o : ℕ) (src : List UInt8) : Keeps (memmove pg o src) :=
  .modify fun _ => rfl

theorem keeps_readPage (pg n : ℕ) : Keeps (readPage ip pg off n) := by
  rw [readPage]
  cases readi ip off n with
  | none => exact .pure _
  | some bs => exact (keeps_memmove _ _ _).bind fun _ => .pure _

theorem keeps_uva2ka (va : ℕ) : Keeps (uva2ka cur va) := by
  refine Moves.bind (fun r => wp_onMmu.mpr ((wp_of_ok (Vm.walkpgdir_false va)).mpr rfl)) fun _ => ?_
  refine (Moves.look _).bind fun pte => ?_
  cases pte with
  | none => exact .throw _
  | some pte => exact .ite (.pure _) (.ite (.pure _) (.pure _))

theorem keeps_copyLoop (fuel va : ℕ) (buf : List UInt8) : Keeps (copyLoop cur fuel va buf) := by
  induction fuel generalizing va buf with
  | zero => exact .pure _
  | succ fuel ih =>
    refine Moves.ite ((keeps_uva2ka _).bind fun pa => ?_) (.pure _)
    cases pa with
    | none => exact .pure _
    | some pa => exact (keeps_memmove _ _ _).bind fun _ => ih _ _

theorem keeps_pushArgs (argv : List (List UInt8)) (args : List ℕ) (sp : ℕ) :
    Keeps (pushArgs cur argv args sp) := by
  induction argv generalizing args sp with
  | nil => exact .pure _
  | cons s argv ih =>
    exact .ite (.pure _) ((keeps_copyLoop _ _ _).bind fun _ => .ite (ih _ _) (.pure _))

theorem keeps_pushStack (argv : List (List UInt8)) : Keeps (pushStack cur argv sz) := by
  refine (keeps_pushArgs _ _ _).bind fun res => ?_
  cases res with
  | none => exact .pure _
  | some p => exact (keeps_copyLoop _ _ _).bind fun _ => .ite (.pure _) (.pure _)

/-! ## Segments -/

/-- A run, without the contents -/
theorem wp_erases {x : RamM α} {y : VmM α} (h : Erases x y) :
    wp (fun _ => True) x (fun a r' => y r.toMmu = .ok (a, r'.toMmu)) r := by
  unfold wp
  rw [h r]
  cases x r with
  | error e => trivial
  | ok p => rfl

theorem wp_loadLoop_mmu {fuel i : ℕ} :
    wp (fun _ => True) (loadLoop addr ip offset sz fuel i) (fun ok r' => r'.toMmu = r.toMmu ∧
      Vm.loadLoop addr sz ok fuel i r.toMmu = .ok (ok, r.toMmu)) r := by
  induction fuel generalizing i r with
  | zero => exact wp_pure.mpr ⟨rfl, rfl⟩
  | succ fuel ih =>
    rw [loadLoop]
    by_cases hlt : i < sz
    swap
    · rw [if_neg hlt, wp_pure, Vm.loadLoop, if_neg hlt]
      exact ⟨rfl, rfl⟩
    rw [if_pos hlt, wp_bind, wp_onMmu, wp_of_ok (Vm.walkpgdir_false _)]
    by_cases hthere : (r.pgdir.pde (Vm.pdx ((addr + i) % 2 ^ 32))).isSome = false
    · rw [if_pos hthere]
      exact wp_throw.mpr trivial
    -- the page table is there, so the rest depends on what has been read
    have hvm : ∀ c, Vm.loadLoop addr sz c (fuel + 1) i r.toMmu =
        (if c then Vm.loadLoop addr sz c fuel (i + PGSIZE) else pure false : VmM Bool) r.toMmu := by
      intro c
      rw [Vm.loadLoop, if_pos hlt, bind_of_ok (Vm.walkpgdir_false _), if_neg hthere]
    rw [if_neg hthere, wp_bind, wp_look, wp_bind]
    apply wp_mono (keeps_readPage _ _ _)
    intro ok r₁ hsame
    cases ok with
    | false => exact wp_pure.mpr ⟨hsame.symm, hvm false⟩
    | true =>
      apply wp_mono ih
      rintro ok r' ⟨hsame', hload⟩
      refine ⟨hsame'.trans hsame.symm, (hvm ok).trans ?_⟩
      cases ok with
      | false => rfl
      | true => exact hsame ▸ hload

/-- A program header that has been read, for a segment to load -/
def Proghdr.toVm (ph : Proghdr) (contents : Bool) : Vm.Proghdr :=
  ⟨true, true, .ofNat 32 ph.vaddr, .ofNat 32 ph.filesz, .ofNat 32 ph.memsz, contents⟩

theorem loadSegs_toVm {ph : Proghdr} (hread : readProghdr ip off = some ph) (c : Bool)
    (phs : List Vm.Proghdr) : Vm.loadSegs (ph.toVm c :: phs) sz =
      if ph.memsz < ph.filesz then pure none
      else if (ph.vaddr + ph.memsz) % 2 ^ 32 < ph.vaddr then pure none
      else Vm.allocuvm sz ((ph.vaddr + ph.memsz) % 2 ^ 32) >>= fun sz' =>
        if sz' = 0 then pure none
        else if ph.vaddr % PGSIZE ≠ 0 then pure none
        else Vm.loaduvm ph.vaddr ph.filesz c >>= fun ok =>
          if ok then Vm.loadSegs phs sz' else pure none := by
  obtain ⟨-, hvaddr, hfilesz, hmemsz⟩ := readProghdr_lt hread
  simp only [Vm.loadSegs, Proghdr.toVm, BitVec.lt_def, BitVec.toNat_add, BitVec.toNat_ofNat,
    Nat.mod_eq_of_lt hvaddr, Nat.mod_eq_of_lt hfilesz, Nat.mod_eq_of_lt hmemsz]
  rfl

/-- A segment is one that the label may have. -/
theorem wp_loadSeg_mmu {ph : Proghdr} (hread : readProghdr ip off = some ph) :
    wp (fun _ => True) (loadSeg ip ph sz) (fun res r' => ∃ c, ∀ phs,
      Vm.loadSegs (ph.toVm c :: phs) sz r.toMmu =
        res.elim (.ok (none, r'.toMmu)) fun sz' => Vm.loadSegs phs sz' r'.toMmu) r := by
  simp only [loadSegs_toVm hread]
  rw [loadSeg]
  by_cases hfile : ph.memsz < ph.filesz
  · simp only [if_pos hfile]
    exact wp_pure.mpr ⟨false, fun _ => rfl⟩
  by_cases hwrap : (ph.vaddr + ph.memsz) % 2 ^ 32 < ph.vaddr
  · simp only [if_neg hfile, if_pos hwrap]
    exact wp_pure.mpr ⟨false, fun _ => rfl⟩
  simp only [if_neg hfile, if_neg hwrap]
  rw [wp_bind]
  apply wp_mono (wp_erases (Mem.erases_allocuvm _ _))
  intro sz' r₁ halloc
  simp only [bind_of_ok halloc]
  by_cases hzero : sz' = 0
  · simp only [if_pos hzero]
    exact wp_pure.mpr ⟨false, fun _ => rfl⟩
  by_cases halign : ph.vaddr % PGSIZE ≠ 0
  · simp only [if_neg hzero, if_pos halign]
    exact wp_pure.mpr ⟨false, fun _ => rfl⟩
  simp only [if_neg hzero, if_neg halign, loaduvm, Vm.loaduvm]
  rw [wp_bind]
  apply wp_mono wp_loadLoop_mmu
  rintro ok r₂ ⟨hsame, hload⟩
  cases ok <;> exact wp_pure.mpr ⟨_, fun _ => by rw [bind_of_ok hload, hsame]; rfl⟩

theorem wp_loadSegs_mmu {n : ℕ} :
    wp (fun _ => True) (loadSegs ip n off sz) (fun res r' => ∃ phs,
      Vm.loadSegs phs sz r.toMmu = .ok (res, r'.toMmu)) r := by
  induction n generalizing off sz r with
  | zero => exact wp_pure.mpr ⟨[], rfl⟩
  | succ n ih =>
    rw [loadSegs]
    cases hread : readProghdr ip off with
    | none => exact wp_pure.mpr ⟨[⟨false, false, 0, 0, 0, false⟩], rfl⟩
    | some ph =>
      by_cases htype : ph.type ≠ ELF_PROG_LOAD
      · simp only [if_pos htype]
        apply wp_mono ih
        rintro res r' ⟨phs, h⟩
        exact ⟨⟨true, false, 0, 0, 0, false⟩ :: phs, h⟩
      simp only [if_neg htype]
      rw [wp_bind]
      apply wp_mono (wp_loadSeg_mmu hread)
      rintro res r₁ ⟨c, hseg⟩
      cases res with
      | none => exact wp_pure.mpr ⟨[ph.toVm c], hseg []⟩
      | some sz' =>
        apply wp_mono ih
        rintro res r' ⟨phs, h⟩
        exact ⟨ph.toVm c :: phs, (hseg phs).trans h⟩

/-! ## The system call -/

variable {data : DataAddr} {path : List UInt8} {file : Option File} {argv : List (List UInt8)}
  {s s' t : State}

theorem wp_execStack_mmu :
    wp (fun _ => True) (execStack cur argv sz) (fun res r' => ∃ args, Vm.execStack sz args r.toMmu =
      res.elim (Vm.execBad r'.toMmu) fun p => .ok (some p.1, r'.toMmu)) r := by
  rw [execStack, wp_bind]
  apply wp_mono (wp_erases (Mem.erases_allocuvm _ _))
  intro sz' r₁ halloc
  simp only [Vm.execStack, bind_of_ok halloc]
  by_cases hzero : sz' = 0
  · simp only [if_pos hzero]
    exact wp_pure.mpr ⟨false, rfl⟩
  simp only [if_neg hzero]
  rw [wp_bind]
  apply wp_mono (wp_erases (Mem.erases_onMmu _))
  intro _ r₂ hclear
  simp only [bind_of_ok hclear]
  rw [wp_bind]
  apply wp_mono (keeps_pushStack _ _)
  intro res r₃ hsame
  cases res with
  | none => exact wp_pure.mpr ⟨false, by rw [hsame]; rfl⟩
  | some sp => exact wp_pure.mpr ⟨true, by rw [hsame]; rfl⟩

theorem execvm_eq {phs : List Vm.Proghdr} {m m₁ m₂ : Mmu} {res : Option ℕ} (args : Bool)
    (hsetup : Vm.setupkvm data m = .ok (true, m₁))
    (hsegs : Vm.loadSegs phs 0 m₁ = .ok (res, m₂)) :
    Vm.execvm data ⟨true, phs, args⟩ m =
      res.elim (Vm.execBad m₂) fun sz => Vm.execStack sz args m₂ := by
  rw [Vm.execvm, if_neg (by simp), bind_of_ok hsetup, if_neg (by simp), bind_of_ok hsegs]
  cases res <;> rfl

/-- The result of `exec`, as that of `execvm` and of freeing the old address space -/
def Does (data : DataAddr) (s : State) (ok : Bool) (s' : State) : Prop :=
  ∃ elf, Vm.freeOld s.proc.pgdir (Vm.execvm data elf) s.ram.toMmu =
    .ok (if ok then some (s'.proc.sz, s'.proc.pgdir) else none, s'.ram.toMmu)

theorem Does.fails (elf : Vm.Elf) (h : Vm.execvm data elf s.ram.toMmu = .ok (none, s'.ram.toMmu)) :
    Does data s false s' :=
  ⟨elf, by rw [Vm.freeOld, bind_of_ok h]; rfl⟩

theorem wp_badLocked_mmu (elf : Vm.Elf)
    (h : Vm.execvm data elf s.ram.toMmu = .ok (none, t.ram.toMmu)) :
    wp (fun _ => True) badLocked (Does data s) t := by
  rw [badLocked, wp_bind, iunlockput, wp_balance, wp_bind, end_op, wp_balance, wp_pure]
  exact .fails elf h

theorem wp_execLoad_mmu {elf : Elfhdr} (hproc : t.proc = s.proc)
    (hsetup : Vm.setupkvm data s.ram.toMmu = .ok (true, t.ram.toMmu)) :
    wp (fun _ => True) (execLoad path ip elf argv) (Does data s) t := by
  rw [execLoad, wp_bind, wp_onRam]
  apply wp_mono wp_loadSegs_mmu
  rintro res r₁ ⟨phs, hsegs⟩
  cases res with
  | none =>
    rw [wp_bind, wp_onRam]
    apply wp_mono (wp_erases Mem.erases_freevm)
    intro _ r₂ hfree
    exact wp_badLocked_mmu ⟨true, phs, false⟩ ((execvm_eq _ hsetup hsegs).trans (bind_of_ok hfree))
  | some sz =>
    rw [wp_bind, iunlockput, wp_balance, wp_bind, end_op, wp_balance, wp_bind, wp_look, wp_bind,
      wp_onRam]
    apply wp_mono wp_execStack_mmu
    rintro res r₂ ⟨args, hstack⟩
    have hexecvm := (execvm_eq args hsetup hsegs).trans hstack
    cases res with
    | none =>
      rw [wp_bind, wp_onRam]
      apply wp_mono (wp_erases Mem.erases_freevm)
      intro _ r₃ hfree
      exact wp_pure.mpr (.fails _ (hexecvm.trans (bind_of_ok hfree)))
    | some p =>
      dsimp only
      rw [commit, wp_bind, wp_look, wp_bind, wp_look, wp_bind, wp_modify, wp_bind, wp_onRam,
        wp_modify, wp_bind, wp_onRam]
      apply wp_mono (wp_erases Mem.erases_freevm)
      intro _ r₃ hfree
      refine wp_pure.mpr ⟨⟨true, phs, args⟩, ?_⟩
      rw [Vm.freeOld, bind_of_ok hexecvm, ← hproc]
      exact bind_of_ok (f := fun _ => pure (some (p.1, r₂.pgdir))) hfree

theorem wp_exec_mmu : wp (fun _ => True) (exec data path file argv) (Does data s) s := by
  rw [exec, wp_bind, begin_op, wp_balance, wp_bind]
  cases file with
  | none =>
    rw [namei, wp_pure]
    rw [wp_bind, end_op, wp_balance, wp_pure]
    exact .fails ⟨false, [], false⟩ rfl
  | some ip =>
    rw [namei, wp_bind, wp_balance, wp_pure]
    rw [wp_bind, ilock, wp_balance]
    cases hread : readElfhdr ip with
    | none => exact wp_badLocked_mmu ⟨false, [], false⟩ rfl
    | some elf =>
      dsimp only
      by_cases hmagic : elf.magic ≠ ELF_MAGIC
      · rw [if_pos hmagic]
        exact wp_badLocked_mmu ⟨false, [], false⟩ rfl
      rw [if_neg hmagic, wp_bind, wp_onRam]
      apply wp_mono (wp_erases (Mem.erases_setupkvm data))
      intro ok r₁ hsetup
      cases ok with
      | false =>
        apply wp_badLocked_mmu ⟨true, [], false⟩
        rw [Vm.execvm, if_neg (by simp), bind_of_ok hsetup]
        rfl
      | true => exact wp_execLoad_mmu rfl hsetup

/-- **`exec` is a step of the memory**: whatever the file and the arguments are, there is a label
for which `execvm` makes the same address space and leaves the same free pages. -/
theorem exec_execvm {ok : Bool} (hrun : exec data path file argv s = .ok (ok, s')) :
    ∃ elf, Vm.freeOld s.proc.pgdir (Vm.execvm data elf) s.ram.toMmu =
      .ok (if ok then some (s'.proc.sz, s'.proc.pgdir) else none, s'.ram.toMmu) :=
  wp_ok wp_exec_mmu hrun

end Xv6Mlfq.Exec
