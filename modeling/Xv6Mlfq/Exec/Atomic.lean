import Xv6Mlfq.Exec.Stack
import Xv6Mlfq.Vm.Enough

/-!
# `exec` is all or nothing

Whatever is in the file, and wherever `kalloc` fails: `exec` comes to no panic; if it returns -1,
the process is as it was and every page it took is free again; if it returns 0, the program is in
the new address space.  In both cases `begin_op` and `end_op`, and the lock and the reference of the
inode, are in balance.

## Main definitions

* `State.space s` — the address space of the process, with the free pages.
* `imageSize segs` — the size of the process that `exec` makes.

## Main results

* `wp_exec` — the specification of `exec`.
* `wp_exec_room` — with enough memory, `exec` succeeds.
* `exec_all_or_nothing` — its consequences for arguments shorter than the new address space.
-/

namespace Xv6Mlfq.Exec

open Wp (wp wp_mono wp_bind wp_pure wp_look wp_modify wp_and)
open Vm (PGSIZE KERNBASE NPDENTRIES NUSER Mmu DataAddr Single)
open Mem (Ram RamM NonNull NewSpace Room pages)

variable {F : String → Prop} {s s' : State} {ip : File} {argv : List (List UInt8)}

/-! ## Programs on the memory -/

theorem wp_onRam {α : Type} {x : RamM α} {Q : α → State → Prop} :
    wp F (onRam x) Q s ↔ wp F x (fun a r => Q a { s with ram := r }) s.ram := by
  unfold wp onRam
  cases x s.ram <;> rfl

theorem wp_balance {f : Balance → Balance} {Q : Unit → State → Prop} :
    wp F (balance f) Q s ↔ Q () { s with bal := f s.bal } := wp_modify

/-- The address space of the process, with the free pages -/
def State.space (s : State) : Ram := ⟨⟨s.proc.pgdir, s.ram.free⟩, s.ram.mem⟩

/-- The size of the process that `exec` makes: the image, the guard and the stack -/
def imageSize (segs : List Proghdr) : ℕ := (pages (endOf segs 0) + 2) * PGSIZE

/-! ## The label `bad` -/

/-- The pages that are neither free nor in the process have kept their contents. -/
def Untouched (s : State) (mem : ℕ → ℕ → UInt8) : Prop :=
  ∀ x, s.space.total x = 0 → mem x = s.ram.mem x

/-- The free pages are as they were in `s`, and so is the process.  If `tame` no other page has
changed. -/
structure Unchanged (tame : Prop) (s s' : State) : Prop where
  proc : s'.proc = s.proc
  count : ∀ x, s'.ram.free.count x = s.ram.free.count x
  mem : tame → Untouched s s'.ram.mem

/-- The address space at work has been made of free pages. -/
structure Made (tame : Prop) (s : State) (r : Ram) : Prop where
  total : ∀ x, r.total x = s.ram.free.count x
  mem : tame → Untouched s r.mem

variable {tame : Prop}

variable {r : Ram} {t : State} {path : List UInt8}

theorem Made.new (h : NewSpace s.ram r) : Made True s r :=
  ⟨h.total, fun _ x _ => by rw [h.mem]⟩

theorem Made.within {r' : Ram} (h : Made True s r) (htotal : ∀ x, r'.total x = r.total x)
    (h' : tame → Mem.Within r r') : Made tame s r' := by
  refine ⟨fun x => (htotal x).trans (h.total x), ?_⟩
  intro htame x hx
  have hr : r.total x = 0 := by
    rw [h.total]
    exact Nat.eq_zero_of_add_eq_zero_right hx
  rw [(h' htame).mem x hr, h.mem trivial x hx]

/-- The pages of a new address space go back to where they came from. -/
theorem wp_bad (hs : Single s.space.toMmu) (hproc : t.proc = s.proc) (hmade : Made tame s t.ram) :
    wp F (onRam Mem.freevm) (fun _ s' => Unchanged tame s s' ∧ s'.bal = t.bal) t := by
  have htotal := hmade.total
  have hsingle : Single t.ram.toMmu := by
    refine ⟨fun x => ?_, ?_⟩
    · have hone := hs.le_one x
      rw [htotal]
      simp only [Mmu.total, State.space] at hone
      omega
    · have hzero := hs.zero
      rw [htotal]
      simp only [Mmu.total, State.space] at hzero
      omega
  apply wp_onRam.mpr
  apply wp_mono (Mem.wp_freevm (.of_single hsingle))
  intro _ r' hrel
  refine ⟨⟨hproc, fun x => (hrel.count x).trans (htotal x), ?_⟩, rfl⟩
  intro htame x hx
  rw [← hmade.mem htame x hx]
  apply hrel.mem
  rw [← List.count_eq_zero, hrel.count, htotal]
  exact Nat.eq_zero_of_add_eq_zero_right hx

/-! ## The commit -/

/-- The process is in the address space that was at work, and the old one is gone. -/
structure Committed (sz sp : ℕ) (s t s' : State) : Prop where
  bal : s'.bal = t.bal
  pgdir : s'.proc.pgdir = t.ram.pgdir
  size : s'.proc.sz = sz
  esp : s'.proc.esp = sp
  total : ∀ x, s'.space.total x = s.space.total x
  mem : Untouched s s'.ram.mem
  user : ∀ k < NUSER, s'.space.user k = t.ram.user k

/-- The pages of the old address space are freed, those of the new one are not. -/
theorem wp_commit {entry sz sp : ℕ} (hs : Single s.space.toMmu)
    (hproc : t.proc = s.proc) (hmade : Made True s t.ram) :
    wp F (commit path entry sz sp) (fun ok s' => ok = true ∧ Committed sz sp s t s') t := by
  rw [commit, wp_bind, wp_look, wp_bind, wp_look, wp_bind, wp_modify, wp_bind, wp_onRam, wp_modify,
    wp_bind, wp_onRam]
  have hnull : NonNull t.proc.pgdir := by
    rw [hproc]
    exact NonNull.of_single (r := s.space) hs
  apply wp_mono (Mem.wp_freevm hnull)
  intro _ r' hrel
  apply wp_pure.mpr
  have hcount : ∀ x, r'.free.count x + t.ram.pgdir.refs x = s.space.total x := by
    intro x
    have hx := hmade.total x
    rw [hrel.count]
    simp only [Mmu.total, State.space, hproc] at hx ⊢
    omega
  have hsingle : Single ⟨t.ram.pgdir, r'.free⟩ := hs.of_total hcount
  refine ⟨rfl, rfl, rfl, rfl, rfl, hcount, ?_, ?_⟩
  · intro x hx
    have hfree : r'.free.count x = 0 := by
      have := hcount x
      omega
    rw [← hmade.mem trivial x hx]
    exact hrel.mem x (List.count_eq_zero.mp hfree)
  intro k hk
  apply Mem.user_congr (by rfl)
  intro e he
  exact hrel.mem _ (hsingle.not_free hk he)

/-! ## `exec` -/

/-- The process runs the program: the pages below the guard are those of the image, as they were
when it had been loaded, and the arguments are on the stack. -/
structure Started (ip : File) (segs : List Proghdr) (argv : List (List UInt8)) (s s' : State) :
    Prop where
  total : ∀ x, s'.space.total x = s.space.total x
  mem : Untouched s s'.ram.mem
  size : s'.proc.sz = imageSize segs
  stacked : Stacked (pages (endOf segs 0)) s'.space.toMmu
  image : ∃ r₁, Loaded ip segs (endOf segs 0) r₁ ∧
    ∀ k < pages (endOf segs 0), s'.space.user k = r₁.user k
  stack : ∃ args, Arranged (pages (endOf segs 0)) argv s'.proc.esp args s'.space

/-- The arguments fit, whatever program the file holds. -/
def FitsFile (file : Option File) (argv : List (List UInt8)) : Prop :=
  ∀ ip segs, file = some ip → segments ip = some segs → Fits argv (pages (endOf segs 0))

/-- What `exec` does: nothing, or all of it -/
def Outcome (file : Option File) (argv : List (List UInt8)) (s : State) (ok : Bool) (s' : State) :
    Prop :=
  s'.bal = s.bal ∧ (ok = false → Unchanged (FitsFile file argv) s s') ∧
    (ok = true → ∃ ip segs, file = some ip ∧ segments ip = some segs ∧ Started ip segs argv s s')

theorem wp_badLocked (hun : Unchanged True s t)
    (hbal : t.bal = ⟨s.bal.ops + 1, s.bal.locks + 1, s.bal.refs + 1⟩) (file : Option File) :
    wp F badLocked (Outcome file argv s) t := by
  rw [badLocked, wp_bind, iunlockput, wp_balance, wp_bind, end_op, wp_balance, wp_pure]
  refine ⟨?_, fun _ => ⟨hun.proc, hun.count, fun _ => hun.mem trivial⟩, nofun⟩
  simp only [hbal, add_sub_cancel_right]

/-- A new address space has the image of no segments. -/
theorem Loaded.of_new (hs : Single s.space.toMmu) (hnew : NewSpace s.ram r) : Loaded ip [] 0 r := by
  have hcount : ∀ x, r.total x ≤ s.space.total x := fun x => by
    rw [hnew.total]
    exact Nat.le_add_right _ _
  refine ⟨⟨fun x => (hcount x).trans (hs.le_one x), ?_⟩, hnew.kernel, by norm_num, nofun,
    fun k hk _ => hnew.user k hk, nofun, nofun⟩
  exact Nat.eq_zero_of_le_zero ((hcount 0).trans hs.zero.le)

/-- `exec` from `setupkvm` on -/
theorem wp_execLoad {elf : Elfhdr} (hs : Single s.space.toMmu)
    (hread : readElfhdr ip = some elf) (hproc : t.proc = s.proc) (hnew : NewSpace s.ram t.ram)
    (hbal : t.bal = ⟨s.bal.ops + 1, s.bal.locks + 1, s.bal.refs + 1⟩)
    (hmode : F "trap" ∨ FitsFile (some ip) argv) :
    wp F (execLoad path ip elf argv) (Outcome (some ip) argv s) t := by
  rw [execLoad, wp_bind, wp_onRam]
  apply wp_mono (wp_loadSegs (.of_new hs hnew))
  rintro res r₁ ⟨hwithin₁, hres⟩
  have hmade₁ : Made True s r₁ := (Made.new hnew).within hwithin₁.total fun _ => hwithin₁
  cases res with
  | none =>
    apply wp_bind.mpr
    apply wp_mono (wp_bad (t := { t with ram := r₁ }) hs hproc hmade₁)
    rintro _ t' ⟨hun, hbal'⟩
    exact wp_badLocked hun (hbal'.trans hbal) (some ip)
  | some sz =>
    obtain ⟨segs, hsegs, hend, hl⟩ := hres sz rfl
    have hsegments : segments ip = some segs := by
      rw [segments, hread]
      exact hsegs
    rw [List.nil_append] at hl
    subst hend
    rw [wp_bind, iunlockput, wp_balance, wp_bind, end_op, wp_balance, wp_bind, wp_look, wp_bind,
      wp_onRam]
    have hfits : FitsFile (some ip) argv → Fits argv (pages (endOf segs 0)) :=
      fun h => h ip segs rfl hsegments
    apply wp_mono (wp_execStack hl (hmode.imp_right hfits))
    rintro res r₃ ⟨htotal₃, hwithin₃, hstack⟩
    have hbal' : (⟨t.bal.ops - 1, t.bal.locks - 1, t.bal.refs - 1⟩ : Balance) = s.bal := by
      simp only [hbal, add_sub_cancel_right]
    cases res with
    | none =>
      have hmade₃ : Made (FitsFile (some ip) argv) s r₃ :=
        hmade₁.within htotal₃ fun h => hwithin₃ (hfits h)
      apply wp_bind.mpr
      apply wp_mono (wp_bad (t := ⟨r₃, t.proc, _⟩) hs hproc hmade₃)
      rintro _ t' ⟨hun, hsame⟩
      apply wp_pure.mpr
      exact ⟨hsame.trans hbal', fun _ => hun, nofun⟩
    | some p =>
      obtain ⟨sz', sp⟩ := p
      obtain ⟨hsize, hwithin, hst, hkept, args, harr⟩ := hstack sz' sp rfl
      have hmade₃ : Made True s r₃ := hmade₁.within htotal₃ fun _ => hwithin
      apply wp_mono (wp_commit (t := ⟨r₃, t.proc, _⟩) hs hproc hmade₃)
      rintro _ s' ⟨rfl, hc⟩
      refine ⟨hc.bal.trans hbal', nofun, fun _ => ⟨ip, segs, rfl, hsegments, ?_⟩⟩
      have hpgdir : s'.space.pgdir = r₃.pgdir := hc.pgdir
      have hmax : pages (endOf segs 0) ≤ NUSER := Mem.pages_le hl.lt.le
      refine ⟨hc.total, hc.mem, hc.size.trans hsize, ?_, ⟨r₁, hl, ?_⟩, args, ?_⟩
      · refine ⟨hs.of_total hc.total, ?_, hst.lt, ?_, ?_, ?_, ?_⟩
        all_goals rw [hpgdir]
        · exact hst.kernel
        · exact hst.image
        · exact hst.guard
        · exact hst.stack
        · exact hst.above
      · intro k hk
        rw [hc.user k (by omega), hkept k hk]
      · rw [hc.esp]
        exact harr.congr hst.lt fun x hx => byte_congr (hc.user _ (by lia))

/-- The specification of `exec`: it traps only if the arguments do not fit. -/
theorem wp_exec {data : DataAddr} {file : Option File}
    (hs : Single s.space.toMmu) (hmode : F "trap" ∨ FitsFile file argv) :
    wp F (exec data path file argv) (Outcome file argv s) s := by
  rw [exec, wp_bind, begin_op, wp_balance, wp_bind]
  cases file with
  | none =>
    rw [namei, wp_pure]
    rw [wp_bind, end_op, wp_balance, wp_pure]
    refine ⟨?_, fun _ => ⟨rfl, fun _ => rfl, fun _ _ _ => rfl⟩, nofun⟩
    simp only [add_sub_cancel_right]
  | some ip =>
    rw [namei, wp_bind, wp_balance, wp_pure]
    rw [wp_bind, ilock, wp_balance]
    cases hread : readElfhdr ip with
    | none =>
      apply wp_badLocked
      · exact ⟨rfl, fun _ => rfl, fun _ _ _ => rfl⟩
      · rfl
    | some elf =>
      dsimp only
      by_cases hmagic : elf.magic = ELF_MAGIC
      swap
      · rw [if_pos hmagic]
        apply wp_badLocked
        · exact ⟨rfl, fun _ => rfl, fun _ _ _ => rfl⟩
        · rfl
      rw [if_neg (not_not.mpr hmagic), wp_bind, wp_onRam]
      apply wp_mono Mem.wp_setupkvm
      rintro ok r₁ ⟨hfalse, htrue⟩
      by_cases hok : ok = true
      · rw [if_pos hok]
        exact wp_execLoad hs hread rfl (htrue hok).1 rfl hmode
      · rw [if_neg hok]
        apply wp_badLocked
        · have hfail := hfalse (Bool.eq_false_of_not_eq_true hok)
          refine ⟨rfl, hfail.count, ?_⟩
          intro _ x hx
          have hnot : s.ram.free.count x = 0 := Nat.eq_zero_of_add_eq_zero_right hx
          exact hfail.mem x (List.count_eq_zero.mp hnot)
            (List.count_eq_zero.mp ((hfail.count x).trans hnot))
        · rfl

/-! ## Success -/

variable {cur : Vm.Pgdir} {g sp : ℕ} {args : List ℕ}

/-- What a string takes of the stack -/
theorem pushSp_room (len left : ℕ) (hlo : g * PGSIZE + PGSIZE + (len + 1 + 3 + left) ≤ sp)
    (hhi : sp < 2 ^ 32) :
    g * PGSIZE + PGSIZE + left ≤ pushSp sp len ∧ pushSp sp len + (len + 1) ≤ sp := by
  rw [pushSp]
  lia

/-- `copyout` in the stack page does not fail. -/
theorem wp_copyout_room {buf : List UInt8} (h : Stacked g r.toMmu)
    (hlo : g * PGSIZE + PGSIZE ≤ sp) (hhi : sp + buf.length ≤ g * PGSIZE + PGSIZE + PGSIZE)
    (hlen : 0 < buf.length) :
    wp F (copyout cur sp buf) (fun ok r' => ok = true ∧ r'.toMmu = r.toMmu) r := by
  obtain ⟨pa, hstack⟩ := h.stack
  have hpage : (g + 1) * PGSIZE = g * PGSIZE + PGSIZE := Nat.succ_mul _ _
  rw [← hpage] at hlo hhi
  apply wp_mono (wp_copyout_in h.single h.lt_nuser hstack rfl hlo hhi hlen)
  rintro ok r' ⟨hok, hstored⟩
  exact ⟨hok, hstored.wrote.mmu⟩

theorem wp_pushArgs_room {left : ℕ} (h : Stacked g r.toMmu)
    (hlo : g * PGSIZE + PGSIZE + (argvSize argv + 3 * argv.length + left) ≤ sp)
    (hhi : sp ≤ g * PGSIZE + PGSIZE + PGSIZE) (hargs : args.length + argv.length ≤ MAXARG) :
    wp F (pushArgs cur argv args sp) (fun res r' => r'.toMmu = r.toMmu ∧ ∃ sp' args',
      res = some (sp', args') ∧ args'.length = args.length + argv.length ∧
      g * PGSIZE + PGSIZE + left ≤ sp' ∧ sp' ≤ sp) r := by
  induction argv generalizing args sp r with
  | nil =>
    apply wp_pure.mpr
    exact ⟨rfl, sp, args, rfl, rfl, by simpa [argvSize] using hlo, le_rfl⟩
  | cons s argv ih =>
    rw [argvSize_cons, List.length_cons] at hlo
    rw [List.length_cons] at hargs
    have hlen : (s ++ [0]).length = s.length + 1 := List.length_append
    have hsp : sp < 2 ^ 32 := by
      have hlt := h.lt
      lia
    obtain ⟨hroom, hfits⟩ := pushSp_room (g := g) s.length (argvSize argv + 3 * argv.length + left)
      (by omega) hsp
    have hroom₀ : g * PGSIZE + PGSIZE ≤ pushSp sp s.length := le_trans (Nat.le_add_right _ _) hroom
    rw [pushArgs, if_neg (by omega)]
    rw [wp_bind, ← pushSp]
    apply wp_mono (wp_copyout_room h hroom₀ (by rw [hlen]; exact hfits.trans hhi) (by omega))
    rintro ok r₁ ⟨hok, hsame⟩
    have hargs' : (args ++ [pushSp sp s.length]).length = args.length + 1 := List.length_append
    rw [if_pos hok]
    apply wp_mono (ih (hsame ▸ h) hroom (le_trans (Nat.le_of_add_right_le hfits) hhi) (by omega))
    rintro res r' ⟨hsame', sp', args', hres, hlen', hlo', hhi'⟩
    exact ⟨hsame'.trans hsame, sp', args', hres, by rw [hlen', hargs', List.length_cons]; omega,
      hlo', hhi'.trans (Nat.le_of_add_right_le hfits)⟩

/-- Arguments that take less than a page are pushed. -/
def Short (argv : List (List UInt8)) : Prop :=
  argvSize argv + 3 * argv.length + 4 * (argv.length + 4) ≤ PGSIZE ∧ argv.length ≤ MAXARG

instance (argv : List (List UInt8)) : Decidable (Short argv) := by
  unfold Short
  infer_instance

theorem wp_pushStack_room (h : Stacked g r.toMmu) (hshort : Short argv) :
    wp F (pushStack cur argv ((g + 2) * PGSIZE)) (fun res _ => res ≠ none) r := by
  obtain ⟨hroom, hargc⟩ := hshort
  have htop : (g + 2) * PGSIZE = g * PGSIZE + PGSIZE + PGSIZE := by
    rw [Nat.add_mul]
    norm_num
  rw [htop, pushStack, wp_bind]
  apply wp_mono (wp_pushArgs_room h (Nat.add_le_add_left hroom _) le_rfl
    (by rw [List.length_nil]; omega))
  rintro _ r₁ ⟨hsame, sp, args, rfl, hlen, hlo, hhi⟩
  rw [List.length_nil, Nat.zero_add] at hlen
  have hwords : ∀ a, (([0xffffffff, args.length, a] ++ args ++ [0]).flatMap uintBytes).length =
      4 * (args.length + 4) := by
    intro a
    rw [length_uints]
    simp only [List.length_append, List.length_cons, List.length_nil]
    omega
  have hframe := (pushed_frame (n := args.length) h.lt (le_trans (Nat.le_add_right _ _) hlo) hhi
    (by omega)).2.1
  rw [← hframe, ← hlen] at hlo
  rw [← hframe] at hhi
  rw [wp_bind]
  apply wp_mono (wp_copyout_room (hsame ▸ h) (Nat.le_of_add_le_add_right hlo)
    (by rw [hwords]; exact hhi) (by rw [hwords]; omega))
  rintro ok r' ⟨hok, _⟩
  rw [if_pos hok, wp_pure]
  exact Option.some_ne_none _

theorem wp_execStack_room {segs : List Proghdr} {sz : ℕ} (h : Loaded ip segs sz r)
    (hlt : (pages sz + 2) * PGSIZE < KERNBASE) (hroom : Room 2 r.toMmu) (hshort : Short argv) :
    wp F (execStack cur argv sz) (fun res _ => res ≠ none) r := by
  have hnew : (pages sz * PGSIZE + 2 * PGSIZE) % 2 ^ 32 = (pages sz + 2) * PGSIZE := by lia
  have hold : pages sz * PGSIZE ≤ KERNBASE := by lia
  have hle : pages sz * PGSIZE ≤ (pages sz + 2) * PGSIZE := Nat.mul_le_mul_right _ (by omega)
  have hnone : ∀ j < NUSER, pages (pages sz * PGSIZE) ≤ j → r.pgdir.entry j = none := by
    rw [pages_mul]
    exact h.above
  have hroom' : Room (0 + (pages ((pages sz + 2) * PGSIZE) - pages (pages sz * PGSIZE)))
      r.toMmu := by
    rw [pages_mul, pages_mul, Nat.add_sub_cancel_left, Nat.zero_add]
    exact hroom
  rw [execStack, Mem.pgroundup_pages h.lt.le, hnew, wp_bind]
  apply wp_mono (wp_and (Mem.wp_allocuvm_room (F := F) hle hlt
    (fun j hj hj' => hnone j (hj'.trans_le (Mem.pages_le hlt.le)) hj) hroom')
    (Mem.wp_allocuvm (F := F) h.single hold hnone))
  rintro _ r₁ ⟨⟨rfl, -⟩, halloc⟩
  have hpos : (pages sz + 2) * PGSIZE ≠ 0 := by norm_num
  obtain ⟨-, -, hg⟩ := halloc.resolve_left fun hfail => hpos hfail.1
  rw [pages_mul, pages_mul] at hg
  have hguardAddr : (pages sz + 2) * PGSIZE - 2 * PGSIZE = pages sz * PGSIZE := by
    rw [← Nat.sub_mul, Nat.add_sub_cancel]
  obtain ⟨pa, -, hguard, -⟩ := hg.fresh (pages sz) le_rfl (by omega)
  rw [if_neg hpos, wp_bind, hguardAddr]
  apply wp_mono (wp_clearpteu hguard)
  rintro _ r₂ ⟨_, htotal₂, hentry⟩
  rw [wp_bind]
  apply wp_mono (wp_pushStack_room (h.stacked hlt hg htotal₂ hentry) hshort)
  intro res r' hres
  cases res with
  | none => exact absurd rfl hres
  | some sp => exact wp_pure.mpr (Option.some_ne_none _)

theorem Short.fits (h : Short argv) (g : ℕ) : Fits argv g := by
  have hsize := h.1
  rw [Fits]
  lia

/-- All segments have been loaded, and there is memory for the stack. -/
def Ready (res : Option ℕ) (r : Ram) : Prop :=
  ∃ sz, res = some sz ∧ (pages sz + 2) * PGSIZE < KERNBASE ∧ Room 2 r.toMmu

theorem wp_execLoad_room {elf : Elfhdr} (hs : Single s.space.toMmu) (hproc : t.proc = s.proc)
    (hnew : NewSpace s.ram t.ram) (hloaded : Loaded ip [] 0 t.ram)
    (hload : wp F (loadSegs ip elf.phnum elf.phoff 0) Ready t.ram) (hshort : Short argv) :
    wp F (execLoad path ip elf argv) (fun ok _ => ok = true) t := by
  rw [execLoad, wp_bind, wp_onRam]
  apply wp_mono (wp_and hload (wp_loadSegs (F := F) hloaded))
  rintro _ r₁ ⟨⟨sz, rfl, hlt, hroom⟩, hwithin₁, hres⟩
  obtain ⟨segs, -, -, hl⟩ := hres sz rfl
  rw [wp_bind, iunlockput, wp_balance, wp_bind, end_op, wp_balance, wp_bind, wp_look,
    wp_bind, wp_onRam]
  apply wp_mono (wp_and (wp_execStack_room (F := F) hl hlt hroom hshort)
    (wp_execStack (F := F) hl (.inr (hshort.fits _))))
  rintro res r₂ ⟨hres, htotal, hwithin, _⟩
  cases res with
  | none => exact absurd rfl hres
  | some p =>
    have hmade : Made True s r₂ := ((Made.new hnew).within hwithin₁.total fun _ => hwithin₁).within
      htotal fun _ => hwithin (hshort.fits _)
    apply wp_mono (wp_commit (t := ⟨r₂, t.proc, _⟩) hs hproc hmade)
    rintro ok s' ⟨hok, _⟩
    exact hok

/-- With enough memory, `exec` succeeds if the segments can be loaded. -/
theorem wp_exec_room {data : DataAddr} {elf : Elfhdr} {n : ℕ} (hs : Single s.space.toMmu)
    (hread : readElfhdr ip = some elf) (hmagic : elf.magic = ELF_MAGIC)
    (hload : ∀ r, Loaded ip [] 0 r → Room n r.toMmu →
      wp F (loadSegs ip elf.phnum elf.phoff 0) Ready r)
    (hfree : NPDENTRIES + n + 1 < s.ram.free.length) (hshort : Short argv) :
    wp F (exec data path (some ip) argv) (fun ok _ => ok = true) s := by
  rw [exec, wp_bind, begin_op, wp_balance, wp_bind, namei, wp_bind, wp_balance, wp_pure]
  rw [wp_bind, ilock, wp_balance, hread]
  dsimp only
  rw [if_neg (not_not.mpr hmagic), wp_bind, wp_onRam]
  apply wp_mono (wp_and (Mem.wp_setupkvm_room (F := F) hfree) (Mem.wp_setupkvm (F := F)))
  rintro ok r₁ ⟨⟨rfl, hroom⟩, -, hnew⟩
  have hloaded : Loaded ip [] 0 r₁ := .of_new hs (hnew rfl).1
  rw [if_pos rfl]
  exact wp_execLoad_room hs rfl (hnew rfl).1 hloaded (hload r₁ hloaded hroom) hshort

/-! ## All or nothing -/

/-- The process finds the image of the program. -/
theorem Started.byte {segs : List Proghdr} (h : Started ip segs argv s s') {va : ℕ}
    (hva : va / PGSIZE < pages (endOf segs 0)) :
    byte s'.space va = some (Exec.image ip segs va) := by
  obtain ⟨r₁, hl, huser⟩ := h.image
  rw [← hl.byte va hva]
  exact byte_congr (huser _ hva)

/-- A segment that no other one overlaps is in the memory of the process. -/
theorem Started.segment {before after : List Proghdr} {seg : Proghdr}
    (h : Started ip (before ++ seg :: after) argv s s')
    (halone : ∀ seg' ∈ before ++ after, ∀ va, ¬ (seg.Covers va ∧ seg'.Covers va)) {o : ℕ}
    (ho : o < seg.memsz) : Exec.byte s'.space (seg.vaddr + o) =
      some (if o < seg.filesz then ip.bytes.getD (seg.off + o) 0 else 0) := by
  obtain ⟨r₁, hl, -⟩ := h.image
  have hfits := hl.fits
  have hcovers : seg.Covers (seg.vaddr + o) := ⟨by omega, by omega⟩
  have hseg := (hfits seg (by simp)).2.1
  have hsize : ∀ s' ∈ before ++ after, s'.filesz ≤ s'.memsz := by
    intro s' hs'
    rcases List.mem_append.mp hs' with hs' | hs'
    · exact (hfits s' (List.mem_append_left _ hs')).1
    · exact (hfits s' (List.mem_append_right _ (List.mem_cons_of_mem _ hs'))).1
  have hpage : (seg.vaddr + o) / PGSIZE < pages (endOf (before ++ seg :: after) 0) :=
    Mem.lt_pages.mpr ((Nat.div_mul_le_self _ PGSIZE).trans_lt (by omega))
  rw [h.byte hpage, image_alone hcovers hsize fun s' hs' hc => halone s' hs' _ ⟨hcovers, hc⟩,
    Nat.add_sub_cancel_left]
  simp only [Nat.add_lt_add_iff_left]

/-- **`exec` is all or nothing**, for every file and every number of free pages, if the arguments
are shorter than the new address space. -/
theorem exec_all_or_nothing (data : DataAddr) (path : List UInt8) {file : Option File}
    (hs : Single s.space.toMmu)
    (hargv : ∀ ip segs, file = some ip → segments ip = some segs → argvSize argv < imageSize segs) :
    ∃ ok s', exec data path file argv s = .ok (ok, s') ∧ s'.bal = s.bal ∧
      (ok = false → s'.proc = s.proc ∧ s'.ram.free.Perm s.ram.free) ∧
      (ok = true → ∃ ip segs, file = some ip ∧ segments ip = some segs ∧
        ∀ before seg after, segs = before ++ seg :: after →
          (∀ seg' ∈ before ++ after, ∀ va, ¬ (seg.Covers va ∧ seg'.Covers va)) →
          (∀ o < seg.filesz, ∃ b, ip.bytes[seg.off + o]? = some b ∧
            byte s'.space (seg.vaddr + o) = some b) ∧
          ∀ o, seg.filesz ≤ o → o < seg.memsz → byte s'.space (seg.vaddr + o) = some 0) := by
  have hexec : wp (fun _ => False) (exec data path file argv) (Outcome file argv s) s := by
    apply wp_exec hs
    right
    intro ip segs hfile hsegs
    have hlt := hargv ip segs hfile hsegs
    rw [imageSize] at hlt
    rw [Fits]
    lia
  obtain ⟨ok, s', hrun, hbal, hfalse, htrue⟩ := Wp.exists_ok hexec
  refine ⟨ok, s', hrun, hbal, ?_, ?_⟩
  · intro hok
    have hun := hfalse hok
    exact ⟨hun.proc, List.perm_iff_count.mpr hun.count⟩
  · intro hok
    obtain ⟨ip, segs, hfile, hsegs, hstart⟩ := htrue hok
    refine ⟨ip, segs, hfile, hsegs, ?_⟩
    rintro before seg after rfl halone
    obtain ⟨r₁, hl, -⟩ := hstart.image
    obtain ⟨hle, -, hoff⟩ := hl.fits seg (by simp)
    refine ⟨?_, ?_⟩
    · intro o ho
      have hin : seg.off + o < ip.bytes.length := by
        omega
      refine ⟨ip.bytes[seg.off + o], List.getElem?_eq_getElem hin, ?_⟩
      rw [hstart.segment halone (by omega), if_pos ho, List.getD_eq_getElem?_getD,
        List.getElem?_eq_getElem hin, Option.getD_some]
    · intro o hge ho
      rw [hstart.segment halone ho, if_neg (by omega)]

/-- A program of one segment: four bytes at address 0, in a segment of eight -/
def jumpSelf : File where
  bytes := [0x7F, 0x45, 0x4C, 0x46, 1, 1, 1, 0, 0, 0, 0, 0, 0, 0, 0, 0, 2, 0, 3, 0, 1, 0, 0, 0, 0,
    0, 0, 0, 52, 0, 0, 0, 0, 0, 0, 0, 0, 0, 0, 0, 52, 0, 32, 0, 1, 0, 0, 0, 0, 0, 0, 0, 1, 0, 0,
    0, 84, 0, 0, 0, 0, 0, 0, 0, 0, 0, 0, 0, 4, 0, 0, 0, 8, 0, 0, 0, 7, 0, 0, 0, 0, 16, 0, 0, 0xEB,
    0xFE, 0x90, 0x90]
  size_lt := by decide

theorem segments_jumpSelf : segments jumpSelf = some [⟨1, 84, 0, 4, 8⟩] := by decide +kernel

/-- A process that has room -/
def roomy : State where
  ram := Mem.roomy
  proc := ⟨Mem.roomy.pgdir, PGSIZE, 0, PGSIZE, []⟩
  bal := ⟨0, 0, 0⟩

theorem roomy_free {n : ℕ} (hn : n < 4) : NPDENTRIES + n + 1 < roomy.ram.free.length := by
  show _ < Vm.smallFree.length
  rw [Vm.smallFree_length]
  lia

theorem wp_loadSegs_jumpSelf (h : Loaded jumpSelf [] 0 r) (hroom : Room 3 r.toMmu) :
    wp F (loadSegs jumpSelf 1 52 0) Ready r := by
  have hread : readProghdr jumpSelf 52 = some ⟨1, 84, 0, 4, 8⟩ := by decide +kernel
  rw [loadSegs, hread]
  dsimp only
  rw [if_neg (by decide), wp_bind, loadSeg, if_neg (by decide), if_neg (by decide), wp_bind]
  apply wp_mono (wp_and (Mem.wp_allocuvm_room (F := F) (by decide) (by decide)
    (fun j hj hj' => h.above j (hj'.trans (by decide)) hj) hroom)
    (Mem.wp_allocuvm (F := F) h.single (by decide) h.above))
  rintro _ r₁ ⟨⟨rfl, hroom₁⟩, halloc⟩
  obtain ⟨-, -, hg⟩ := halloc.resolve_left fun hfail => absurd hfail.1 (by decide)
  have hl : Loaded jumpSelf [] 8 r₁ := h.grow (by decide) (by decide) hg
  rw [if_neg (by decide), if_neg (by decide), wp_bind]
  apply wp_mono (wp_loaduvm hl.single rfl (hl.mapped_seg (by decide)) (by decide) (by decide))
  rintro ok r₂ ⟨hwrote, -, hok⟩
  rw [if_pos (hok (by decide)), wp_pure]
  exact wp_pure.mpr ⟨8, rfl, by decide, hwrote.mmu ▸ hroom₁⟩

/-- `exec` succeeds, and the segment is there. -/
theorem exec_all_or_nothing_jumpSelf : ∃ s',
    exec Vm.smallData [0x6A] (some jumpSelf) [[0x6A]] roomy = .ok (true, s') ∧
      s'.bal = roomy.bal ∧ byte s'.space 1 = some 0xFE ∧ byte s'.space 7 = some 0 := by
  have hargv : ∀ ip segs, some jumpSelf = some ip → segments ip = some segs →
      argvSize [[0x6A]] < imageSize segs := by
    rintro _ segs ⟨⟩ hsegs
    rw [segments_jumpSelf] at hsegs
    cases hsegs
    decide
  have hexec : wp (fun _ => False) (exec Vm.smallData [0x6A] (some jumpSelf) [[0x6A]])
      (fun ok _ => ok = true) roomy :=
    wp_exec_room Mem.roomy_single rfl rfl (fun _ => wp_loadSegs_jumpSelf)
      (roomy_free (by decide)) (by decide)
  obtain ⟨ok, s', hrun, hbal, -, htrue⟩ :=
    exec_all_or_nothing (s := roomy) Vm.smallData [0x6A] Mem.roomy_single hargv
  obtain rfl := Wp.wp_ok hexec hrun
  obtain ⟨_, segs, ⟨⟩, hsegs, hbytes⟩ := htrue rfl
  rw [segments_jumpSelf] at hsegs
  cases hsegs
  obtain ⟨hfile, hzero⟩ := hbytes [] _ [] rfl nofun
  obtain ⟨b, hb, hbyte⟩ := hfile 1 (by decide)
  cases hb
  exact ⟨s', hrun, hbal, hbyte, hzero 7 (by decide) (by decide)⟩

end Xv6Mlfq.Exec
