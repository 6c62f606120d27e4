import Xv6Mlfq.Lib.Transition
import Xv6Mlfq.Log.Disk
import Mathlib.Data.Finset.Card
import Mathlib.Logic.Function.Basic

/-!
# The log

Any number of processes use the buffer cache and the log: `begin_op`, then `bread`, changes to the
buffer, `log_write` and `brelse`, then `end_op`; the last `end_op` commits.  A step is at most one
block write to the disk, so that a crash can come between any two.  `log_write` is two steps,
because it reads `log.lh.n` before it takes `log.lock`.

Of the buffer cache the model has the contents that `bread` returns (`mem`), which buffers are
locked (`held`) and which are pinned by `B_DIRTY`.  A buffer that is locked or dirty is not
recycled, so `bread` panics when the blocks that are, with the new one, are more than `NBUF`.

## Main definitions

* `LogSys` — the state: disk, cache, `struct log`, what each process is doing.
* `logStep` — one step; `LogLabel.crash` loses everything but the disk.
* `Groups`, `groups` — a history variable: the updates of each commit group.
-/

namespace Xv6Mlfq

open Function (update)

/-- What a process is doing with the log: nothing; in an operation; in `log_write`, past the
checks; in the `commit` of its `end_op`. -/
inductive Op
  | out | inOp | logging (b : ℕ) | commit
  deriving DecidableEq, Repr

/-- What the log is doing: `read_head` and the loop of `install_trans` when the machine has been
switched on; nothing; the loops of `write_log` and `install_trans` in `commit`; the end of
`end_op`. -/
inductive Mode
  | readHead | recover (tail : ℕ) | up | writeLog (tail : ℕ) | install (tail : ℕ) | finish
  deriving DecidableEq, Repr

/-- The state of the machine, as far as the log is concerned. -/
structure LogSys (P : Type) where
  disk : Disk
  /-- what `bread` returns -/
  mem : Disk
  /-- `log.lh.block[0..log.lh.n]` -/
  lh : List ℕ
  outstanding : ℕ
  committing : Bool
  mode : Mode
  op : P → Op
  /-- the buffers that are locked, and by whom -/
  held : List (P × ℕ)
  /-- the blocks whose buffer has `B_DIRTY` set by `log_write` -/
  dirty : Finset ℕ
  /-- the blocks that were changed since they were passed to `log_write` -/
  unlogged : Finset ℕ
  panicked : Option String

inductive LogLabel (P : Type)
  | beginOp (p : P)
  | bread (p : P) (b : ℕ)
  /-- the process changes the data of a buffer it has locked -/
  | modify (p : P) (b : ℕ) (d : Block)
  /-- `log_write`: the checks -/
  | logWrite (p : P) (b : ℕ)
  /-- `log_write`: what it does under `log.lock` -/
  | logAppend (p : P)
  | brelse (p : P) (b : ℕ)
  | endOp (p : P)
  /-- a round of a loop of `commit` -/
  | commit
  /-- a round of a loop of `recover_from_log` -/
  | recover
  | crash

/-- The loop of `log_write`: the block takes the place it has, or the next one. -/
def absorb (b : ℕ) : List ℕ → List ℕ
  | [] => [b]
  | x :: xs => if x = b then b :: xs else x :: absorb b xs

variable {b : ℕ} {lh : List ℕ}

theorem absorb_of_mem (h : b ∈ lh) : absorb b lh = lh := by
  induction lh with
  | nil => cases h
  | cons x xs ih =>
    by_cases hx : x = b
    · simp [absorb, hx]
    · have hm : b ∈ xs := (List.mem_cons.mp h).resolve_left (Ne.symm hx)
      simp [absorb, hx, ih hm]

theorem absorb_of_notMem (h : b ∉ lh) : absorb b lh = lh ++ [b] := by
  induction lh with
  | nil => rfl
  | cons x xs ih =>
    obtain ⟨hx, hm⟩ : b ≠ x ∧ b ∉ xs := by simpa using h
    simp [absorb, Ne.symm hx, ih hm]

@[simp] theorem mem_absorb {x : ℕ} : x ∈ absorb b lh ↔ x ∈ lh ∨ x = b := by
  by_cases h : b ∈ lh
  · rw [absorb_of_mem h]
    exact ⟨.inl, fun hx => hx.elim id fun he => he ▸ h⟩
  · simp [absorb_of_notMem h]

theorem nodup_absorb (h : lh.Nodup) : (absorb b lh).Nodup := by
  by_cases hm : b ∈ lh
  · rwa [absorb_of_mem hm]
  · rw [absorb_of_notMem hm, ← List.concat_eq_append]
    exact h.concat hm

variable {P : Type}

namespace LogSys

/-- The machine is switched on. -/
def boot (disk : Disk) : LogSys P where
  disk := disk
  mem := disk
  lh := []
  outstanding := 0
  committing := false
  mode := .readHead
  op := fun _ => .out
  held := []
  dirty := ∅
  unlogged := ∅
  panicked := none

def panic (s : LogSys P) (msg : String) : LogSys P := { s with panicked := some msg }

/-! ## The buffer cache -/

/-- The blocks whose buffers cannot be recycled. -/
def pinned (s : LogSys P) : Finset ℕ := s.dirty ∪ (s.held.map Prod.snd).toFinset

/-- Nobody has locked a buffer of these blocks. -/
def unheld (s : LogSys P) (bs : Finset ℕ) : Bool := s.held.all fun x => x.2 ∉ bs

/-- There are buffers for these blocks. -/
def room (s : LogSys P) (bs : Finset ℕ) : Bool := (s.pinned ∪ bs).card ≤ NBUF

/-- `bread` of these blocks: it waits for their locks, and panics when there is no buffer. -/
def withBufs (s : LogSys P) (bs : Finset ℕ) (go : LogSys P → LogSys P) : Option (LogSys P) :=
  if s.unheld bs then
    some (if s.room bs then go s else s.panic "bget: no buffers")
  else none

/-- `bwrite` of a buffer whose data has become `d`. -/
def bwrite (s : LogSys P) (b : ℕ) (d : Block) : LogSys P :=
  { s with mem := update s.mem b d, disk := update s.disk b d, dirty := s.dirty.erase b }

/-- The processes run: recovery is over. -/
def booted (s : LogSys P) : Bool :=
  match s.mode with
  | .readHead | .recover _ => false
  | _ => true

def bread (s : LogSys P) (p : P) (b : ℕ) : Option (LogSys P) :=
  if s.booted ∧ (s.op p = .out ∨ s.op p = .inOp) ∧ b < FSSIZE then
    s.withBufs {b} fun s => { s with held := (p, b) :: s.held }
  else none

/-- Only an operation changes a block, while it has locked the buffer. -/
def modify [DecidableEq P] (s : LogSys P) (p : P) (b : ℕ) (d : Block) : Option (LogSys P) :=
  if s.op p = .inOp ∧ (p, b) ∈ s.held ∧ Home b then
    some { s with mem := update s.mem b d, unlogged := insert b s.unlogged }
  else none

/-- A buffer that has been changed is passed to `log_write` before it is released. -/
def brelse [DecidableEq P] (s : LogSys P) (p : P) (b : ℕ) : Option (LogSys P) :=
  if (s.op p = .out ∨ s.op p = .inOp) ∧ (p, b) ∈ s.held ∧ b ∉ s.unlogged then
    some { s with held := s.held.erase (p, b) }
  else none

/-! ## The functions of the log -/

/-- `begin_op` waits while the log commits or might run out of space. -/
def beginOp [DecidableEq P] (s : LogSys P) (p : P) : Option (LogSys P) :=
  if s.booted ∧ s.op p = .out ∧ s.committing = false ∧
      s.lh.length + (s.outstanding + 1) * MAXOPBLOCKS ≤ LOGSIZE then
    some { s with outstanding := s.outstanding + 1, op := update s.op p .inOp }
  else none

def logWrite [DecidableEq P] (s : LogSys P) (p : P) (b : ℕ) : Option (LogSys P) :=
  if s.op p = .inOp ∧ (p, b) ∈ s.held ∧ Home b then
    if s.lh.length ≥ LOGSIZE ∨ s.lh.length ≥ nlog - 1 then
      some (s.panic "too big a transaction")
    else if s.outstanding < 1 then
      some (s.panic "log_write outside of trans")
    else
      some { s with op := update s.op p (.logging b) }
  else none

def logAppend [DecidableEq P] (s : LogSys P) (p : P) : Option (LogSys P) :=
  match s.op p with
  | .logging b =>
    some { s with
      lh := absorb b s.lh
      dirty := insert b s.dirty
      unlogged := s.unlogged.erase b
      op := update s.op p .inOp }
  | _ => none

/-- The last `end_op` begins to commit. -/
def endOp [DecidableEq P] (s : LogSys P) (p : P) : Option (LogSys P) :=
  if s.op p = .inOp ∧ ∀ x ∈ s.held, x.1 = p → x.2 ∉ s.unlogged then
    let s := { s with outstanding := s.outstanding - 1 }
    if s.committing then
      some (s.panic "log.committing")
    else if s.outstanding = 0 then
      some { s with
        committing := true
        mode := if s.lh.length > 0 then .writeLog 0 else .finish
        op := update s.op p .commit }
    else
      some { s with op := update s.op p .out }
  else none

/-- `write_head` -/
def writeHeadBlock (s : LogSys P) : LogSys P :=
  s.bwrite logstart (writeHead s.lh (s.mem logstart))

/-- A round of the loop of `install_trans`, or what follows it: `log.lh.n = 0; write_head()`. -/
def installTrans (s : LogSys P) (tail : ℕ) (again after : Mode) : Option (LogSys P) :=
  match s.lh[tail]? with
  | some b =>
    s.withBufs {logBlock tail, b} fun s =>
      { s.bwrite b (s.mem (logBlock tail)) with mode := again }
  | none =>
    s.withBufs {logstart} fun s => { ({ s with lh := [] }).writeHeadBlock with mode := after }

/-- A round of the loop of `write_log`, or the `write_head` that follows it. -/
def writeLog (s : LogSys P) (tail : ℕ) : Option (LogSys P) :=
  match s.lh[tail]? with
  | some b =>
    s.withBufs {logBlock tail, b} fun s =>
      { s.bwrite (logBlock tail) (s.mem b) with mode := .writeLog (tail + 1) }
  | none => s.withBufs {logstart} fun s => { s.writeHeadBlock with mode := .install 0 }

def commit (s : LogSys P) : Option (LogSys P) :=
  match s.mode with
  | .writeLog tail => s.writeLog tail
  | .install tail => s.installTrans tail (.install (tail + 1)) .finish
  | .finish =>
    some { s with
      committing := false
      mode := .up
      op := fun q => if s.op q = .commit then .out else s.op q }
  | _ => none

def recover (s : LogSys P) : Option (LogSys P) :=
  match s.mode with
  | .readHead =>
    (readHead (s.mem logstart)).map fun lh => { s with lh := lh, mode := .recover 0 }
  | .recover tail => s.installTrans tail (.recover (tail + 1)) .up
  | _ => none

end LogSys

/-- One step.  After a panic the machine can only be switched off and on again. -/
def logStep [DecidableEq P] : LogLabel P → LogSys P → Option (LogSys P)
  | .crash, s => some (.boot s.disk)
  | l, s =>
    if s.panicked = none then
      match l with
      | .beginOp p => s.beginOp p
      | .bread p b => s.bread p b
      | .modify p b d => s.modify p b d
      | .logWrite p b => s.logWrite p b
      | .logAppend p => s.logAppend p
      | .brelse p b => s.brelse p b
      | .endOp p => s.endOp p
      | .commit => s.commit
      | .recover => s.recover
      | .crash => none
    else none

/-- The step `commit` writes the header of a group. -/
def LogSys.writesHead (s : LogSys P) : Bool :=
  match s.mode with
  | .writeLog tail => s.lh.length ≤ tail ∧ s.room {logstart}
  | _ => false

/-! ## What a step can do -/

section Inversion

variable {s s' : LogSys P} {p : P} {b : ℕ}

theorem LogSys.withBufs_eq_some {bs : Finset ℕ} {go : LogSys P → LogSys P}
    (h : s.withBufs bs go = some s') :
    s.unheld bs = true ∧
      (s.room bs = true ∧ s' = go s ∨ s.room bs = false ∧ s' = s.panic "bget: no buffers") := by
  simp only [withBufs] at h
  split_ifs at h with hu hr
  · exact ⟨hu, .inl ⟨hr, (Option.some.inj h).symm⟩⟩
  · exact ⟨hu, .inr ⟨Bool.not_eq_true _ ▸ hr, (Option.some.inj h).symm⟩⟩

/-- What a step of `commit` does. -/
inductive CommitStep (s : LogSys P) : LogSys P → Prop
  | copy (tail b : ℕ) (hm : s.mode = .writeLog tail) (hb : s.lh[tail]? = some b)
      (hr : s.room {logBlock tail, b} = true) :
      CommitStep s { s.bwrite (logBlock tail) (s.mem b) with mode := .writeLog (tail + 1) }
  | head (tail : ℕ) (hm : s.mode = .writeLog tail) (hb : s.lh[tail]? = none)
      (hr : s.room {logstart} = true) :
      CommitStep s { s.writeHeadBlock with mode := .install 0 }
  | install (tail b : ℕ) (hm : s.mode = .install tail) (hb : s.lh[tail]? = some b) :
      CommitStep s { s.bwrite b (s.mem (logBlock tail)) with mode := .install (tail + 1) }
  | clear (tail : ℕ) (hm : s.mode = .install tail) (hb : s.lh[tail]? = none) :
      CommitStep s { ({ s with lh := [] } : LogSys P).writeHeadBlock with mode := .finish }
  | finish (hm : s.mode = .finish) :
      CommitStep s { s with
        committing := false
        mode := .up
        op := fun q => if s.op q = .commit then .out else s.op q }
  | panic (hw : s.writesHead = false) : CommitStep s (s.panic "bget: no buffers")

/-- What a step of recovery does. -/
inductive RecoverStep (s : LogSys P) : LogSys P → Prop
  | read (lh : List ℕ) (hm : s.mode = .readHead) (hb : readHead (s.mem logstart) = some lh) :
      RecoverStep s { s with lh := lh, mode := .recover 0 }
  | install (tail b : ℕ) (hm : s.mode = .recover tail) (hb : s.lh[tail]? = some b) :
      RecoverStep s { s.bwrite b (s.mem (logBlock tail)) with mode := .recover (tail + 1) }
  | clear (tail : ℕ) (hm : s.mode = .recover tail) (hb : s.lh[tail]? = none) :
      RecoverStep s { ({ s with lh := [] } : LogSys P).writeHeadBlock with mode := .up }
  | panic : RecoverStep s (s.panic "bget: no buffers")

theorem installTrans_cases {tail : ℕ} {again after : Mode}
    (h : s.installTrans tail again after = some s') :
    (∃ b, s.lh[tail]? = some b ∧
      s' = { s.bwrite b (s.mem (logBlock tail)) with mode := again }) ∨
    (s.lh[tail]? = none ∧
      s' = { ({ s with lh := [] } : LogSys P).writeHeadBlock with mode := after }) ∨
    s' = s.panic "bget: no buffers" := by
  simp only [LogSys.installTrans] at h
  split at h
  case h_1 b hb =>
    obtain ⟨-, ⟨-, rfl⟩ | ⟨-, rfl⟩⟩ := LogSys.withBufs_eq_some h
    · exact .inl ⟨b, hb, rfl⟩
    · exact .inr (.inr rfl)
  case h_2 hb =>
    obtain ⟨-, ⟨-, rfl⟩ | ⟨-, rfl⟩⟩ := LogSys.withBufs_eq_some h
    · exact .inr (.inl ⟨hb, rfl⟩)
    · exact .inr (.inr rfl)

variable [DecidableEq P]

theorem step_beginOp (h : logStep (.beginOp p) s = some s') :
    s.booted = true ∧ s.op p = .out ∧ s.committing = false ∧
      s.lh.length + (s.outstanding + 1) * MAXOPBLOCKS ≤ LOGSIZE ∧
      s' = { s with outstanding := s.outstanding + 1, op := update s.op p .inOp } := by
  simp only [logStep, LogSys.beginOp] at h
  split_ifs at h with hn hg
  exact ⟨hg.1, hg.2.1, hg.2.2.1, hg.2.2.2, (Option.some.inj h).symm⟩

theorem step_bread (h : logStep (.bread p b) s = some s') :
    (s.op p = .out ∨ s.op p = .inOp) ∧ s.unheld {b} = true ∧
      (s.room {b} = true ∧ s' = { s with held := (p, b) :: s.held } ∨
        s' = s.panic "bget: no buffers") := by
  simp only [logStep, LogSys.bread] at h
  split_ifs at h with hn hg
  obtain ⟨hu, ⟨hr, rfl⟩ | ⟨-, rfl⟩⟩ := LogSys.withBufs_eq_some h
  · exact ⟨hg.2.1, hu, .inl ⟨hr, rfl⟩⟩
  · exact ⟨hg.2.1, hu, .inr rfl⟩

theorem step_modify {d : Block} (h : logStep (.modify p b d) s = some s') :
    s.op p = .inOp ∧ (p, b) ∈ s.held ∧ Home b ∧
      s' = { s with mem := update s.mem b d, unlogged := insert b s.unlogged } := by
  simp only [logStep, LogSys.modify] at h
  split_ifs at h with hn hg
  exact ⟨hg.1, hg.2.1, hg.2.2, (Option.some.inj h).symm⟩

theorem step_logWrite (h : logStep (.logWrite p b) s = some s') :
    s.op p = .inOp ∧ (p, b) ∈ s.held ∧ Home b ∧
      ((s.lh.length ≥ LOGSIZE ∨ s.lh.length ≥ nlog - 1) ∧ s' = s.panic "too big a transaction" ∨
        s.lh.length < nlog - 1 ∧ s.outstanding < 1 ∧ s' = s.panic "log_write outside of trans" ∨
        s.lh.length < nlog - 1 ∧ s' = { s with op := update s.op p (.logging b) }) := by
  simp only [logStep, LogSys.logWrite] at h
  split_ifs at h with hn hg hbig hout
  · exact ⟨hg.1, hg.2.1, hg.2.2, .inl ⟨hbig, (Option.some.inj h).symm⟩⟩
  · have hlt := Nat.lt_of_not_ge fun hge => hbig (.inr hge)
    exact ⟨hg.1, hg.2.1, hg.2.2, .inr (.inl ⟨hlt, hout, (Option.some.inj h).symm⟩)⟩
  · have hlt := Nat.lt_of_not_ge fun hge => hbig (.inr hge)
    exact ⟨hg.1, hg.2.1, hg.2.2, .inr (.inr ⟨hlt, (Option.some.inj h).symm⟩)⟩

theorem step_logAppend (h : logStep (.logAppend p) s = some s') :
    ∃ b, s.op p = .logging b ∧
      s' = { s with
        lh := absorb b s.lh
        dirty := insert b s.dirty
        unlogged := s.unlogged.erase b
        op := update s.op p .inOp } := by
  simp only [logStep, LogSys.logAppend] at h
  split_ifs at h with hn
  split at h
  case h_1 b hb => exact ⟨b, hb, (Option.some.inj h).symm⟩
  case h_2 => cases h

theorem step_brelse (h : logStep (.brelse p b) s = some s') :
    (s.op p = .out ∨ s.op p = .inOp) ∧ (p, b) ∈ s.held ∧ b ∉ s.unlogged ∧
      s' = { s with held := s.held.erase (p, b) } := by
  simp only [logStep, LogSys.brelse] at h
  split_ifs at h with hn hg
  exact ⟨hg.1, hg.2.1, hg.2.2, (Option.some.inj h).symm⟩

theorem step_endOp (h : logStep (.endOp p) s = some s') :
    s.op p = .inOp ∧ (∀ x ∈ s.held, x.1 = p → x.2 ∉ s.unlogged) ∧
      (s.committing = true ∧
          s' = ({ s with outstanding := s.outstanding - 1 } : LogSys P).panic "log.committing" ∨
        s.outstanding - 1 = 0 ∧ s' = { s with
          outstanding := s.outstanding - 1
          committing := true
          mode := if s.lh.length > 0 then .writeLog 0 else .finish
          op := update s.op p .commit } ∨
        s.outstanding - 1 ≠ 0 ∧ s' = { s with
          outstanding := s.outstanding - 1, op := update s.op p .out }) := by
  simp only [logStep, LogSys.endOp] at h
  split_ifs at h with hn hg hc hz hlen
  · exact ⟨hg.1, hg.2, .inl ⟨hc, (Option.some.inj h).symm⟩⟩
  · exact ⟨hg.1, hg.2, .inr (.inl ⟨hz, by rw [if_pos hlen]; exact (Option.some.inj h).symm⟩)⟩
  · exact ⟨hg.1, hg.2, .inr (.inl ⟨hz, by rw [if_neg hlen]; exact (Option.some.inj h).symm⟩)⟩
  · exact ⟨hg.1, hg.2, .inr (.inr ⟨hz, (Option.some.inj h).symm⟩)⟩

theorem step_commit (h : logStep .commit s = some s') : CommitStep s s' := by
  simp only [logStep] at h
  split_ifs at h with hn
  simp only [LogSys.commit] at h
  split at h
  case h_1 tail hm =>
    simp only [LogSys.writeLog] at h
    split at h
    case h_1 b hb =>
      obtain ⟨-, ⟨hr, rfl⟩ | ⟨-, rfl⟩⟩ := LogSys.withBufs_eq_some h
      · exact .copy tail b hm hb hr
      · have hlt : tail < s.lh.length := (List.getElem?_eq_some_iff.mp hb).1
        exact .panic (by simp [LogSys.writesHead, hm, hlt])
    case h_2 hb =>
      obtain ⟨-, ⟨hr, rfl⟩ | ⟨hr, rfl⟩⟩ := LogSys.withBufs_eq_some h
      · exact .head tail hm hb hr
      · exact .panic (by simp [LogSys.writesHead, hm, hr])
  case h_2 tail hm =>
    obtain ⟨b, hb, rfl⟩ | ⟨hb, rfl⟩ | rfl := installTrans_cases h
    · exact .install tail b hm hb
    · exact .clear tail hm hb
    · exact .panic (by simp [LogSys.writesHead, hm])
  case h_3 hm =>
    cases h
    exact .finish hm
  case h_4 => cases h

theorem step_recover (h : logStep .recover s = some s') : RecoverStep s s' := by
  simp only [logStep] at h
  split_ifs at h with hn
  simp only [LogSys.recover] at h
  split at h
  case h_1 hm =>
    obtain ⟨lh, hb, rfl⟩ := Option.map_eq_some_iff.mp h
    exact .read lh hm hb
  case h_2 tail hm =>
    obtain ⟨b, hb, rfl⟩ | ⟨hb, rfl⟩ | rfl := installTrans_cases h
    · exact .install tail b hm hb
    · exact .clear tail hm hb
    · exact .panic
  case h_3 => cases h

theorem step_crash (h : logStep .crash s = some s') : s' = .boot s.disk := by
  simp only [logStep] at h
  exact (Option.some.inj h).symm

end Inversion

/-! ## Commit groups -/

/-- The updates of the commit groups whose header has reached the disk, and of the current one. -/
structure Groups where
  done : List (List (ℕ × Block))
  current : List (ℕ × Block)

def Groups.none : Groups := ⟨[], []⟩

/-- The disk with these updates. -/
def applyUpdates (us : List (ℕ × Block)) (disk : Disk) : Disk :=
  us.foldl (fun d u => update d u.1 u.2) disk

def applyGroups (gs : List (List (ℕ × Block))) (disk : Disk) : Disk :=
  gs.foldl (fun d us => applyUpdates us d) disk

/-- The history variable: a group is complete when its header is written; a crash loses the
updates since. -/
def groups (s : LogSys P) (l : LogLabel P) (g : Groups) : Groups :=
  match l with
  | .modify _ b d => { g with current := g.current ++ [(b, d)] }
  | .commit => if s.writesHead then ⟨g.done ++ [g.current], []⟩ else g
  | .crash => { g with current := [] }
  | _ => g

end Xv6Mlfq
