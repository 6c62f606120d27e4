import Xv6Mlfq.Fs.Owned
import Xv6Mlfq.Log.Disk
import Mathlib.Algebra.BigOperators.Group.Finset.Piecewise
import Mathlib.Algebra.Order.BigOperators.Group.Finset

/-!
# Writers of one open file

Processes that share an open file (by `fork` or `dup`) write to it: each call of `filewrite` writes
its buffer in chunks, and between the chunks others may have theirs written.  The offset is the open
file's, and is advanced with each chunk.  The file is a regular one, open for writing.

## Main definitions

* `sharedStep` — a chunk, or a step of another call.
* `chunks` — the parts of a buffer.
* `Phase` — what has been written since some moment.

## Main results

* `Opened.step` — the offset is never behind the end of the file.
* `shared_writes` — what was written is an interleaving of the writers' chunks.
-/

namespace Xv6Mlfq.Blocks

open Function (update update_self update_of_ne)
open Wp (wp)
open Transition (exec)

/-- How much `filewrite` writes at a time -/
abbrev maxChunk : ℕ := (MAXOPBLOCKS - 1 - 1 - 2) / 2 * 512

/-! ## The model -/

/-- A process: it is not in `filewrite`, and the last call returned `ret`; or it has written the
first `i` bytes of `addr`. -/
inductive Writer
  | idle (ret : ℤ)
  | busy (addr : List UInt8) (i : ℕ)
  deriving DecidableEq, Repr

/-- The inodes, `f->off` of an open file, and the processes that have it open. -/
structure Shared (P : Type) where
  inodes : Inodes
  off : ℕ
  writer : P → Writer

inductive SharedLabel (P : Type)
  /-- A process calls `filewrite`. -/
  | write (p : P) (buf : List UInt8)
  /-- A round of the loop of `filewrite`, or its end -/
  | round (p : P)
  /-- `fileread` -/
  | read (n : ℕ)
  /-- What is done to inodes by other calls -/
  | other (op : InodeOp)

section Model

variable {P : Type} [DecidableEq P] (sb : Superblock) (devsw : Devsw) (inum : ℕ)

def Shared.set (s : Shared P) (p : P) (w : Writer) : Shared P :=
  { s with writer := update s.writer p w }

/-- `ilock(f->ip)` and a program on it; `k` is what becomes of the file. -/
def Shared.withInode {α : Type} (s : Shared P) (m : Dinode → DiskM α)
    (k : α → Inodes → Option (Shared P)) : Option (Shared P) :=
  let t := iload s.inodes inum
  match t.mem inum with
  | none => some { s with inodes := t }
  | some ip =>
    match m ip t.disk with
    | .ok (a, d) => k a { t with disk := d }
    | .error msg => some { s with inodes := t.panic msg }

/-- What `filewrite` does after `writei` has returned `r` for the `n1` bytes from `i` on. -/
def Shared.wrote (s : Shared P) (p : P) (addr : List UInt8) (i n1 : ℕ) (r : ℤ) : Shared P :=
  let s := { s with off := if r > 0 then (s.off + r.toNat) % 2 ^ 32 else s.off }
  if r < 0 then s.set p (.idle (if i = addr.length then addr.length else -1))
  else if r ≠ n1 then { s with inodes := s.inodes.panic "short filewrite" }
  else s.set p (.busy addr (i + r.toNat))

def filewriteRound (s : Shared P) (p : P) : Option (Shared P) :=
  match s.writer p with
  | .idle _ => none
  | .busy addr i =>
    if i < addr.length then
      let n1 := min (addr.length - i) maxChunk
      s.withInode inum (fun ip => writei sb devsw ip ((addr.drop i).take n1) s.off) fun r t =>
        some (Shared.wrote { s with inodes := t.store inum r.2.1 r.2.2 } p addr i n1 r.1)
    else some (s.set p (.idle (if i = addr.length then addr.length else -1)))

/-- `fileread` of `n` bytes -/
def filereadCall (s : Shared P) (n : ℕ) : Option (Shared P) :=
  s.withInode inum (fun ip => readi sb devsw ip s.off n) fun r t =>
    some { s with
      inodes := t.store inum r.2 false
      off := match r.1 with
        | some bs => if 0 < bs.length then (s.off + bs.length) % 2 ^ 32 else s.off
        | none => s.off }

/-- The open file has a reference to its inode, so that is not freed, nor is the entry of `icache`
recycled. -/
def InodeOp.Spares (inum : ℕ) : InodeOp → Prop
  | .free i | .recycle i => i ≠ inum
  | _ => True

instance : DecidablePred (InodeOp.Spares inum)
  | .free _ | .recycle _ => inferInstanceAs (Decidable (_ ≠ _))
  | .ialloc _ | .ilock _ | .relink _ _ _ | .writei _ _ _ | .readi _ _ _ => isTrue trivial

def sharedCall (s : Shared P) : SharedLabel P → Option (Shared P)
  | .write p buf =>
    match s.writer p with
    | .idle _ => if buf.length < 2 ^ 31 then some (s.set p (.busy buf 0)) else none
    | .busy _ _ => none
  | .round p => filewriteRound sb devsw inum s p
  | .read n => if n < 2 ^ 31 then filereadCall sb devsw inum s n else none
  | .other op =>
    if op.Spares inum then (inodeStep sb devsw op s.inodes).map fun t => { s with inodes := t }
    else none

/-- One step; a panic stops the machine. -/
def sharedStep (l : SharedLabel P) (s : Shared P) : Option (Shared P) :=
  if s.inodes.panicked = none then sharedCall sb devsw inum s l else none

end Model

/-! ## Chunks -/

def chunksFuel : ℕ → List UInt8 → List (List UInt8)
  | 0, _ => []
  | n + 1, bs => if bs = [] then [] else bs.take maxChunk :: chunksFuel n (bs.drop maxChunk)

/-- The parts of a buffer that `filewrite` writes -/
def chunks (bs : List UInt8) : List (List UInt8) := chunksFuel bs.length bs

theorem chunksFuel_eq {n m : ℕ} {bs : List UInt8} (hn : bs.length ≤ n) (hm : bs.length ≤ m) :
    chunksFuel n bs = chunksFuel m bs := by
  induction n generalizing m bs with
  | zero =>
    obtain rfl : bs = [] := List.length_eq_zero_iff.mp (Nat.le_zero.mp hn)
    cases m with
    | zero => rfl
    | succ m => rfl
  | succ n ih =>
    cases m with
    | zero =>
      obtain rfl : bs = [] := List.length_eq_zero_iff.mp (Nat.le_zero.mp hm)
      rfl
    | succ m =>
      rw [chunksFuel, chunksFuel]
      by_cases h : bs = []
      · rw [if_pos h, if_pos h]
      · have hpos := List.length_pos_iff.mpr h
        rw [if_neg h, if_neg h, ih (m := m) (by rw [List.length_drop]; lia)
          (by rw [List.length_drop]; lia)]

@[simp] theorem chunks_nil : chunks [] = [] := rfl

theorem chunks_cons {bs : List UInt8} (h : bs ≠ []) :
    chunks bs = bs.take maxChunk :: chunks (bs.drop maxChunk) := by
  have hfuel : chunks bs = chunksFuel (bs.length + 1) bs := chunksFuel_eq le_rfl (Nat.le_succ _)
  rw [hfuel, chunksFuel, if_neg h]
  congr 1
  exact chunksFuel_eq (by rw [List.length_drop]; omega) le_rfl

theorem chunksFuel_flatten {n : ℕ} {bs : List UInt8} (hn : bs.length ≤ n) :
    (chunksFuel n bs).flatten = bs := by
  induction n generalizing bs with
  | zero =>
    obtain rfl : bs = [] := List.length_eq_zero_iff.mp (Nat.le_zero.mp hn)
    rfl
  | succ n ih =>
    rw [chunksFuel]
    by_cases h : bs = []
    · rw [if_pos h, h, List.flatten_nil]
    · have hpos := List.length_pos_iff.mpr h
      rw [if_neg h, List.flatten_cons, ih (by rw [List.length_drop]; lia),
        List.take_append_drop]

theorem chunks_flatten (bs : List UInt8) : (chunks bs).flatten = bs := chunksFuel_flatten le_rfl

/-! ## What was written by whom -/

section Tags

variable {P : Type} [DecidableEq P]

/-- What process `p` has written -/
def ofWriter (tr : List (P × List UInt8)) (p : P) : List (List UInt8) :=
  (tr.filter fun c => c.1 = p).map Prod.snd

theorem ofWriter_append (tr tr' : List (P × List UInt8)) (p : P) :
    ofWriter (tr ++ tr') p = ofWriter tr p ++ ofWriter tr' p := by
  rw [ofWriter, List.filter_append, List.map_append]
  rfl

theorem ofWriter_self (p : P) (bs : List UInt8) : ofWriter [(p, bs)] p = [bs] := by
  simp [ofWriter]

theorem ofWriter_of_ne {p q : P} (h : p ≠ q) (bs : List UInt8) : ofWriter [(p, bs)] q = [] := by
  simp [ofWriter, h]

/-- The bytes of all writers -/
def bytes (tr : List (P × List UInt8)) : List UInt8 := tr.flatMap Prod.snd

omit [DecidableEq P] in
theorem bytes_append (tr tr' : List (P × List UInt8)) : bytes (tr ++ tr') = bytes tr ++ bytes tr' :=
  List.flatMap_append

/-- The bytes are those of the writers in `ps`, together. -/
theorem length_bytes {tr : List (P × List UInt8)} {ps : Finset P} (h : ∀ c ∈ tr, c.1 ∈ ps) :
    (bytes tr).length = ∑ p ∈ ps, (ofWriter tr p).flatten.length := by
  induction tr with
  | nil => simp [bytes, ofWriter]
  | cons c tr ih =>
    have hrest := ih fun c' hc' => h c' (List.mem_cons_of_mem c hc')
    have hc := h c List.mem_cons_self
    have hsum : ∀ p ∈ ps, (ofWriter (c :: tr) p).flatten.length =
        (if c.1 = p then c.2.length else 0) + (ofWriter tr p).flatten.length := by
      intro p _
      by_cases hp : c.1 = p
      · simp [ofWriter, hp]
      · simp [ofWriter, hp]
    rw [Finset.sum_congr rfl hsum, Finset.sum_add_distrib, ← hrest, Finset.sum_ite_eq,
      if_pos hc, bytes, List.flatMap_cons, List.length_append]
    rfl

/-- If no writer has written more than it was to write, then no more was written in total. -/
theorem length_bytes_le {tr bufs : List (P × List UInt8)}
    (h : ∀ p, (ofWriter tr p).flatten.length ≤ (ofWriter bufs p).flatten.length) :
    (bytes tr).length ≤ (bytes bufs).length := by
  let ps := ((tr ++ bufs).map Prod.fst).toFinset
  have hps : ∀ {c}, c ∈ tr ++ bufs → c.1 ∈ ps :=
    fun hc => List.mem_toFinset.mpr (List.mem_map_of_mem hc)
  rw [length_bytes fun c hc => hps (List.mem_append_left _ hc),
    length_bytes fun c hc => hps (List.mem_append_right _ hc)]
  exact Finset.sum_le_sum fun p _ => h p

end Tags

/-! ## Other inodes -/

section Ops

variable {sb : Superblock} {devsw : Devsw} {s s' : Inodes} {i : ℕ}

/-- Inode `i` has the same contents. -/
structure SameContents (s s' : Inodes) (i : ℕ) : Prop where
  type : (s'.dinode i).type = (s.dinode i).type
  size : (s'.dinode i).size = (s.dinode i).size
  byte : ∀ {x}, x < (s.dinode i).size →
    byteAt s'.disk (s'.dinode i) x = byteAt s.disk (s.dinode i) x

theorem SameContents.of_eq (hd : s'.disk = s.disk) (hi : s'.dinode i = s.dinode i) :
    SameContents s s' i := ⟨by rw [hi], by rw [hi], fun _ => by rw [hd, hi]⟩

theorem iload_same (s : Inodes) (j : ℕ) :
    (iload s j).disk = s.disk ∧ (iload s j).dinode = s.dinode := by
  unfold iload
  split
  · exact ⟨rfl, rfl⟩
  · split_ifs
    · exact ⟨rfl, rfl⟩
    · exact ⟨rfl, rfl⟩

/-- The inode of an open file is there. -/
theorem InodesInv.iload_mem (h : InodesInv sb s) (hi : (s.dinode i).type ≠ .free) :
    (Blocks.iload s i).mem i = some (s.dinode i) ∧ (Blocks.iload s i).panicked = s.panicked := by
  unfold Blocks.iload
  cases hm : s.mem i with
  | some ip =>
    obtain ⟨rfl, -⟩ := h.mem hm
    exact ⟨hm, rfl⟩
  | none =>
    simp only [if_neg hi]
    exact ⟨update_self .., trivial⟩

theorem run_same {α : Type} {m : DiskM α} {k : α → Inodes → Inodes} {Q : α → Disk → Prop}
    {F : String → Prop} (hm : wp F m Q s.disk)
    (hk : ∀ a d, Q a d → SameContents s (k a { s with disk := d }) i) :
    SameContents s (s.run m k) i := by
  unfold Inodes.run
  cases hr : m s.disk with
  | ok x => exact hk x.1 x.2 (Wp.wp_ok hm hr)
  | error msg => exact .of_eq rfl rfl

/-- The operation does not write inode `i`. -/
def InodeOp.Quiet (i : ℕ) : InodeOp → Prop
  | .writei j _ _ => j ≠ i
  | _ => True

theorem InodesInv.same_of_quiet {op : InodeOp} (h : InodesInv sb s) (hi : (s.dinode i).type ≠ .free)
    (hsp : op.Spares i) (hq : op.Quiet i) (hs : inodeStep sb devsw op s = some s') :
    SameContents s s' i := by
  unfold inodeStep at hs
  split_ifs at hs with hguard
  cases op with
  | ialloc type =>
    cases hs
    unfold Blocks.ialloc
    cases hf : (List.range sb.ninodes).find? fun j => 1 ≤ j ∧ (s.dinode j).type = .free with
    | none => exact .of_eq rfl rfl
    | some j =>
      have hj : (s.dinode j).type = .free := by
        have := List.find?_some hf
        exact (of_decide_eq_true this).2
      have hij : i ≠ j := by
        rintro rfl
        exact hi hj
      exact .of_eq rfl (update_of_ne hij ..)
  | ilock j =>
    cases hs
    obtain ⟨hd, hf⟩ := iload_same s j
    exact .of_eq hd (by rw [hf])
  | relink j major nlink =>
    obtain ⟨ip, hip, rfl⟩ := Option.map_eq_some_iff.mp hs
    obtain ⟨rfl, -⟩ := h.mem hip
    by_cases hij : i = j
    · subst hij
      have hdin : (s.store i { s.dinode i with major := major, nlink := nlink } true).dinode i =
          { s.dinode i with major := major, nlink := nlink } := update_self ..
      exact ⟨by rw [hdin], by rw [hdin], fun _ => by rw [hdin]; rfl⟩
    · exact .of_eq rfl (update_of_ne hij ..)
  | writei j src off =>
    obtain ⟨ip, hip, rfl⟩ := Option.map_eq_some_iff.mp hs
    obtain ⟨rfl, hfree⟩ := h.mem hip
    have hij : i ≠ j := Ne.symm hq
    obtain ⟨ho, hlen⟩ := hguard.2
    by_cases hno : (s.dinode j).type = .dev ∨ (s.dinode j).size < off ∨
        MAXFILE * BSIZE < off + src.length
    · refine run_same (F := fun _ => False) (wp_writei_refused hlen hno) ?_
      rintro ⟨r, ip'⟩ d ⟨rfl, rfl, -⟩
      exact .of_eq rfl rfl
    · simp only [not_or, not_lt] at hno
      refine run_same (wp_writei h.owned hno.1 hfree hno.2.1 hno.2.2) ?_
      rintro ⟨r, ip', b⟩ d hw
      have hdin : ((Inodes.store { s with disk := d } j ip' b).dinode) i = s.dinode i := by
        cases b with
        | true => exact update_of_ne hij ..
        | false => rfl
      exact ⟨by rw [hdin], by rw [hdin], fun hx => by rw [hdin]; exact hw.other hij hx⟩
  | readi j off n =>
    obtain ⟨ip, hip, rfl⟩ := Option.map_eq_some_iff.mp hs
    obtain ⟨rfl, hfree⟩ := h.mem hip
    refine run_same (F := fun _ => False) (wp_readi_keeps h.owned hguard.2.2) ?_
    rintro ⟨bs, ip'⟩ d ⟨rfl, rfl⟩
    exact .of_eq rfl rfl
  | free j =>
    obtain ⟨ip, hip, rfl⟩ := Option.map_eq_some_iff.mp hs
    obtain ⟨rfl, hfree⟩ := h.mem hip
    have hij : i ≠ j := Ne.symm hsp
    refine run_same (F := fun _ => False) (wp_itrunc h.owned.excl) ?_
    rintro ip' d ⟨hblock, -⟩
    have hdin : update s.dinode j { ip' with type := .free } i = s.dinode i := update_of_ne hij ..
    have hplace (p : ℕ) : place d (s.dinode i) p = place s.disk (s.dinode i) p :=
      place_congr (fun _ => by rw [hblock]) p
    refine ⟨by simp only [hdin], by simp only [hdin], fun _ => ?_⟩
    simp only [hdin, byteAt, blockAt, hblock, hplace]
  | recycle j =>
    cases hs
    exact .of_eq rfl rfl

theorem store_dinode {t : Inodes} {f : ℕ → Dinode} {ip : Dinode} {b : Bool} (hf : t.dinode = f)
    (hb : b = false → ip = f i) : (t.store i ip b).dinode = update f i ip := by
  subst hf
  cases b with
  | true => rfl
  | false =>
    rw [hb rfl, Function.update_eq_self]
    rfl

/-- An operation that spares inode `i` leaves its type, and does not make it shorter. -/
theorem InodesInv.size_le {op : InodeOp} (h : InodesInv sb s) (hi : (s.dinode i).type = .file)
    (hsp : op.Spares i) (hs : inodeStep sb devsw op s = some s') :
    (s'.dinode i).type = (s.dinode i).type ∧ (s.dinode i).size ≤ (s'.dinode i).size := by
  by_cases hq : op.Quiet i
  · have hsame := h.same_of_quiet (by rw [hi]; exact nofun) hsp hq hs
    exact ⟨hsame.type, hsame.size.ge⟩
  cases op with
  | writei j src off =>
    obtain rfl : j = i := not_not.mp hq
    unfold inodeStep at hs
    split_ifs at hs with hguard
    obtain ⟨ip, hip, rfl⟩ := Option.map_eq_some_iff.mp hs
    obtain ⟨rfl, hfree⟩ := h.mem hip
    have hw : wp _ (writei sb devsw (s.dinode j) src off) _ _ :=
      wp_writei_file h.owned (by rw [hi]; exact nofun) hfree hguard.2.2
    unfold Inodes.run
    cases hr : writei sb devsw (s.dinode j) src off s.disk with
    | error msg => exact ⟨rfl, le_rfl⟩
    | ok x =>
      rcases Wp.wp_ok hw hr with ⟨-, hx, -⟩ | ⟨-, -, hw⟩
      · simp only [hx]
        exact ⟨rfl, le_rfl⟩
      · have hdin : (Inodes.store { s with disk := x.2 } j x.1.2.1 x.1.2.2).dinode j = x.1.2.1 := by
          rw [store_dinode (t := { s with disk := x.2 }) rfl hw.kept, update_self]
        simp only [hdin]
        rw [hw.inode]
        exact ⟨rfl, le_max_left ..⟩
  | _ => exact absurd trivial hq

end Ops

/-! ## An open file -/

section Runs

variable {P : Type} [DecidableEq P] {sb : Superblock} {devsw : Devsw} {inum : ℕ} {s s' : Shared P}

/-- The file is a regular one, and the offset is not behind its end. -/
structure Opened (sb : Superblock) (inum : ℕ) (s : Shared P) : Prop where
  inv : InodesInv sb s.inodes
  type : (s.inodes.dinode inum).type = .file
  off_le : s.off ≤ (s.inodes.dinode inum).size

omit [DecidableEq P] in
theorem Opened.loaded (h : Opened sb inum s) :
    (iload s.inodes inum).mem inum = some (s.inodes.dinode inum) ∧
      (iload s.inodes inum).disk = s.inodes.disk ∧ (iload s.inodes inum).dinode = s.inodes.dinode ∧
      (iload s.inodes inum).panicked = s.inodes.panicked := by
  have hne : (s.inodes.dinode inum).type ≠ .free := by
    rw [h.type]
    exact nofun
  obtain ⟨hmem, hpanic⟩ := h.inv.iload_mem hne
  obtain ⟨hdisk, hdinode⟩ := iload_same s.inodes inum
  exact ⟨hmem, hdisk, hdinode, hpanic⟩

variable {p : P} {off₀ : ℕ} {bufs tr : List (P × List UInt8)}

theorem wrote_all {addr : List UInt8} {i n1 : ℕ} (hpos : 0 < n1) (hlt : s.off + n1 < 2 ^ 32) :
    s.wrote p addr i n1 n1 =
      { s with off := s.off + n1, writer := update s.writer p (.busy addr (i + n1)) } := by
  have h₁ : (n1 : ℤ) > 0 := by omega
  have h₂ : ¬ (n1 : ℤ) < 0 := by omega
  simp only [Shared.wrote, if_pos h₁, if_neg h₂, ne_eq, not_true_eq_false, if_false,
    Int.toNat_natCast, Nat.mod_eq_of_lt hlt]
  rfl

theorem wrote_none {addr : List UInt8} {i n1 : ℕ} :
    s.wrote p addr i n1 (-1) = s.set p (.idle (if i = addr.length then addr.length else -1)) := rfl

theorem store_same {t : Inodes} {ip : Dinode} (h : t.mem inum = some ip) :
    t.store inum ip false = t := by
  unfold Inodes.store
  rw [← h, Function.update_eq_self]
  rfl

/-- A chunk has been written. -/
structure ChunkWritten (sb : Superblock) (inum : ℕ) (s s' : Shared P) (c : List UInt8) : Prop where
  inv : InodesInv sb s'.inodes
  type : (s'.inodes.dinode inum).type = .file
  size : (s'.inodes.dinode inum).size = max (s.inodes.dinode inum).size (s.off + c.length)
  off : s'.off = s.off + c.length
  byte : ∀ {x}, x < max (s.inodes.dinode inum).size (s.off + c.length) →
    byteAt s'.inodes.disk (s'.inodes.dinode inum) x =
      if s.off ≤ x ∧ x < s.off + c.length then c.getD (x - s.off) 0
      else byteAt s.inodes.disk (s.inodes.dinode inum) x

/-- What a round of `filewrite` does -/
theorem Opened.round (h : Opened sb inum s) (hs : filewriteRound sb devsw inum s p = some s') :
    (∃ msg, OutOfBlocks msg ∧ s' = { s with inodes := (iload s.inodes inum).panic msg }) ∨
    ∃ addr i, s.writer p = .busy addr i ∧
      ((¬ i < addr.length ∧ ∃ r, s' = s.set p (.idle r)) ∨
      (i < addr.length ∧ MAXFILE * BSIZE < s.off + min (addr.length - i) maxChunk ∧
        ∃ r, s' = { s.set p (.idle r) with inodes := iload s.inodes inum }) ∨
      (i < addr.length ∧ ∃ c, c = (addr.drop i).take (min (addr.length - i) maxChunk) ∧
        s'.writer = update s.writer p (.busy addr (i + c.length)) ∧
        ChunkWritten sb inum s s' c)) := by
  obtain ⟨hmem, hdisk, hdinode, hpanic⟩ := h.loaded
  have hfree : (s.inodes.dinode inum).type ≠ .free := by
    rw [h.type]
    exact nofun
  have hdev : (s.inodes.dinode inum).type ≠ .dev := by
    rw [h.type]
    exact nofun
  have hsize := h.inv.owned.size_le inum
  unfold filewriteRound at hs
  cases hw : s.writer p with
  | idle r =>
    rw [hw] at hs
    cases hs
  | busy addr i =>
    rw [hw] at hs
    by_cases hi : i < addr.length
    · simp only [if_pos hi, Shared.withInode, hmem, hdisk] at hs
      generalize hn1 : min (addr.length - i) maxChunk = n1 at hs ⊢
      have hn1' : n1 ≤ maxChunk ∧ 0 < n1 ∧ n1 ≤ addr.length - i := by lia
      have hlen : ((addr.drop i).take n1).length = n1 := by
        rw [List.length_take, List.length_drop]
        omega
      have hoff : s.off + n1 < 2 ^ 32 := by
        have := h.off_le
        lia
      have hw : wp _ (writei sb devsw (s.inodes.dinode inum) ((addr.drop i).take n1) s.off) _ _ :=
        wp_writei_file h.inv.owned hdev hfree (by omega)
      rw [hlen] at hw
      cases hr : writei sb devsw (s.inodes.dinode inum) ((addr.drop i).take n1)
        s.off s.inodes.disk with
      | error msg =>
        rw [hr] at hs
        cases hs
        exact .inl ⟨msg, Wp.wp_error hw hr, rfl⟩
      | ok x =>
        obtain ⟨⟨r, ip', b⟩, d⟩ := x
        rw [hr] at hs
        simp only at hs
        refine .inr ⟨addr, i, rfl, .inr ?_⟩
        rcases Wp.wp_ok hw hr with ⟨hno, hr', rfl⟩ | ⟨-, -, hw⟩
        · cases hr'
          have hmax := hno.resolve_left (by have := h.off_le; omega)
          rw [wrote_none] at hs
          have ht : ({ iload s.inodes inum with disk := s.inodes.disk } : Inodes) =
              iload s.inodes inum := by rw [← hdisk]
          rw [ht, store_same hmem] at hs
          cases hs
          exact .inl ⟨hi, hn1 ▸ hmax, _, rfl⟩
        · obtain rfl : r = n1 := by
            have := hw.ret
            rwa [hlen] at this
          rw [wrote_all (by omega) (by exact hoff)] at hs
          cases hs
          rw [hn1]
          have hdin : (Inodes.store { iload s.inodes inum with disk := d } inum ip' b).dinode =
              update s.inodes.dinode inum ip' := store_dinode hdinode hw.kept
          have hinode := hw.inode
          simp only [hlen] at hinode
          refine .inr ⟨hi, _, rfl, by rw [hlen], ?_, ?_, ?_, by rw [hlen], fun {x} hx => ?_⟩
          · have hinv := h.inv.iload inum
            refine hinv.store (by rw [hdinode]; exact hw.owned) ?_ (by rw [hdinode]; exact hw.kept)
            rw [hinode]
            exact hfree
          · simp only [hdin, update_self]
            rw [hinode]
            exact h.type
          · simp only [hdin, update_self, hlen]
            rw [hinode]
          · simp only [hdin, update_self]
            exact hw.byte hx
    · simp only [if_neg hi] at hs
      cases hs
      exact .inr ⟨addr, i, rfl, .inl ⟨hi, _, rfl⟩⟩

omit [DecidableEq P] in
theorem Opened.of_eq (h : Opened sb inum s) (hinv : InodesInv sb s'.inodes)
    (hd : s'.inodes.dinode = s.inodes.dinode) (hoff : s'.off = s.off) : Opened sb inum s' :=
  ⟨hinv, by rw [hd, h.type], by rw [hoff, hd]; exact h.off_le⟩

theorem InodesInv.iload_panic {t : Inodes} (h : InodesInv sb t) {msg : String}
    (hmsg : OutOfBlocks msg) : InodesInv sb ((Blocks.iload t inum).panic msg) := by
  refine (h.iload inum).panicked ?_
  rw [hmsg]
  decide

/-- The offset never gets behind the end of the file, whatever is done with it. -/
theorem Opened.step {l : SharedLabel P} (h : Opened sb inum s)
    (hs : sharedStep sb devsw inum l s = some s') : Opened sb inum s' := by
  obtain ⟨hmem, hdisk, hdinode, hpanic⟩ := h.loaded
  unfold sharedStep at hs
  split_ifs at hs with hrun
  cases l with
  | write p buf =>
    simp only [sharedCall] at hs
    split at hs
    · split_ifs at hs
      cases hs
      exact ⟨h.inv, h.type, h.off_le⟩
    · cases hs
  | round p =>
    rcases h.round hs with ⟨msg, hmsg, rfl⟩ | ⟨addr, i, hw, hcase⟩
    · exact h.of_eq (h.inv.iload_panic hmsg) hdinode rfl
    rcases hcase with ⟨-, r, rfl⟩ | ⟨-, -, r, rfl⟩ | ⟨-, c, -, -, hc⟩
    · exact h.of_eq h.inv rfl rfl
    · exact h.of_eq (h.inv.iload inum) hdinode rfl
    · exact ⟨hc.inv, hc.type, by rw [hc.off, hc.size]; exact le_max_right ..⟩
  | read n =>
    simp only [sharedCall] at hs
    split_ifs at hs with hn
    have hsize := h.inv.owned.size_le inum
    have hoff := h.off_le
    have hread : wp (fun _ => False) (readi sb devsw (s.inodes.dinode inum) s.off n) _ _ :=
      wp_readi h.inv.owned (by rw [h.type]; exact nofun) h.off_le (by lia)
    obtain ⟨⟨bs, ip⟩, d, hr, rfl, hbs⟩ := Wp.exists_ok hread
    cases hbs
    have ht : ({ iload s.inodes inum with disk := s.inodes.disk } : Inodes) =
        iload s.inodes inum := by rw [← hdisk]
    simp only [filereadCall, Shared.withInode, hmem, hdisk, hr, ht, store_same hmem] at hs
    cases hs
    refine ⟨h.inv.iload inum, by rw [hdinode, h.type], ?_⟩
    simp only [hdinode, List.length_map, List.length_range]
    split_ifs
    · rw [Nat.mod_eq_of_lt (by lia)]
      omega
    · exact hoff
  | other op =>
    simp only [sharedCall] at hs
    split_ifs at hs with hsp
    obtain ⟨t, ht, rfl⟩ := Option.map_eq_some_iff.mp hs
    obtain ⟨htype, hsize⟩ := h.inv.size_le h.type hsp ht
    exact ⟨h.inv.step ht, htype.trans h.type, h.off_le.trans hsize⟩

/-- What a writer has still to write -/
def Writer.rest : Writer → List UInt8
  | .idle _ => []
  | .busy addr i => addr.drop i

/-- The buffers that writers are called with by a label -/
def SharedLabel.buffer : SharedLabel P → List (P × List UInt8)
  | .write p buf => [(p, buf)]
  | _ => []

/-- Nobody reads through the open file, or writes to its inode otherwise. -/
def SharedLabel.Only (inum : ℕ) : SharedLabel P → Prop
  | .read _ => False
  | .other op => op.Quiet inum
  | _ => True

/-- Since the offset was `off₀`, the writers have been called with `bufs`, and have written the
chunks `tr`. -/
structure Phase (sb : Superblock) (inum off₀ : ℕ) (bufs tr : List (P × List UInt8)) (s : Shared P) :
    Prop where
  opened : Opened sb inum s
  off_eq : s.off = off₀ + (bytes tr).length
  byte : ∀ {k}, k < (bytes tr).length →
    byteAt s.inodes.disk (s.inodes.dinode inum) (off₀ + k) = (bytes tr).getD k 0
  chunk : ∀ p, ofWriter tr p ++ chunks (s.writer p).rest = (ofWriter bufs p).flatMap chunks
  short : ∀ c ∈ tr, c.2.length ≤ maxChunk

theorem flatMap_chunks_flatten (bufs : List (List UInt8)) :
    (bufs.flatMap chunks).flatten = bufs.flatten := by
  induction bufs with
  | nil => rfl
  | cons b bufs ih =>
    rw [List.flatMap_cons, List.flatten_append, chunks_flatten, ih, List.flatten_cons]

/-- A chunk that is to be written next fits into the file. -/
theorem Phase.fits (h : Phase sb inum off₀ bufs tr s)
    {c : List UInt8} {rest : List (List UInt8)} (hc : chunks (s.writer p).rest = c :: rest) :
    (bytes tr).length + c.length ≤ (bytes bufs).length := by
  have hle : (bytes (tr ++ [(p, c)])).length ≤ (bytes bufs).length := by
    refine length_bytes_le fun q => ?_
    rw [← flatMap_chunks_flatten (ofWriter bufs q), ← h.chunk q, ofWriter_append]
    by_cases hq : p = q
    · subst hq
      rw [ofWriter_self, hc]
      simp
    · rw [ofWriter_of_ne hq]
      simp
  rw [bytes_append, List.length_append] at hle
  simpa [bytes] using hle

theorem Phase.keep (h : Phase sb inum off₀ bufs tr s)
    (hopen : Opened sb inum s') (hsame : SameContents s.inodes s'.inodes inum)
    (hoff : s'.off = s.off)
    (hrest : ∀ p, (s'.writer p).rest = (s.writer p).rest) : Phase sb inum off₀ bufs tr s' := by
  refine ⟨hopen, hoff.trans h.off_eq, fun {k} hk => ?_, fun p => ?_, h.short⟩
  · have := h.opened.off_le
    rw [h.off_eq] at this
    rw [hsame.byte (by omega), h.byte hk]
  · rw [hrest, h.chunk p]

theorem rest_update {w : P → Writer} {x : Writer} (hx : x.rest = (w p).rest) (q : P) :
    (update w p x q).rest = (w q).rest := by
  by_cases hq : q = p
  · rw [hq, update_self, hx]
  · rw [update_of_ne hq]

omit [DecidableEq P] in
/-- The chunk that a round writes is the next one. -/
theorem next_chunk {addr : List UInt8} {i : ℕ} (hw : s.writer p = .busy addr i)
    (hi : i < addr.length) :
    (addr.drop i).take (min (addr.length - i) maxChunk) = (addr.drop i).take maxChunk ∧
      chunks (s.writer p).rest = (addr.drop i).take maxChunk :: chunks
      ((addr.drop i).drop maxChunk) := by
  constructor
  · rw [← List.length_drop, Nat.min_comm, ← List.take_take, List.take_length]
  · have hne : addr.drop i ≠ [] := by
      rw [ne_eq, List.drop_eq_nil_iff]
      omega
    rw [hw]
    exact chunks_cons hne

theorem drop_length_take (bs : List UInt8) (n : ℕ) : bs.drop (bs.take n).length = bs.drop n := by
  rw [List.length_take]
  rcases Nat.le_total n bs.length with hle | hle
  · rw [Nat.min_eq_left hle]
  · rw [Nat.min_eq_right hle, List.drop_length, List.drop_eq_nil_of_le hle]

theorem Phase.step {l : SharedLabel P}
    (h : Phase sb inum off₀ bufs tr s) (hs : sharedStep sb devsw inum l s = some s')
    (honly : l.Only inum) (hmax : off₀ + (bytes bufs).length ≤ MAXFILE * BSIZE) :
    ∃ tr', Phase sb inum off₀ (bufs ++ l.buffer) tr' s' := by
  have hopen := h.opened.step hs
  obtain ⟨hmem, hdisk, hdinode, hpanic⟩ := h.opened.loaded
  unfold sharedStep at hs
  split_ifs at hs with hrun
  cases l with
  | write p buf =>
    simp only [sharedCall] at hs
    split at hs
    · rename_i r hw
      split_ifs at hs
      cases hs
      refine ⟨tr, hopen, h.off_eq, h.byte, fun q => ?_, h.short⟩
      have hq := h.chunk q
      rw [SharedLabel.buffer, ofWriter_append, List.flatMap_append, ← hq]
      by_cases hpq : p = q
      · subst hpq
        simp [Shared.set, hw, Writer.rest, ofWriter_self]
      · have hne : q ≠ p := Ne.symm hpq
        simp [Shared.set, ofWriter_of_ne hpq, update_of_ne hne]
    · cases hs
  | round p =>
    rw [show bufs ++ (SharedLabel.round p).buffer = bufs from List.append_nil _]
    rcases h.opened.round hs with ⟨msg, hmsg, rfl⟩ | ⟨addr, i, hw, hcase⟩
    · exact ⟨tr, h.keep hopen (.of_eq hdisk (congrFun hdinode inum)) rfl fun _ => rfl⟩
    rcases hcase with ⟨hi, r, rfl⟩ | ⟨hi, hno, r, rfl⟩ | ⟨hi, c, hc, hwriter, hcw⟩
    · refine ⟨tr, h.keep hopen (.of_eq rfl rfl) rfl (rest_update ?_)⟩
      rw [hw, Writer.rest, Writer.rest, List.drop_eq_nil_of_le (by omega)]
    · -- there is room for what is still to be written
      obtain ⟨htake, hchunks⟩ := next_chunk hw hi
      have hfits := h.fits hchunks
      rw [← htake, List.length_take, List.length_drop] at hfits
      have := h.off_eq
      omega
    · obtain ⟨htake, hchunks⟩ := next_chunk hw hi
      obtain rfl : c = (addr.drop i).take maxChunk := hc.trans htake
      generalize hc' : (addr.drop i).take maxChunk = c at *
      have hoff := h.off_eq
      refine ⟨tr ++ [(p, c)], hopen, ?_, fun {k} hk => ?_, fun q => ?_, ?_⟩
      · rw [hcw.off, hoff, bytes_append, List.length_append, Nat.add_assoc]
        simp [bytes]
      · rw [bytes_append, List.length_append] at hk
        have hbytes : bytes [(p, c)] = c := by simp [bytes]
        rw [hbytes] at hk
        rw [hcw.byte (by omega), bytes_append, hbytes]
        by_cases hlt : k < (bytes tr).length
        · rw [if_neg (by omega), h.byte hlt, List.getD_append _ _ _ _ hlt]
        · rw [if_pos (by omega), List.getD_append_right _ _ _ _ (by omega)]
          congr 1
          omega
      · rw [hwriter, ← h.chunk q, ofWriter_append, List.append_assoc]
        congr 1
        by_cases hq : p = q
        · subst hq
          rw [ofWriter_self, update_self, Writer.rest, hchunks, ← hc', ← List.drop_drop,
            drop_length_take]
          rfl
        · rw [ofWriter_of_ne hq, update_of_ne (Ne.symm hq), List.nil_append]
      · intro x hx
        rcases List.mem_append.mp hx with hx | hx
        · exact h.short x hx
        · rw [List.mem_singleton.mp hx, ← hc', List.length_take]
          exact Nat.min_le_left ..
  | read n => exact honly.elim
  | other op =>
    simp only [sharedCall] at hs
    split_ifs at hs with hsp
    obtain ⟨t, ht, rfl⟩ := Option.map_eq_some_iff.mp hs
    have hfree : (s.inodes.dinode inum).type ≠ .free := by
      rw [h.opened.type]
      exact nofun
    rw [show bufs ++ (SharedLabel.other op).buffer = bufs from List.append_nil _]
    exact ⟨tr, h.keep hopen (h.opened.inv.same_of_quiet hfree hsp honly ht) rfl fun _ => rfl⟩

theorem Phase.run {ls : List (SharedLabel P)}
    (h : Phase sb inum off₀ bufs tr s) (hx : exec (sharedStep sb devsw inum) ls s = some s')
    (honly : ∀ l ∈ ls, l.Only inum)
    (hmax : off₀ + (bytes (bufs ++ ls.flatMap SharedLabel.buffer)).length ≤ MAXFILE * BSIZE) :
    ∃ tr', Phase sb inum off₀ (bufs ++ ls.flatMap SharedLabel.buffer) tr' s' := by
  induction ls generalizing s bufs tr with
  | nil =>
    rw [Transition.exec_nil] at hx
    cases hx
    exact ⟨tr, by rwa [List.flatMap_nil, List.append_nil]⟩
  | cons l ls ih =>
    obtain ⟨s₁, hs, hx⟩ := Transition.exec_cons_some.mp hx
    have hroom : off₀ + (bytes bufs).length ≤ MAXFILE * BSIZE := by
      rw [bytes_append, List.length_append] at hmax
      omega
    obtain ⟨tr₁, h₁⟩ := h.step hs (honly l List.mem_cons_self) hroom
    rw [List.flatMap_cons, ← List.append_assoc] at hmax ⊢
    exact ih h₁ hx (fun l' hl' => honly l' (List.mem_cons_of_mem l hl')) hmax

/-- **No lost or overlapping writes**: whatever was done with an open file before, when processes
write to it, and nobody reads through it or writes to its inode otherwise, then the bytes from the
offset on are their chunks.  The chunks of each writer are in order, none is missing, and the offset
advances by what they have written. -/
theorem shared_writes {ls₀ ls : List (SharedLabel P)} {s₀ s₁ : Shared P} (hopen : Opened sb inum s₀)
    (hx₀ : exec (sharedStep sb devsw inum) ls₀ s₀ = some s₁)
    (hidle₁ : ∀ p, ∃ r, s₁.writer p = .idle r)
    (hx : exec (sharedStep sb devsw inum) ls s₁ = some s) (hidle : ∀ p, ∃ r, s.writer p = .idle r)
    (honly : ∀ l ∈ ls, l.Only inum)
    (hmax : s₁.off + (bytes (ls.flatMap SharedLabel.buffer)).length ≤ MAXFILE * BSIZE) :
    ∃ tr : List (P × List UInt8),
      (∀ p, ofWriter tr p = (ofWriter (ls.flatMap SharedLabel.buffer) p).flatMap chunks) ∧
      (∀ c ∈ tr, c.2.length ≤ 1536) ∧
      (∀ k < (bytes tr).length,
        byteAt s.inodes.disk (s.inodes.dinode inum) (s₁.off + k) = (bytes tr).getD k 0) ∧
      (bytes tr).length = (bytes (ls.flatMap SharedLabel.buffer)).length ∧
      s.off = s₁.off + (bytes (ls.flatMap SharedLabel.buffer)).length ∧
      s.off ≤ (s.inodes.dinode inum).size := by
  have hopen₁ : Opened sb inum s₁ :=
    Transition.Reachable.invariant ⟨ls₀, hx₀⟩ hopen fun _ _ _ h hs => h.step hs
  have hstart : Phase sb inum s₁.off [] [] s₁ := by
    refine ⟨hopen₁, rfl, nofun, fun p => ?_, nofun⟩
    obtain ⟨r, hr⟩ := hidle₁ p
    rw [hr]
    rfl
  obtain ⟨tr, h⟩ := hstart.run hx honly hmax
  rw [List.nil_append] at h
  have hall (p : P) : ofWriter tr p =
      (ofWriter (ls.flatMap SharedLabel.buffer) p).flatMap chunks := by
    obtain ⟨r, hr⟩ := hidle p
    rw [← h.chunk p, hr, Writer.rest, chunks_nil, List.append_nil]
  have hlen : (bytes tr).length = (bytes (ls.flatMap SharedLabel.buffer)).length := by
    refine le_antisymm (length_bytes_le fun p => ?_) (length_bytes_le fun p => ?_)
    · rw [hall, flatMap_chunks_flatten]
    · rw [hall, flatMap_chunks_flatten]
  exact ⟨tr, hall, h.short, fun k hk => h.byte hk, hlen, by rw [← hlen, h.off_eq], h.opened.off_le⟩

end Runs

/-- Two processes with an empty file open -/
def tinyShared : Shared Bool where
  inodes := ⟨tinyDisk, update tinyDinode 1 ⟨.file, 0, 0, 0, fun _ => 0⟩, fun _ => none, none⟩
  off := 0
  writer _ := .idle 0

/-- Both write, and the second one first. -/
theorem shared_writes_two : ∃ s : Shared Bool,
    exec (sharedStep tinySb (fun _ => none) 1) [.write true [1, 2], .write false [3], .round false,
      .round true, .round true, .round false] tinyShared = some s ∧
    s.off = 3 ∧ ∃ tr : List (Bool × List UInt8),
      (∀ k < (bytes tr).length,
        byteAt s.inodes.disk (s.inodes.dinode 1) (0 + k) = (bytes tr).getD k 0) ∧
      (bytes tr).length = 3 := by
  have hopen : Opened tinySb 1 tinyShared :=
    ⟨⟨tiny_owned.alloc rfl .file, nofun, nofun⟩, rfl, Nat.zero_le _⟩
  have hrun : ∃ s : Shared Bool, exec (sharedStep tinySb (fun _ => none) 1) [.write true [1, 2],
      .write false [3], .round false, .round true, .round true, .round false] tinyShared = some s ∧
      s.off = 3 ∧ s.writer false = .idle 1 ∧ s.writer true = .idle 2 :=
    Transition.exists_exec _ _ (by decide +kernel)
  obtain ⟨s, hx, hoff, h₀, h₁⟩ := hrun
  have hnone : exec (sharedStep tinySb (fun _ => none) 1) [] tinyShared = some tinyShared := rfl
  obtain ⟨tr, -, -, hbytes, hlen, -⟩ := shared_writes hopen hnone (fun _ => ⟨0, rfl⟩) hx
    (by
      intro p
      cases p with
      | false => exact ⟨1, h₀⟩
      | true => exact ⟨2, h₁⟩)
    (by simp [SharedLabel.Only]) (by decide)
  exact ⟨s, hx, hoff, tr, hbytes, hlen⟩

end Xv6Mlfq.Blocks
