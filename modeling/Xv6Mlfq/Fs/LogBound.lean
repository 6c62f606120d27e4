import Xv6Mlfq.Fs.LogCost

/-!
# The blocks of a transaction

No transaction logs more than `MAXOPBLOCKS` blocks, on a disk whose bitmap is one block.

Looking up a path must log nothing, however long the path is.  `iput` would, for an inode that has
no links and no other references; so what has a name must have a link, or a reference, or be free.

## Main definitions

* `WellFormed l cwd v` — the disk is sound, and so is what the paths of a process lead to.
* `Held v₀ ip v` — `v` differs from `v₀` in one more reference to `ip`.
* `logged m v` — the blocks that `m` logs.

## Main results

* `wp_namexLoop` — a lookup logs nothing.
* `wp_dirlookup_eq`, `wp_dirlink_eq`, `wp_namex` — the results are those without a log.
* `costs_dirlink`, `wp_create` — what the functions on directories log.
* `log_allowance` — no transaction logs too much.
-/

namespace Xv6Mlfq.Blocks.Logged

open Function (update update_self update_of_ne)
open Wp (wp wp_mono wp_and wp_faults wp_bind wp_pure wp_look wp_modify)
open Allowance (Adds spends_pure spends_of_wp spends_of_known spends_bind)

/-! ## Directories -/

/-- The directory `i` has an entry for the inode `x`. -/
def Entry (v : Volume) (i x : ℕ) : Prop :=
  (v.inode i).type = .dir ∧ x ≠ 0 ∧ ∃ off, off + direntSize ≤ (v.inode i).size ∧
    deInum (fun j => byteAt v.disk (v.inode i) (off + j)) = x

section Directories

variable {l : Layout} {devsw : Devsw} {v : Volume} {i : ℕ}

theorem wp_readDirent {msg : String} {off : ℕ} (h : Owned l.sb v.disk v.inode)
    (hdir : (v.inode i).type = .dir) (hoff : off < (v.inode i).size) :
    wp (fun e => e.2 = v.log) (readDirent l devsw msg (v.inode i) off)
    (fun r v' => v' = v ∧ r.2 = v.inode i ∧
      off + direntSize ≤ (v.inode i).size ∧
      deInum r.1 = deInum fun j => byteAt v.disk (v.inode i) (off + j)) v := by
  have hsize := h.size_le i
  have hdev : (v.inode i).type ≠ .dev := by
    rw [hdir]
    decide
  rw [readDirent, wp_bind]
  refine wp_mono (wp_faults (wp_readi h hdev hoff.le (by lia)) nofun) ?_
  rintro _ v' ⟨rfl, rfl⟩
  dsimp only
  split_ifs with hlen
  · exact wp_panic.mpr rfl
  · rw [not_not, List.length_map, List.length_range] at hlen
    rw [wp_pure, hlen]
    refine ⟨rfl, rfl, by omega, ?_⟩
    rw [deInum, deInum]
    rfl

/-- The loop of `dirlookup` logs nothing, and finds an entry if it finds anything. -/
theorem wp_lookupLoop {name : Bytes} {fuel off : ℕ} (h : Owned l.sb v.disk v.inode)
    (hdir : (v.inode i).type = .dir) :
    wp (fun e => e.2 = v.log) (lookupLoop l devsw name fuel (v.inode i) off) (fun r v' => v' = v ∧
      r.2 = v.inode i ∧ ∀ x o, r.1 = some (x, o) → Entry v i x) v := by
  induction fuel generalizing off with
  | zero => exact wp_pure.mpr ⟨rfl, rfl, nofun⟩
  | succ fuel ih =>
    rw [lookupLoop]
    split_ifs with hoff
    swap
    · exact wp_pure.mpr ⟨rfl, rfl, nofun⟩
    refine wp_bind.mpr (wp_mono (wp_readDirent h hdir hoff) ?_)
    rintro ⟨de, _⟩ v' ⟨rfl, rfl, hin, hde⟩
    dsimp only at hde ⊢
    split_ifs with h0
    · exact ih
    · refine wp_pure.mpr ⟨rfl, rfl, ?_⟩
      rintro x o ⟨⟩
      exact ⟨hdir, h0, off, hin, hde.symm⟩
    · exact ih

theorem wp_dirlookup {name : Bytes} (h : Owned l.sb v.disk v.inode) :
    wp (fun e => e.2 = v.log) (dirlookup l devsw i name) (fun r v' => (v.inode i).type = .dir ∧
      (r = none ∧ v' = v ∨ ∃ x o, r = some (x, o) ∧ v' = v.got x ∧ Entry v i x)) v := by
  rw [dirlookup, wp_bind, wp_look]
  split_ifs with hdir
  · exact wp_panic.mpr rfl
  rw [not_not] at hdir
  refine wp_bind.mpr (wp_mono (wp_lookupLoop h hdir) ?_)
  rintro ⟨found, _⟩ v' ⟨rfl, rfl, hfound⟩
  rw [wp_bind, setInode, wp_modify, Function.update_eq_self]
  cases found with
  | none => exact wp_pure.mpr ⟨hdir, .inl ⟨rfl, rfl⟩⟩
  | some p =>
    obtain ⟨x, o⟩ := p
    rw [wp_bind, iget, wp_modify, wp_pure]
    exact ⟨hdir, .inr ⟨x, o, rfl, rfl, hfound x o rfl⟩⟩

/-- `dirlookup` returns what the one without a log returns. -/
theorem wp_dirlookup_eq {name : Bytes} (h : Owned l.sb v.disk v.inode) :
    wp (fun _ => True) (dirlookup l devsw i name) (fun r _ =>
      Blocks.dirlookup l.sb devsw (v.inode i) name v.disk = .ok ((r, v.inode i), v.disk)) v := by
  rw [dirlookup, wp_bind, wp_look, Blocks.dirlookup]
  split_ifs with hdir
  · exact wp_panic.mpr trivial
  refine wp_bind.mpr (wp_mono (wp_and (erases_lookupLoop.eq_ok v)
    (wp_lookupLoop h (not_not.mp hdir))) ?_)
  rintro ⟨found, _⟩ v' ⟨heq, rfl, rfl, -⟩
  rw [wp_bind, setInode, wp_modify]
  cases found with
  | none => exact wp_pure.mpr heq
  | some p => exact wp_bind.mpr (wp_modify.mpr (wp_pure.mpr heq))

/-- The loop of `dirlink` logs nothing, and ends at the beginning of an entry. -/
theorem wp_emptyLoop {fuel off : ℕ} (h : Owned l.sb v.disk v.inode) (hdir : (v.inode i).type = .dir)
    (hoff : direntSize ∣ off) :
    wp (fun e => e.2 = v.log) (emptyLoop l devsw fuel (v.inode i) off) (fun r v' => v' = v ∧
      r.2 = v.inode i ∧ direntSize ∣ r.1) v := by
  induction fuel generalizing off with
  | zero => exact wp_pure.mpr ⟨rfl, rfl, hoff⟩
  | succ fuel ih =>
    rw [emptyLoop]
    split_ifs with hlt
    swap
    · exact wp_pure.mpr ⟨rfl, rfl, hoff⟩
    refine wp_bind.mpr (wp_mono (wp_readDirent h hdir hlt) ?_)
    rintro ⟨de, _⟩ v' ⟨rfl, rfl, -, -⟩
    dsimp only
    split_ifs
    · exact wp_pure.mpr ⟨rfl, rfl, hoff⟩
    · exact ih (Nat.dvd_add hoff (dvd_refl _))

/-- An entry that `dirlink` makes is made without a log, too. -/
theorem wp_dirlink_eq {name : Bytes} {inum : ℕ} (h : Owned l.sb v.disk v.inode) :
    wp (fun _ => True) (dirlink l devsw i name inum) (fun ret v' => ret = 0 → ∃ dp,
      Blocks.dirlink l.sb devsw (v.inode i) name inum v.disk = .ok ((0, dp), v'.disk) ∧
        v'.inode = update v.inode i dp) v := by
  rw [dirlink]
  refine wp_bind.mpr (wp_mono (wp_and (wp_dirlookup_eq h) (wp_dirlookup h)) ?_)
  rintro _ v₁ ⟨heq, hdir, ⟨rfl, rfl⟩ | ⟨x, o, rfl, rfl, -⟩⟩
  swap
  · exact wp_bind.mpr (wp_mono Wp.wp_self fun _ _ _ => wp_pure.mpr nofun)
  rw [wp_bind, wp_look, wp_bind]
  refine wp_mono (wp_and (erases_emptyLoop.eq_ok v₁) (wp_emptyLoop h hdir (dvd_zero _))) ?_
  rintro ⟨off, _⟩ v₂ ⟨hempty, rfl, rfl, -⟩
  refine wp_bind.mpr (wp_mono (erases_writeDirent v₂ (fun _ => True) _ Wp.wp_self) ?_)
  rintro dp v₃ ⟨hwrite, hinode⟩
  rw [wp_bind, setInode, wp_modify, wp_pure]
  refine fun _ => ⟨dp, ?_, by rw [hinode]⟩
  rw [Blocks.dirlink, Wp.bind_of_ok heq]
  exact (Wp.bind_of_ok hempty).trans (Wp.bind_of_ok hwrite)

theorem wp_isdiremptyLoop {fuel off : ℕ} (h : Owned l.sb v.disk v.inode)
    (hdir : (v.inode i).type = .dir) :
    wp (fun e => e.2 = v.log) (isdiremptyLoop l devsw fuel (v.inode i) off) (fun r v' => v' = v ∧
      r.2 = v.inode i) v := by
  induction fuel generalizing off with
  | zero => exact wp_pure.mpr ⟨rfl, rfl⟩
  | succ fuel ih =>
    rw [isdiremptyLoop]
    split_ifs with hlt
    swap
    · exact wp_pure.mpr ⟨rfl, rfl⟩
    refine wp_bind.mpr (wp_mono (wp_readDirent h hdir hlt) ?_)
    rintro ⟨de, _⟩ v' ⟨rfl, rfl, -, -⟩
    dsimp only
    split_ifs
    · exact wp_pure.mpr ⟨rfl, rfl⟩
    · exact ih

theorem wp_occupied (h : Owned l.sb v.disk v.inode) :
    wp (fun e => e.2 = v.log) (occupied l devsw i) (fun _ v' => v' = v) v := by
  rw [occupied, wp_bind, wp_look]
  split_ifs with hdir
  swap
  · exact wp_pure.mpr rfl
  rw [wp_bind, isdirempty, wp_bind, wp_look, wp_bind]
  refine wp_mono (wp_isdiremptyLoop h hdir) ?_
  rintro ⟨empty, _⟩ v' ⟨rfl, rfl⟩
  rw [wp_bind, setInode, wp_modify, wp_pure, wp_pure, Function.update_eq_self]

/-- A write to a directory that succeeds -/
theorem wp_writei_owned {de : List UInt8} {off : ℕ} (h : Owned l.sb v.disk v.inode)
    (hdir : (v.inode i).type = .dir) (hde : de.length = direntSize) :
    wp (fun _ => True) (writei l devsw i (v.inode i) de off) (fun r v' => r.1 = direntSize →
      Owned l.sb v'.disk (update v'.inode i r.2.1)) v := by
  have hdev : (v.inode i).type ≠ .dev := by
    rw [hdir]
    decide
  have hfree : (v.inode i).type ≠ .free := by
    rw [hdir]
    decide
  have hneg : (-1 : ℤ) ≠ direntSize := by decide
  by_cases hoff : off ≤ (v.inode i).size
  · have hsize := h.size_le i
    have hlen : de.length < 2 ^ 32 := by
      rw [hde]
      norm_num
    refine wp_mono (wp_faults (erases_writei v _ _ (wp_writei_file h hdev hfree hlen))
      fun _ _ => trivial) ?_
    rintro r v' ⟨hres, hinode⟩ hret
    rw [hinode]
    rcases hres with ⟨-, hno, -⟩ | ⟨-, -, hw⟩
    · rw [hno] at hret
      exact absurd hret hneg
    · exact hw.owned
  · rw [writei, if_neg hdev, if_pos (.inl (Nat.lt_of_not_le hoff)), wp_pure]
    intro hret
    exact absurd hret hneg

/-- An entry is written; it is in `k` blocks. -/
theorem costs_writeDirent {msg : String} {de : List UInt8} {off k : ℕ} (hone : l.sb.size ≤ BPB)
    (h : Owned l.sb v.disk v.inode) (hdir : (v.inode i).type = .dir) (hde : de.length = direntSize)
    (hk : off % BSIZE + direntSize ≤ k * BSIZE) :
    Costs {l.sb.bmapstart, l.iblock i} (2 * k) (writeDirent l devsw msg i (v.inode i) de off)
      (fun dp' v' => Owned l.sb v'.disk (update v'.inode i dp')) v := by
  have hwrite : Costs {l.sb.bmapstart, l.iblock i} (2 * k)
      (writei l devsw i (v.inode i) de off) _ v :=
    costs_writei hone (by rwa [hde])
  refine (hwrite.and (wp_writei_owned h hdir hde)).bind (k := 0) ?_
  rintro ⟨ret, dp', iupdate⟩ v' ⟨-, howned⟩
  dsimp only
  split_ifs with hret
  · exact costs_panic
  · exact spends_pure (howned (not_not.mp hret))

end Directories

/-! ## References -/

section References

variable {F : String × List ℕ → Prop} {l : Layout} {devsw : Devsw} {v v₀ : Volume} {i x : ℕ}

@[simp] theorem got_ref : (v.got x).ref = update v.ref x (v.ref x + 1) := rfl

theorem got_valid_self (h : v.ref x = 0) : (v.got x).valid x = false := by
  rw [Volume.got, if_pos h]
  exact update_self ..

theorem got_valid_other (h : i ≠ x ∨ v.ref x ≠ 0) : (v.got x).valid i = v.valid i := by
  rw [Volume.got]
  dsimp only
  split_ifs with h0
  · rw [update_of_ne (h.resolve_right (not_not.mpr h0))]
  · rfl

/-- `ilock` reads the inode, which is not free. -/
theorem wp_ilock : wp (fun e => e.2 = v.log) (ilock i) (fun _ v' =>
    (v.valid i = false → (v.inode i).type ≠ .free) ∧ v' =
      { v with valid := update v.valid i true }) v := by
  rw [ilock, wp_bind, wp_look]
  split_ifs
  · exact wp_panic.mpr rfl
  rw [wp_bind, wp_look]
  split_ifs with hvalid
  · refine wp_pure.mpr ⟨fun hno => absurd hvalid (by rw [hno]; decide), ?_⟩
    rw [← hvalid, Function.update_eq_self]
  · rw [wp_bind, wp_modify, wp_bind, wp_look]
    split_ifs with hfree
    · exact wp_panic.mpr rfl
    · exact wp_pure.mpr ⟨fun _ => hfree, rfl⟩

/-- The disk, the inodes and the log stay as they are. -/
structure Kept (v₀ v : Volume) : Prop where
  disk : v.disk = v₀.disk
  inode : v.inode = v₀.inode
  log : v.log = v₀.log

/-- There is one more reference to `ip`.  If it is the only one, and the inode has been read, the
inode has links. -/
structure Held (v₀ : Volume) (ip : ℕ) (v : Volume) : Prop extends Kept v₀ v where
  ref : v.ref = update v₀.ref ip (v₀.ref ip + 1)
  linked : v₀.ref ip = 0 → v.valid ip = true → (v₀.inode ip).nlink ≠ 0

theorem held_got : Held v x (v.got x) := by
  refine ⟨⟨rfl, rfl, rfl⟩, rfl, ?_⟩
  intro h0 hvalid
  rw [got_valid_self h0] at hvalid
  cases hvalid

/-- The inode is not freed. -/
theorem Held.wp_iput {ip : ℕ} (h : Held v₀ ip v) :
    wp F (iput l ip) (fun _ v' => Kept v₀ v') v := by
  refine wp_mono (wp_iput_kept ?_) ?_
  · intro hvalid hnlink href
    rw [h.ref, update_self] at href
    rw [h.inode] at hnlink
    exact h.linked (by omega) hvalid hnlink
  · rintro - v' rfl
    exact ⟨h.disk, h.inode, h.log⟩

/-- From one inode to the next, which may be the same -/
theorem Held.wp_iput_got {ip : ℕ} (h : Held v₀ ip v) :
    wp F (iput l ip) (fun _ v' => Held v₀ x v') (v.got x) := by
  by_cases hx : x = ip
  · subst hx
    have href : v.ref x = v₀.ref x + 1 := by rw [h.ref, update_self]
    have hgot : (v.got x).ref x = v₀.ref x + 2 := by rw [got_ref, update_self, href]
    refine wp_mono (wp_iput_kept fun _ _ => by omega) ?_
    rintro - v' rfl
    refine ⟨⟨h.disk, h.inode, h.log⟩, ?_, ?_⟩
    · dsimp only
      rw [hgot, got_ref, Function.update_idem, h.ref, Function.update_idem]
      rfl
    · dsimp only
      rw [got_valid_other (.inr (by omega))]
      exact h.linked
  · have hvalid : (v.got x).valid ip = v.valid ip := got_valid_other (.inl (Ne.symm hx))
    have href : (v.got x).ref ip = v₀.ref ip + 1 := by
      rw [got_ref, update_of_ne (Ne.symm hx), h.ref, update_self]
    have hrefx : v.ref x = v₀.ref x := by rw [h.ref, update_of_ne hx]
    refine wp_mono (wp_iput_kept ?_) ?_
    · intro hval hnlink hone
      rw [hvalid] at hval
      have hnlink' : (v₀.inode ip).nlink = 0 := by rwa [← h.inode]
      exact h.linked (by omega) hval hnlink'
    · rintro - v' rfl
      refine ⟨⟨h.disk, h.inode, h.log⟩, ?_, ?_⟩
      · dsimp only
        rw [href, got_ref, hrefx, h.ref, Function.update_comm hx, Function.update_idem,
          Nat.add_sub_cancel, Function.update_eq_self]
      · intro h0 hval
        rw [show _ = false from got_valid_self (hrefx.trans h0)] at hval
        cases hval

end References

/-! ## Paths -/

/-- What the paths of a process with the directory `cwd` lead to -/
inductive Reach (v : Volume) (cwd : ℕ) : ℕ → Prop
  | root : Reach v cwd ROOTINO
  | cwd : Reach v cwd cwd
  | entry {i x : ℕ} (hi : Reach v cwd i) (hx : Entry v i x) : Reach v cwd x

/-- `x` is in use, or it is free. -/
def Calm (v : Volume) (x : ℕ) : Prop :=
  (v.inode x).nlink ≠ 0 ∨ 0 < v.ref x ∨ (v.inode x).type = .free

/-- The disk is sound, and what has a name is in use or free. -/
structure WellFormed (l : Layout) (cwd : ℕ) (v : Volume) : Prop where
  owned : Owned l.sb v.disk v.inode
  calm : ∀ {x}, Reach v cwd x → Calm v x
  cwd : 0 < v.ref cwd

/-- What `namex` leaves behind -/
structure Found (v₀ : Volume) (res : Option ℕ) (v : Volume) : Prop extends Kept v₀ v where
  held : ∀ {ip}, res = some ip → Held v₀ ip v

section Paths

variable {l : Layout} {devsw : Devsw} {v v₀ : Volume} {cwd ip : ℕ}

theorem Kept.trans {v₁ : Volume} (h : Kept v₀ v) (h' : Kept v v₁) : Kept v₀ v₁ :=
  ⟨h'.disk.trans h.disk, h'.inode.trans h.inode, h'.log.trans h.log⟩

theorem Kept.owned (h : Kept v₀ v) (howned : Owned l.sb v₀.disk v₀.inode) :
    Owned l.sb v.disk v.inode := by
  rw [h.disk, h.inode]
  exact howned

theorem Kept.entry {i x : ℕ} (h : Kept v₀ v) (hx : Entry v i x) : Entry v₀ i x := by
  rw [Entry, h.disk, h.inode] at hx
  exact hx

theorem Kept.found_none (h : Kept v₀ v) : Found v₀ none v := ⟨h, nofun⟩

theorem Held.found (h : Held v₀ ip v) : Found v₀ (some ip) v := by
  refine ⟨h.toKept, ?_⟩
  rintro _ ⟨⟩
  exact h

/-- What `ilock` has read is in use. -/
theorem Held.wp_ilock (h : Held v₀ ip v) (hcalm : Calm v₀ ip) :
    wp (fun e => e.2 = v₀.log) (ilock ip) (fun _ v' => Held v₀ ip v') v := by
  refine wp_mono (wp_faults Logged.wp_ilock fun e he => he.trans h.log) ?_
  rintro - v' ⟨hread, rfl⟩
  refine ⟨⟨h.disk, h.inode, h.log⟩, h.ref, ?_⟩
  intro h0 _
  cases hvalid : v.valid ip with
  | true => exact h.linked h0 hvalid
  | false =>
    have hfree := hread hvalid
    rw [h.inode] at hfree
    rcases hcalm with hlinked | href | hfree'
    · exact hlinked
    · omega
    · exact absurd hfree' hfree

variable {parent : Bool} {path : List UInt8}

/-- The loop of `namex` ends before its rounds do: each takes a part of the path. -/
theorem namexLoop_enough {fuel fuel' : ℕ} (h0 : 0 ∉ path)
    (hfuel : path.length < fuel) (hfuel' : path.length < fuel') (ip : ℕ) (name : Bytes) :
    namexLoop l devsw parent fuel ip path name = namexLoop l devsw parent fuel' ip path name := by
  induction fuel generalizing fuel' path ip name with
  | zero => exact absurd hfuel (Nat.not_lt_zero _)
  | succ fuel ih =>
    obtain ⟨fuel', rfl⟩ : ∃ n, fuel' = n + 1 := ⟨fuel' - 1, by omega⟩
    rw [namexLoop, namexLoop]
    have hspec := skipelem_spec h0 name
    generalize skipelem path name = r at hspec
    cases hspec with
    | none _ => rfl
    | @some c rest _ hrest hlt _ =>
      have hloop : ∀ inum, namexLoop l devsw parent fuel inum rest (copied name c) =
          namexLoop l devsw parent fuel' inum rest (copied name c) :=
        fun inum => ih hrest (by omega) (by omega) inum _
      simp only [hloop]

/-- Without a cache `ilock` always reads the inode, and panics if it is free. -/
theorem wp_ilock_bind {α : Type} {f : ℕ → Dinode} {m : Dinode → DiskM α} {Q : α → Disk → Prop}
    {d : Disk} (h : wp (fun _ => True) (m (f ip)) Q d) :
    wp (fun _ => True) (Blocks.ilock f ip >>= m) Q d := by
  rw [wp_bind, Blocks.ilock]
  split_ifs
  · exact Wp.wp_throw.mpr trivial
  · exact wp_pure.mpr h

/-- **A lookup logs nothing**: no inode on the way is freed.  Without the log it returns the same,
or panics at an inode that is in the cache.  By induction on the rounds -/
theorem wp_namexLoop {fuel : ℕ} {name : Bytes} (hwf : WellFormed l cwd v₀)
    (h : Held v₀ ip v) (hreach : Reach v₀ cwd ip) :
    wp (fun e => e.2 = v₀.log) (namexLoop l devsw parent fuel ip path name)
    (fun r v' => Found v₀ r.1 v' ∧ wp (fun _ => True)
      (Blocks.namexLoop l.sb devsw v₀.inode parent fuel ip path name) (fun res _ => res = r)
      v₀.disk) v := by
  induction fuel generalizing ip v path name with
  | zero => exact wp_pure.mpr ⟨h.toKept.found_none, wp_pure.mpr rfl⟩
  | succ fuel ih =>
    rw [namexLoop, Blocks.namexLoop]
    -- how the loop ends without an inode
    have hput {v : Volume} (h : Held v₀ ip v) (name : Bytes) {m : DiskM (Option ℕ × Bytes)}
        (hm : wp (fun _ => True) m (fun res _ => res = (none, name)) v₀.disk) :
        wp (fun e => e.2 = v₀.log) (do iput l ip; pure (none, name)) (fun r v' =>
          Found v₀ r.1 v' ∧ wp (fun _ => True) m (fun res _ => res = r) v₀.disk) v :=
      wp_bind.mpr (wp_mono h.wp_iput fun _ _ hkept => wp_pure.mpr ⟨hkept.found_none, hm⟩)
    obtain ⟨_ | rest, name⟩ := skipelem path name
    · dsimp only
      split_ifs
      · exact hput h _ (wp_pure.mpr rfl)
      · exact wp_pure.mpr ⟨h.found, wp_pure.mpr rfl⟩
    · refine wp_bind.mpr (wp_mono (h.wp_ilock (hwf.calm hreach)) ?_)
      intro _ v₁ h₁
      rw [wp_bind, wp_look, h₁.inode]
      by_cases hdir : (v₀.inode ip).type ≠ .dir
      · rw [if_pos hdir]
        exact hput h₁ _ (wp_ilock_bind (by rw [if_pos hdir]; exact wp_pure.mpr rfl))
      rw [if_neg hdir]
      by_cases hlast : parent = true ∧ rest.headD 0 = 0
      · rw [if_pos hlast]
        refine wp_pure.mpr ⟨h₁.found, wp_ilock_bind ?_⟩
        rw [if_neg hdir, if_pos hlast]
        exact wp_pure.mpr rfl
      rw [if_neg hlast]
      have howned := h₁.toKept.owned hwf.owned
      refine wp_bind.mpr (wp_mono (wp_and (wp_faults (wp_dirlookup howned) fun e he =>
        he.trans h₁.log) (wp_dirlookup_eq howned)) ?_)
      rintro r v₂ ⟨⟨-, hr⟩, heq⟩
      rw [h₁.inode, h₁.disk] at heq
      rcases hr with ⟨rfl, rfl⟩ | ⟨x, o, rfl, rfl, hx⟩
      · refine hput h₁ _ (wp_ilock_bind ?_)
        rw [if_neg hdir, if_neg hlast, wp_bind, Wp.wp_of_ok heq]
        exact wp_pure.mpr rfl
      · refine wp_bind.mpr (wp_mono h₁.wp_iput_got ?_)
        intro _ v₃ h₃
        refine wp_mono (ih h₃ (hreach.entry (h₁.toKept.entry hx))) ?_
        rintro r v' ⟨hfound, hagree⟩
        refine ⟨hfound, wp_ilock_bind ?_⟩
        rw [if_neg hdir, if_neg hlast, wp_bind, Wp.wp_of_ok heq]
        exact hagree

theorem wp_namex {name : Bytes} (hwf : WellFormed l cwd v) :
    wp (fun e => e.2 = v.log) (namex l devsw cwd path parent name)
    (fun r v' => Found v r.1 v' ∧ wp (fun _ => True)
      (Blocks.namex l.sb devsw v.inode cwd path parent name) (fun res _ => res = r) v.disk) v := by
  rw [namex, Blocks.namex]
  split_ifs
  · rw [wp_bind, iget, wp_modify]
    exact wp_namexLoop hwf held_got .root
  · rw [wp_bind, idup, wp_modify]
    refine wp_namexLoop hwf ⟨⟨rfl, rfl, rfl⟩, rfl, ?_⟩ .cwd
    intro h0
    have := hwf.cwd
    omega

theorem costs_namex {fixed : Finset ℕ} {k : ℕ} {name : Bytes} (hwf : WellFormed l cwd v) :
    Costs fixed k (namex l devsw cwd path parent name) (fun r v' => Found v r.1 v') v :=
  spends_of_wp (wp_mono (wp_namex hwf) fun _ _ h => ⟨h.1.log, h.1⟩)

/-- A file that is referred to gets or loses a link. -/
theorem WellFormed.relink {v' : Volume} {n : ℤ} (h : WellFormed l cwd v₀) (hkept : Kept v₀ v)
    (href : v.ref = update v₀.ref ip (v₀.ref ip + 1)) (hdir : (v.inode ip).type ≠ .dir)
    (hdisk : v'.disk = v.disk)
    (hinode : v'.inode = update v.inode ip { v.inode ip with nlink := n })
    (href' : v'.ref = v.ref) : WellFormed l cwd v' := by
  have hself : v'.inode ip = { v.inode ip with nlink := n } := by rw [hinode, update_self]
  have hother {i : ℕ} (hi : i ≠ ip) : v'.inode i = v₀.inode i := by
    rw [hinode, update_of_ne hi, hkept.inode]
  have hentry {i x : ℕ} (hx : Entry v' i x) : Entry v₀ i x := by
    have hi : i ≠ ip := by
      rintro rfl
      have htype := hx.1
      rw [hself] at htype
      exact hdir htype
    rwa [Entry, hother hi, hdisk, hkept.disk] at hx
  have hreach {x : ℕ} (hx : Reach v' cwd x) : Reach v₀ cwd x := by
    induction hx with
    | root => exact .root
    | cwd => exact .cwd
    | entry _ hx ih => exact ih.entry (hentry hx)
  have hle (x : ℕ) : v₀.ref x ≤ v'.ref x := by
    rw [href', href]
    by_cases hx : x = ip
    · rw [hx, update_self]
      omega
    · rw [update_of_ne hx]
  refine ⟨?_, ?_, h.cwd.trans_le (hle cwd)⟩
  · rw [hdisk, hinode]
    exact (hkept.owned h.owned).relink rfl rfl fun ht => ht
  · intro x hx
    by_cases hxip : x = ip
    · refine .inr (.inl ?_)
      rw [hxip, href', href, update_self]
      omega
    · rw [Calm, hother hxip]
      rcases h.calm (hreach hx) with hlinked | hpos | hfree
      · exact .inl hlinked
      · exact .inr (.inl (hpos.trans_le (hle x)))
      · exact .inr (.inr hfree)

end Paths

/-! ## Functions on directories and inodes -/

section Functions

variable {l : Layout} {devsw : Devsw} {v : Volume} {fixed : Finset ℕ} {i k : ℕ}

theorem wp_ilock_kept : wp (fun e => e.2 = v.log) (ilock i)
    (fun _ v' => Kept v v' ∧ v'.ref = v.ref) v := by
  refine wp_mono wp_ilock ?_
  rintro - v' ⟨-, rfl⟩
  exact ⟨⟨rfl, rfl, rfl⟩, rfl⟩

theorem costs_ilock : Costs fixed k (ilock i) (fun _ v' => Kept v v' ∧ v'.ref = v.ref) v :=
  spends_of_wp (wp_mono wp_ilock_kept fun _ _ h => ⟨h.1.log, h⟩)

theorem costs_dirlookup {name : Bytes} (h : Owned l.sb v.disk v.inode) :
    Costs fixed k (dirlookup l devsw i name) (fun r v' => (v.inode i).type = .dir ∧
      (r = none ∧ v' = v ∨ ∃ x o, r = some (x, o) ∧ v' = v.got x)) v := by
  refine spends_of_wp (wp_mono (wp_dirlookup h) ?_)
  rintro r v' ⟨hdir, ⟨rfl, rfl⟩ | ⟨x, o, rfl, rfl, -⟩⟩
  · exact ⟨rfl, hdir, .inl ⟨rfl, rfl⟩⟩
  · exact ⟨rfl, hdir, .inr ⟨x, o, rfl, rfl⟩⟩

theorem costs_addLinks {n : ℤ} (hi : l.iblock i ∈ fixed) :
    Costs fixed k (addLinks l i n) (fun _ v' => v'.disk = v.disk ∧
      v'.inode =
        update v.inode i { v.inode i with nlink := ((v.inode i).nlink + n).bmod (2 ^ 16) } ∧
      v'.ref = v.ref) v :=
  costs_look_bind (costs_modify_bind rfl (costs_logWrite hi ⟨rfl, rfl, rfl⟩))

/-- The number of links changes. -/
theorem costs_addLinks_owned {n : ℤ} (h : Owned l.sb v.disk v.inode) (hi : l.iblock i ∈ fixed) :
    Costs fixed k (addLinks l i n) (fun _ v' => Owned l.sb v'.disk v'.inode) v := by
  refine (costs_addLinks hi).imp ?_
  rintro _ v' ⟨hdisk, hinode, _⟩
  rw [hdisk, hinode]
  exact h.relink rfl rfl fun ht => ht

/-- **What `dirlink` logs**: the bitmap, the inode of the directory, and two blocks -/
theorem costs_dirlink {name : Bytes} {inum : ℕ} (hone : l.sb.size ≤ BPB)
    (h : Owned l.sb v.disk v.inode) :
    Costs {l.sb.bmapstart, l.iblock i} 2 (dirlink l devsw i name inum)
      (fun _ v' => Owned l.sb v'.disk v'.inode) v := by
  rw [dirlink]
  refine (costs_dirlookup h).bind_fixed ?_
  rintro _ v₁ ⟨hdir, ⟨rfl, rfl⟩ | ⟨x, o, rfl, rfl⟩⟩
  · refine costs_look_bind ?_
    have hempty : Costs {l.sb.bmapstart, l.iblock i} 0
        (emptyLoop l devsw ((v₁.inode i).size / direntSize + 1)
        (v₁.inode i) 0) (fun r v' => v' = v₁ ∧ r.2 = v₁.inode i ∧ direntSize ∣ r.1) v₁ := by
      refine spends_of_wp (wp_mono (wp_emptyLoop h hdir (dvd_zero _)) ?_)
      rintro r v' ⟨rfl, hr⟩
      exact ⟨rfl, rfl, hr⟩
    refine hempty.bind_fixed ?_
    rintro ⟨off, _⟩ v₂ ⟨rfl, rfl, hoff⟩
    -- the entry does not go over the end of a block
    have hin : off % BSIZE + direntSize ≤ 1 * BSIZE := by
      lia
    refine (costs_writeDirent hone h hdir ?_ hin).bind (k := 0) ?_
    · rw [direntBytes, List.length_cons, List.length_cons, Names.length_strncpy]
    · intro dp' v₃ howned
      exact costs_modify_bind rfl (spends_pure howned)
  · have hput : Costs {l.sb.bmapstart, l.iblock i} 2 (iput l x)
        (fun _ v' => Owned l.sb v'.disk v'.inode) (v.got x) := by
      refine spends_of_wp (wp_mono held_got.wp_iput ?_)
      intro _ v' hkept
      exact ⟨hkept.log, hkept.owned h⟩
    exact hput.bind (k := 0) fun _ _ howned => spends_pure howned

/-- `ialloc` logs the inode that it returns. -/
theorem wp_ialloc {type : FileType} (h : Owned l.sb v.disk v.inode) :
    wp (fun e => e.2 = v.log) (ialloc l type) (fun i v' => v'.log = l.iblock i :: v.log ∧
      Owned l.sb v'.disk v'.inode) v := by
  rw [ialloc, wp_bind, wp_look]
  split
  · exact wp_panic.mpr rfl
  · next i hi =>
      have hfree : (v.inode i).type = .free := by
        have := List.find?_some hi
        simp only [Bool.and_eq_true, decide_eq_true_eq] at this
        exact this.2
      rw [wp_bind, setInode, wp_modify, wp_bind, wp_logWrite, wp_bind, iget, wp_modify, wp_pure]
      exact ⟨rfl, h.alloc hfree type⟩

end Functions

/-! ## System calls -/

section Calls

variable {l : Layout} {devsw : Devsw} {v : Volume} {cwd : ℕ} {name : Bytes}

/-- `iput`, with more blocks that are known -/
theorem costs_iput_in {i k : ℕ} {fixed : Finset ℕ} (hone : l.sb.size ≤ BPB)
    (h : Owned l.sb v.disk v.inode) (hfixed : {l.sb.bmapstart, l.iblock i} ⊆ fixed) :
    Costs fixed k (iput l i) (fun _ v' => Owned l.sb v'.disk v'.inode) v :=
  (costs_iput hone h).mono hfixed (Nat.zero_le k)

/-- An `iput` that is a transaction of its own, or the only part of one that logs anything -/
theorem costs_iput_only {i : ℕ} (hone : l.sb.size ≤ BPB) (h : Owned l.sb v.disk v.inode) :
    Costs ∅ 2 (iput l i) (fun _ _ => True) v :=
  spends_of_known {l.sb.bmapstart, l.iblock i} Finset.card_le_two
    ((costs_iput hone h).imp fun _ _ _ => trivial)

variable {ip dp : ℕ} {path : List UInt8} {type : FileType}

theorem costs_linkBad (hone : l.sb.size ≤ BPB) (h : Owned l.sb v.disk v.inode) :
    Costs {l.sb.bmapstart, l.iblock ip} 0 (linkBad l ip) (fun _ _ => True) v := by
  refine costs_ilock.bind_fixed ?_
  rintro _ v₁ ⟨hkept, _⟩
  refine (costs_addLinks_owned (hkept.owned h) (by simp)).bind_fixed ?_
  intro _ v₂ h₂
  exact (costs_iput hone h₂).imp fun _ _ _ => trivial

/-- `sys_link`, after the directory has been found -/
theorem costs_linkEntry (hone : l.sb.size ≤ BPB) (h : Owned l.sb v.disk v.inode) :
    Costs {l.iblock dp, l.sb.bmapstart, l.iblock ip} 2 (linkEntry l devsw dp name ip)
    (fun _ _ => True) v := by
  refine costs_ilock.bind_fixed ?_
  rintro _ v₁ ⟨hkept, _⟩
  have hlink : Costs {l.iblock dp, l.sb.bmapstart, l.iblock ip} 2
      (dirlink l devsw dp name ip) _ v₁ :=
    (costs_dirlink hone (hkept.owned h)).mono (by grind) le_rfl
  refine hlink.bind (k := 0) ?_
  intro ret v₂ h₂
  refine (costs_iput_in hone h₂ (by grind)).bind_fixed ?_
  intro _ v₃ h₃
  split_ifs
  · exact (costs_linkBad hone h₃).mono (by grind) le_rfl
  · exact (costs_iput_in hone h₃ (by grind)).imp fun _ _ _ => trivial

theorem costs_sysLink {old new : List UInt8} (hone : l.sb.size ≤ BPB) (hwf : WellFormed l cwd v) :
    Costs ∅ 5 (sysLink l devsw cwd old new name) (fun _ _ => True) v := by
  rw [sysLink]
  refine (costs_namex hwf).bind_fixed ?_
  rintro ⟨res, name'⟩ v₁ hfound
  cases res with
  | none => exact spends_pure trivial
  | some ip =>
    -- the blocks of `ip` are known from here on
    refine spends_of_known {l.sb.bmapstart, l.iblock ip}
      (Nat.add_le_add_right Finset.card_le_two 3) ?_
    have hheld := hfound.held rfl
    refine costs_ilock.bind_fixed ?_
    rintro _ v₂ ⟨hlock, href⟩
    have hkept := hheld.toKept.trans hlock
    refine costs_look_bind ?_
    split_ifs with hdir
    · exact (costs_iput_in hone (hkept.owned hwf.owned) (Finset.Subset.refl _)).imp
        fun _ _ _ => trivial
    refine (costs_addLinks (by simp)).bind_fixed ?_
    rintro _ v₃ ⟨hdisk, hinode, href'⟩
    have hwf₃ := hwf.relink hkept (href.trans hheld.ref) hdir hdisk hinode href'
    refine (costs_namex hwf₃).bind_fixed ?_
    rintro ⟨dp, name⟩ v₄ hfound₄
    have h₄ := hfound₄.toKept.owned hwf₃.owned
    cases dp with
    | none => exact (costs_linkBad hone h₄).mono (Finset.Subset.refl _) (Nat.zero_le _)
    | some dp => exact (costs_linkEntry hone h₄).absorb

theorem costs_unlinkEntry {off : ℕ} (hone : l.sb.size ≤ BPB) (h : Owned l.sb v.disk v.inode)
    (hdir : (v.inode dp).type = .dir) :
    Costs {l.sb.bmapstart, l.iblock dp} 4 (unlinkEntry l devsw dp ip off)
      (fun _ v' => Owned l.sb v'.disk v'.inode) v := by
  refine costs_look_bind ?_
  have hin : off % BSIZE + direntSize ≤ 2 * BSIZE := by lia
  refine (costs_writeDirent hone h hdir List.length_replicate hin).bind (k := 0) ?_
  intro d v₁ h₁
  refine costs_modify_bind rfl (costs_look_bind ?_)
  split_ifs
  · exact costs_addLinks_owned h₁ (by simp)
  · exact spends_pure h₁

/-- `sys_unlink`, after the entry has been found -/
theorem costs_unlinkFound {off : ℕ} (hone : l.sb.size ≤ BPB) (h : Owned l.sb v.disk v.inode)
    (hdir : (v.inode dp).type = .dir) :
    Costs {l.sb.bmapstart, l.iblock dp, l.iblock ip} 4 (unlinkFound l devsw dp ip off)
    (fun _ _ => True) v := by
  refine costs_ilock.bind_fixed ?_
  rintro _ v₁ ⟨hkept, _⟩
  have h₁ := hkept.owned h
  refine costs_look_bind ?_
  split_ifs
  · exact costs_panic
  have hocc : Costs {l.sb.bmapstart, l.iblock dp, l.iblock ip} 0 (occupied l devsw ip)
      (fun _ v' => v' = v₁) v₁ := by
    refine spends_of_wp (wp_mono (wp_occupied h₁) ?_)
    rintro _ v' rfl
    exact ⟨rfl, rfl⟩
  refine hocc.bind_fixed ?_
  rintro refuse v₂ rfl
  split_ifs
  · refine (costs_iput_in hone h₁ (by grind)).bind_fixed ?_
    intro _ v₃ h₃
    exact (costs_iput_in hone h₃ (by grind)).imp fun _ _ _ => trivial
  · have hdir₂ : (v₂.inode dp).type = .dir := by rwa [hkept.inode]
    have hentry : Costs {l.sb.bmapstart, l.iblock dp, l.iblock ip} 4
        (unlinkEntry l devsw dp ip off) _ v₂ :=
      (costs_unlinkEntry hone h₁ hdir₂).mono (by grind) le_rfl
    refine hentry.bind (k := 0) ?_
    intro _ v₃ h₃
    refine (costs_iput_in hone h₃ (by grind)).bind_fixed ?_
    intro _ v₄ h₄
    refine (costs_addLinks_owned h₄ (by simp)).bind_fixed ?_
    intro _ v₅ h₅
    exact (costs_iput_in hone h₅ (by grind)).imp fun _ _ _ => trivial

theorem costs_sysUnlink (hone : l.sb.size ≤ BPB) (hwf : WellFormed l cwd v) :
    Costs ∅ 7 (sysUnlink l devsw cwd path name) (fun _ _ => True) v := by
  rw [sysUnlink]
  refine (costs_namex hwf).bind_fixed ?_
  rintro ⟨res, name'⟩ v₁ hfound
  cases res with
  | none => exact spends_pure trivial
  | some dp =>
    refine costs_ilock.bind_fixed ?_
    rintro _ v₂ ⟨hlock, _⟩
    have h₂ := (hfound.toKept.trans hlock).owned hwf.owned
    have hbad : Costs ∅ 7 (iput l dp) (fun _ _ => True) v₂ :=
      (costs_iput_only hone h₂).mono (Finset.Subset.refl _) (by norm_num)
    split_ifs
    · exact hbad
    refine (costs_dirlookup h₂).bind_fixed ?_
    rintro _ v₃ ⟨hdir, ⟨rfl, rfl⟩ | ⟨ip, off, rfl, rfl⟩⟩
    · exact hbad
    · refine spends_of_known {l.sb.bmapstart, l.iblock dp, l.iblock ip}
        (Nat.add_le_add_right Finset.card_le_three 4) ?_
      have h₃ : Owned l.sb (v₂.got ip).disk (v₂.got ip).inode := h₂
      exact costs_unlinkFound hone h₃ hdir

/-! ### `create` -/

theorem costs_createDots (hone : l.sb.size ≤ BPB) (h : Owned l.sb v.disk v.inode) :
    Costs {l.iblock dp, l.sb.bmapstart, l.iblock ip} 4 (createDots l devsw type dp ip)
      (fun _ v' => Owned l.sb v'.disk v'.inode) v := by
  rw [createDots]
  split_ifs
  swap
  · exact spends_pure h
  refine (costs_addLinks_owned h (by simp)).bind_fixed ?_
  intro _ v₁ h₁
  have hlink (name : Bytes) (inum : ℕ) {v : Volume} (h : Owned l.sb v.disk v.inode) :
      Costs {l.iblock dp, l.sb.bmapstart, l.iblock ip} 2 (dirlink l devsw ip name inum)
        (fun _ v' => Owned l.sb v'.disk v'.inode) v := (costs_dirlink hone h).mono (by grind) le_rfl
  refine (hlink dotBytes ip h₁).bind (k := 2) ?_
  intro dot v₂ h₂
  split_ifs
  · exact costs_panic
  refine (hlink dotdotBytes dp h₂).bind (k := 0) ?_
  intro dotdot v₃ h₃
  split_ifs
  · exact costs_panic
  · exact spends_pure h₃

/-- `create`, if the name is there -/
theorem costs_createOld (hone : l.sb.size ≤ BPB) (h : Owned l.sb v.disk v.inode) :
    Costs {l.iblock dp, l.sb.bmapstart, l.iblock ip} 6 (createOld l type dp ip)
      (fun r v' => (r = none ∨ r = some ip) ∧ Owned l.sb v'.disk v'.inode) v := by
  refine (costs_iput_in hone h (by grind)).bind_fixed ?_
  intro _ v₁ h₁
  refine costs_ilock.bind_fixed ?_
  rintro _ v₂ ⟨hkept, _⟩
  have h₂ := hkept.owned h₁
  refine costs_look_bind ?_
  split_ifs
  · exact spends_pure ⟨.inr rfl, h₂⟩
  · refine (costs_iput_in hone h₂ (by grind)).bind_fixed ?_
    intro _ v₃ h₃
    exact spends_pure ⟨.inl rfl, h₃⟩

/-- `create`, after the inode has been allocated -/
theorem costs_createNew {major : ℤ} (hone : l.sb.size ≤ BPB) (h : Owned l.sb v.disk v.inode) :
    Costs {l.iblock dp, l.sb.bmapstart, l.iblock ip} 6 (createNew l devsw type major dp name ip)
      (fun r v' => (r = none ∨ r = some ip) ∧ Owned l.sb v'.disk v'.inode) v := by
  refine costs_ilock.bind_fixed ?_
  rintro _ v₁ ⟨hkept, _⟩
  have h₁ := hkept.owned h
  refine costs_look_bind (costs_modify_bind rfl (costs_logWrite_bind (by simp) ?_))
  have h₂ : Owned l.sb v₁.disk (update v₁.inode ip
      { v₁.inode ip with major := major, nlink := 1 }) :=
    h₁.relink rfl rfl fun ht => ht
  refine (costs_createDots hone h₂).bind (k := 2) ?_
  intro _ v₃ h₃
  have hlink : Costs {l.iblock dp, l.sb.bmapstart, l.iblock ip} 2
      (dirlink l devsw dp name ip) _ v₃ :=
    (costs_dirlink hone h₃).mono (by grind) le_rfl
  refine hlink.bind (k := 0) ?_
  intro ret v₄ h₄
  split_ifs
  · exact costs_panic
  · refine (costs_iput_in hone h₄ (by grind)).bind_fixed ?_
    intro _ v₅ h₅
    exact spends_pure ⟨.inr rfl, h₅⟩

/-- **What `create` logs**: the bitmap, the inode that it returns, and seven blocks -/
theorem wp_create {major : ℤ} (hone : l.sb.size ≤ BPB) (hwf : WellFormed l cwd v) :
    wp (fun e => Adds ∅ 9 v.log e.2) (create l devsw cwd path type major name) (fun r v' => ∃ ip,
      (r = none ∨ r = some ip) ∧ Adds {l.sb.bmapstart, l.iblock ip} 7 v.log v'.log ∧
        Owned l.sb v'.disk v'.inode) v := by
  -- how it ends, once the directory `dp` and the inode `ip` are known
  have hend {dp ip : ℕ} {v₃ : Volume} {m : VolM (Option ℕ)}
      (hlog : Adds {l.sb.bmapstart, l.iblock ip} 0 v.log v₃.log)
      (hm : Costs {l.iblock dp, l.sb.bmapstart, l.iblock ip} 6 m
        (fun r v' => (r = none ∨ r = some ip) ∧ Owned l.sb v'.disk v'.inode) v₃) :
      wp (fun e => Adds ∅ 9 v.log e.2) m (fun r v' => ∃ ip, (r = none ∨ r = some ip) ∧
        Adds {l.sb.bmapstart, l.iblock ip} 7 v.log v'.log ∧ Owned l.sb v'.disk v'.inode) v₃ := by
    have hwp : wp (fun e => Adds {l.sb.bmapstart, l.iblock ip} 7 v.log e.2) m (fun r v' =>
        Adds {l.sb.bmapstart, l.iblock ip} 7 v.log v'.log ∧ _) v₃ :=
      hm.absorb.rebase fun t ht => (hlog.trans ht).mono (Finset.Subset.refl _) le_rfl
    refine wp_faults (wp_mono hwp ?_) ?_
    · rintro r v' ⟨hadds, hres, howned⟩
      exact ⟨ip, hres, hadds, howned⟩
    · intro e he
      have hnew : Adds ∅ (Finset.card {l.sb.bmapstart, l.iblock ip} + 7) v.log e.2 :=
        (he.mono (by simp) le_rfl).absorb
      exact hnew.mono (Finset.Subset.refl _) (Nat.add_le_add_right Finset.card_le_two 7)
  have hstop (e : String × List ℕ) (he : e.2 = v.log) : Adds ∅ 9 v.log e.2 := by
    rw [he]
    exact Adds.refl
  rw [create]
  refine wp_bind.mpr (wp_mono (wp_faults (wp_namex hwf) hstop) ?_)
  rintro ⟨res, name'⟩ v₁ ⟨hfound, -⟩
  cases res with
  | none =>
    refine wp_pure.mpr ⟨0, .inl rfl, ?_, hfound.toKept.owned hwf.owned⟩
    rw [hfound.log]
    exact Adds.refl
  | some dp =>
    refine wp_bind.mpr (wp_mono (wp_faults wp_ilock_kept fun e he => hstop e (he.trans hfound.log))
      ?_)
    rintro _ v₂ ⟨hlock, _⟩
    have hkept := hfound.toKept.trans hlock
    have h₂ := hkept.owned hwf.owned
    have hlog (fixed : Finset ℕ) : Adds fixed 0 v.log v₂.log := by
      rw [hkept.log]
      exact Adds.refl
    refine wp_bind.mpr (wp_mono (wp_faults (wp_dirlookup h₂) fun e he => hstop e
      (he.trans hkept.log)) ?_)
    rintro _ v₃ ⟨-, ⟨rfl, rfl⟩ | ⟨ip, off, rfl, rfl, -⟩⟩
    · refine wp_bind.mpr (wp_mono (wp_faults (wp_ialloc h₂) fun e he => hstop e
        (he.trans hkept.log)) ?_)
      rintro ip v₄ ⟨hlog₄, h₄⟩
      refine hend ?_ (costs_createNew hone h₄)
      rw [hlog₄]
      exact (hlog _).cons (by simp)
    · have h₃ : Owned l.sb (v₂.got ip).disk (v₂.got ip).inode := h₂
      exact hend (hlog _) (costs_createOld hone h₃)

/-- A function that goes on with the inode -/
theorem costs_create_bind {type : FileType} {major : ℤ} {path : List UInt8}
    {f : Option ℕ → VolM Unit} (hone : l.sb.size ≤ BPB) (hwf : WellFormed l cwd v)
    (hnone : ∀ v', Costs ∅ 0 (f none) (fun _ _ => True) v')
    (hsome : ∀ ip v', Owned l.sb v'.disk v'.inode →
      Costs {l.sb.bmapstart, l.iblock ip} 0 (f (some ip)) (fun _ _ => True) v') :
    Costs ∅ 9 (create l devsw cwd path type major name >>= f) (fun _ _ => True) v := by
  refine spends_bind (wp_mono (wp_create hone hwf) ?_)
  rintro r v' ⟨ip, hres, hadds, howned⟩
  refine ⟨7, 0, {l.sb.bmapstart, l.iblock ip}, Nat.add_le_add_right Finset.card_le_two 7,
    hadds.mono Finset.subset_union_right le_rfl, ?_⟩
  rcases hres with rfl | rfl
  · exact (hnone v').mono Finset.subset_union_left le_rfl
  · exact (hsome ip v' howned).mono Finset.subset_union_right le_rfl

/-! ### The other calls -/

theorem costs_sysOpenCreate {nofile : Bool} (hone : l.sb.size ≤ BPB)
    (hwf : WellFormed l cwd v) : Costs ∅ 9 (sysOpenCreate l devsw cwd path nofile name)
    (fun _ _ => True) v := by
  refine costs_create_bind hone hwf (fun v' => spends_pure trivial) fun ip v' howned => ?_
  split_ifs
  · exact (costs_iput hone howned).imp fun _ _ _ => trivial
  · exact spends_pure trivial

theorem costs_sysMake {major : ℤ} (hone : l.sb.size ≤ BPB)
    (hwf : WellFormed l cwd v) : Costs ∅ 9 (sysMake l devsw cwd path type major name)
    (fun _ _ => True) v := by
  refine costs_create_bind hone hwf (fun v' => spends_pure trivial) fun ip v' howned => ?_
  exact (costs_iput hone howned).imp fun _ _ _ => trivial

theorem costs_sysChdir (hone : l.sb.size ≤ BPB) (hwf : WellFormed l cwd v) :
    Costs ∅ 2 (sysChdir l devsw cwd path name) (fun _ _ => True) v := by
  rw [sysChdir]
  refine (costs_namex hwf).bind_fixed ?_
  rintro ⟨res, name'⟩ v₁ hfound
  cases res with
  | none => exact spends_pure trivial
  | some ip =>
    refine costs_ilock.bind_fixed ?_
    rintro _ v₂ ⟨hlock, _⟩
    have h₂ := (hfound.toKept.trans hlock).owned hwf.owned
    refine costs_look_bind ?_
    split_ifs
    · exact costs_iput_only hone h₂
    · exact costs_iput_only hone h₂

/-- **What a round of `filewrite` logs**: up to four blocks of the contents are touched. -/
theorem costs_filewriteRound {i off : ℕ} {addr : List UInt8} (hone : l.sb.size ≤ BPB) :
    Costs ∅ 10 (filewriteRound l devsw ip addr i off) (fun _ _ => True) v := by
  refine spends_of_known {l.sb.bmapstart, l.iblock ip}
    (Nat.add_le_add_right Finset.card_le_two 8) ?_
  refine costs_ilock.bind_fixed ?_
  intro _ v₁ _
  refine costs_look_bind ?_
  have hin : off % BSIZE + ((addr.drop i).take (min (addr.length - i) maxChunk)).length ≤
      4 * BSIZE := by
    rw [List.length_take]
    lia
  refine (costs_writei hone hin).bind (k := 0) ?_
  intro r v₂ _
  exact spends_of_wp (wp_modify.mpr ⟨rfl, trivial⟩)

end Calls

/-! ## Transactions -/

/-- The blocks that are logged, if the transaction returns or panics -/
def logged (m : VolM Unit) (v : Volume) : List ℕ :=
  match m v with
  | .ok (_, v') => v'.log
  | .error e => e.2

theorem card_logged {m : VolM Unit} {v : Volume} {k : ℕ} (h : Costs ∅ k m (fun _ _ => True) v)
    (hbegin : v.log = []) : (logged m v).toFinset.card ≤ k := by
  have hadds : Adds ∅ k v.log (logged m v) := by
    rw [logged]
    cases hm : m v with
    | ok x => exact (Wp.wp_ok h hm).1
    | error e =>
      have he := Wp.wp_error h hm
      exact he
  rw [hbegin] at hadds
  exact hadds.card_le

section Transactions

variable {l : Layout} {devsw : Devsw} {v : Volume} {cwd : ℕ} {name : Bytes}

/-- **No transaction logs more than it may**: on a disk with one bitmap block, whatever the state
is, a round of `filewrite` at any offset, `open` with `O_CREATE`, `mkdir`, `mknod`, `link`,
`unlink`, `chdir` and the `iput` that closes a file pass at most `MAXOPBLOCKS` blocks to
`log_write`. -/
theorem log_allowance (hone : l.sb.size ≤ BPB) (hwf : WellFormed l cwd v)
    (hbegin : v.log = []) (tx : Tx) :
    (logged (runTx l devsw cwd name tx) v).toFinset.card ≤ MAXOPBLOCKS := by
  have hle {k : ℕ} {m : VolM Unit} (hk : k ≤ 10) (h : Costs ∅ k m (fun _ _ => True) v) :
      (logged m v).toFinset.card ≤ MAXOPBLOCKS := (card_logged h hbegin).trans hk
  cases tx with
  | filewrite ip addr i off => exact hle le_rfl (costs_filewriteRound hone)
  | openCreate path nofile => exact hle (by norm_num) (costs_sysOpenCreate hone hwf)
  | mkdir path => exact hle (by norm_num) (costs_sysMake hone hwf)
  | mknod path major => exact hle (by norm_num) (costs_sysMake hone hwf)
  | link old new => exact hle (by norm_num) (costs_sysLink hone hwf)
  | unlink path => exact hle (by norm_num) (costs_sysUnlink hone hwf)
  | chdir path => exact hle (by norm_num) (costs_sysChdir hone hwf)
  | close ip => exact hle (by norm_num) (costs_iput_only hone hwf.owned)

/-- A disk with nothing on it but an empty root directory, which is the directory of the process -/
def rootVolume : Volume where
  disk := tinyDisk
  inode := update tinyDinode ROOTINO ⟨.dir, 0, 1, 0, fun _ => 0⟩
  ref := update (fun _ => 0) ROOTINO 1
  valid := update (fun _ => false) ROOTINO true
  log := []

theorem rootVolume_wellFormed : WellFormed ⟨tinySb, 2⟩ ROOTINO rootVolume := by
  have howned : Owned tinySb tinyDisk (update tinyDinode ROOTINO ⟨.dir, 0, 1, 0, fun _ => 0⟩) := by
    have h : Owned tinySb tinyDisk (update
        (update tinyDinode ROOTINO ⟨.dir, 0, 0, 0, fun _ => 0⟩) ROOTINO
        ⟨.dir, 0, 1, 0, fun _ => 0⟩) := (tiny_owned.alloc rfl .dir).relink rfl rfl nofun
    rwa [Function.update_idem] at h
  refine ⟨howned, ?_, by decide⟩
  intro x _
  by_cases hx : x = ROOTINO
  · rw [hx]
    exact .inl (by decide)
  · refine .inr (.inr ?_)
    rw [rootVolume]
    dsimp only
    rw [update_of_ne hx]
    rfl

/-- `mkdir("a")` logs the blocks of the inodes and of the bitmap, and one block for each of the two
directories. -/
theorem log_allowance_mkdir :
    (logged (runTx ⟨tinySb, 2⟩ (fun _ => none) ROOTINO (fun _ => 0) (.mkdir [97]))
    rootVolume).toFinset =
      {2, 5, 6, 7} ∧
    (logged (runTx ⟨tinySb, 2⟩ (fun _ => none) ROOTINO (fun _ => 0) (.mkdir [97]))
    rootVolume).toFinset.card ≤
      MAXOPBLOCKS :=
  ⟨by decide +kernel, log_allowance (by decide) rootVolume_wellFormed rfl _⟩

end Transactions

end Xv6Mlfq.Blocks.Logged
