import Xv6Mlfq.Fs.Contents

/-!
# Every block has one owner

The addresses of all inodes are data blocks, no two of them are the same, and the free bitmap marks
them and the meta blocks.  An inode has blocks for the positions below its size, and no others.

## Main definitions

* `Owned` — this is so.
* `InodesInv` — this is so, and the copies in memory are those on the disk.

## Main results

* `wp_writei`, `wp_readi`, `wp_free` — the functions on inodes.
* `blocks_owned` — every block has one owner after any sequence of them.
-/

namespace Xv6Mlfq.Blocks

open Function (update update_self update_of_ne)
open Ownership (Exclusive)
open Wp (wp wp_mono wp_bind wp_pure)
open Transition (exec)

/-! ## Inodes and their blocks -/

/-- Every block has one owner, and inodes have the blocks of their contents. -/
structure Owned (sb : Superblock) (d : Disk) (f : ℕ → Dinode) : Prop where
  excl : Exclusive sb.nmeta sb.size d.used (cells d f)
  mapped : ∀ i {q}, q < MAXFILE → (blockAt d (f i) q ≠ 0 ↔ q * BSIZE < (f i).size)
  size_le : ∀ i, (f i).size ≤ MAXFILE * BSIZE
  free : ∀ {i}, (f i).type = .free → (f i).size = 0 ∧ ∀ k ≤ NDIRECT, (f i).addrs k = 0

section Owned

variable {F : String → Prop} {sb : Superblock} {devsw : Devsw} {d : Disk} {f : ℕ → Dinode} {i : ℕ}

/-- `⌈size / BSIZE⌉` -/
def nblocks (size : ℕ) : ℕ := (size + BSIZE - 1) / BSIZE

theorem lt_nblocks {q size : ℕ} : q < nblocks size ↔ q * BSIZE < size := by
  unfold nblocks
  lia

theorem le_nblocks (size : ℕ) : size ≤ nblocks size * BSIZE := by
  unfold nblocks
  lia

theorem Owned.shape (h : Owned sb d f) {q : ℕ} (hq : q < MAXFILE) :
    blockAt d (f i) q ≠ 0 ↔ q < nblocks (f i).size := by
  rw [h.mapped i hq, lt_nblocks]

variable {ip' : Dinode} {src : List UInt8} {off : ℕ}

/-- Only the addresses matter for the cells. -/
theorem cells_congr {ip : Dinode} (h : ip'.addrs = ip.addrs) :
    cells d (update f i ip') = cells d (update f i ip) := by
  funext ⟨j, p⟩
  by_cases hj : j = i
  · subst hj
    rw [cells_update_self, cells_update_self]
    unfold place
    rw [h]
  · rw [cells, cells, update_of_ne hj, update_of_ne hj]

/-- Inode `i` changes, and the blocks of the others stay as they are. -/
theorem Owned.set {d' : Disk} {ip : Dinode} (h : Owned sb d f)
    (hx : Exclusive sb.nmeta sb.size d'.used (cells d' (update f i ip))) (ha : ip'.addrs = ip.addrs)
    (hother : ∀ {j}, j ≠ i → ∀ p, place d' (f j) p = place d (f j) p)
    (hmapped : ∀ {q}, q < MAXFILE → (blockAt d' ip' q ≠ 0 ↔ q * BSIZE < ip'.size))
    (hsize : ip'.size ≤ MAXFILE * BSIZE)
    (hfree : ip'.type = .free → ip'.size = 0 ∧ ∀ k ≤ NDIRECT, ip'.addrs k = 0) :
    Owned sb d' (update f i ip') := by
  constructor
  case excl => rwa [cells_congr ha]
  case mapped =>
    intro j q hq
    by_cases hj : j = i
    · rw [hj, update_self]
      exact hmapped hq
    · rw [update_of_ne hj, blockAt, hother hj]
      exact h.mapped j hq
  case size_le =>
    intro j
    by_cases hj : j = i
    · rwa [hj, update_self]
    · rw [update_of_ne hj]
      exact h.size_le j
  case free =>
    intro j hj
    by_cases hji : j = i
    · rw [hji, update_self] at hj ⊢
      exact hfree hj
    · rw [update_of_ne hji] at hj ⊢
      exact h.free hj

theorem Wrote.owned {d' : Disk} (h : Owned sb d f)
    (hw : Wrote sb d f i (nblocks (f i).size) off src d' ip') (hfree : (f i).type ≠ .free)
    (hmax : off + src.length ≤ MAXFILE * BSIZE) :
    Owned sb d' (update f i { ip' with size := max (f i).size (off + src.length) }) := by
  have htype : ip'.type = (f i).type := by rw [hw.addrs]
  refine h.set hw.excl rfl hw.cells_other (fun {q} hq => ?_)
    (max_le (h.size_le i) hmax) fun ht => ?_
  · have hat : blockAt d' { ip' with size := max (f i).size (off + src.length) } q =
        blockAt d' ip' q := rfl
    rw [hat, hw.shape hq, lt_nblocks]
    exact lt_max_iff.symm
  · exact absurd (htype ▸ ht) hfree

/-- What `writei` does to inode `i`, if it does not refuse: the bytes of other inodes stay as they
are. -/
structure Writes (sb : Superblock) (d : Disk) (f : ℕ → Dinode) (i off : ℕ) (src : List UInt8)
    (r : ℤ × Dinode × Bool) (d' : Disk) : Prop where
  ret : r.1 = src.length
  inode : r.2.1 = { f i with
    addrs := r.2.1.addrs
    size := max (f i).size (off + src.length) }
  kept : r.2.2 = false → r.2.1 = f i
  owned : Owned sb d' (update f i r.2.1)
  other : ∀ {j x}, j ≠ i → x < (f j).size → byteAt d' (f j) x = byteAt d (f j) x
  byte : ∀ {x}, x < max (f i).size (off + src.length) → byteAt d' r.2.1 x =
    if off ≤ x ∧ x < off + src.length then src.getD (x - off) 0 else byteAt d (f i) x

/-- `writei` within the limits of a file -/
theorem wp_writei (h : Owned sb d f) (hdev : (f i).type ≠ .dev)
    (hfree : (f i).type ≠ .free) (hoff : off ≤ (f i).size)
    (hmax : off + src.length ≤ MAXFILE * BSIZE) :
    wp OutOfBlocks (writei sb devsw (f i) src off) (Writes sb d f i off src) d := by
  have hsize := h.size_le i
  have hwrap : (off + src.length) % 2 ^ 32 = off + src.length := by lia
  unfold writei
  rw [if_neg hdev, if_neg (by rw [hwrap]; omega), if_neg (by rw [hwrap]; omega)]
  have hlen : off ≤ nblocks (f i).size * BSIZE := hoff.trans (le_nblocks _)
  have hn : nblocks (f i).size ≤ MAXFILE := by
    unfold nblocks
    lia
  refine wp_bind.mpr (wp_mono (wp_writeLoop h.excl h.shape hlen hn hmax le_rfl) ?_)
  rintro ip' d' hw
  have hip : ip'.size = (f i).size := by rw [hw.addrs]
  have howned := hw.owned h hfree hmax
  have hother : ∀ {j x}, j ≠ i → x < (f j).size → byteAt d' (f j) x = byteAt d (f j) x := by
    intro j x hj hx
    have hq : x / BSIZE < MAXFILE := by
      have := h.size_le j
      lia
    have h0 : cells d f (j, pos (x / BSIZE)) ≠ 0 := by
      refine (h.mapped j hq).mpr ?_
      lia
    rw [byteAt, blockAt, hw.cells_other hj]
    exact congrFun (hw.other hj h0) _
  have hbyte : ∀ {x}, x < max (f i).size (off + src.length) → byteAt d' ip' x =
      if off ≤ x ∧ x < off + src.length then src.getD (x - off) 0 else byteAt d (f i) x := by
    intro x hx
    refine hw.byte ?_
    rw [lt_nblocks]
    lia
  split_ifs with hgrow
  · have hmax' : max (f i).size (off + src.length) = off + src.length := by omega
    rw [hmax'] at howned
    refine wp_pure.mpr ⟨rfl, ?_, ?_, howned, hother, hbyte⟩
    · rw [hmax', hw.addrs]
    · intro h
      cases h
  · have hmax' : max (f i).size (off + src.length) = (f i).size := by omega
    have hsame : ip' = f i := hw.inside (le_trans (by omega) (le_nblocks _))
    rw [hmax', ← hip] at howned
    refine wp_pure.mpr ⟨rfl, ?_, fun _ => hsame, howned, hother, hbyte⟩
    rw [hmax', hsame]

/-- A write that is refused, or goes to a device -/
theorem wp_writei_refused (hlen : src.length < 2 ^ 32)
    (hno : (f i).type = .dev ∨ (f i).size < off ∨ MAXFILE * BSIZE < off + src.length) :
    wp F (writei sb devsw (f i) src off) (fun r d' => r.2 = (f i, false) ∧ d' = d ∧
      ((f i).type ≠ .dev → r.1 = -1)) d := by
  unfold writei
  by_cases hdev : (f i).type = .dev
  · rw [if_pos hdev]
    split_ifs
    · exact wp_pure.mpr ⟨rfl, rfl, fun hne => absurd hdev hne⟩
    · exact wp_pure.mpr ⟨rfl, rfl, fun hne => absurd hdev hne⟩
  rw [if_neg hdev]
  split_ifs with h₁ h₂
  · exact wp_pure.mpr ⟨rfl, rfl, fun _ => rfl⟩
  · exact wp_pure.mpr ⟨rfl, rfl, fun _ => rfl⟩
  · have hno := hno.resolve_left hdev
    lia

/-- What becomes of a write to a file or a directory -/
theorem wp_writei_file (h : Owned sb d f) (hdev : (f i).type ≠ .dev)
    (hfree : (f i).type ≠ .free) (hlen : src.length < 2 ^ 32) :
    wp OutOfBlocks (writei sb devsw (f i) src off) (fun r d' =>
      ((f i).size < off ∨ MAXFILE * BSIZE < off + src.length) ∧ r = (-1, f i, false) ∧ d' = d ∨
      off ≤ (f i).size ∧ off + src.length ≤ MAXFILE * BSIZE ∧ Writes sb d f i off src r d') d := by
  by_cases hno : (f i).size < off ∨ MAXFILE * BSIZE < off + src.length
  · refine wp_mono (wp_writei_refused hlen (.inr hno)) ?_
    rintro ⟨r, ip'⟩ d' ⟨rfl, rfl, hr⟩
    exact .inl ⟨hno, Prod.ext (hr hdev) rfl, rfl⟩
  · simp only [not_or, not_lt] at hno
    exact wp_mono (wp_writei h hdev hfree hno.1 hno.2) fun r d' hw => .inr ⟨hno.1, hno.2, hw⟩

/-- `readi` of a file: it allocates nothing. -/
theorem wp_readi {n : ℕ} (h : Owned sb d f) (hdev : (f i).type ≠ .dev) (ho : off ≤ (f i).size)
    (hn : off + n < 2 ^ 32) :
    wp F (readi sb devsw (f i) off n) (fun r d' => d' = d ∧
      r = (some ((List.range (min n ((f i).size - off))).map fun k => byteAt d (f i) (off + k)),
      f i))
      d := by
  have hsize := h.size_le i
  unfold readi
  rw [if_neg hdev, if_neg (by rw [Nat.mod_eq_of_lt hn]; omega)]
  have hmin : (if off + n > (f i).size then (f i).size - off else n) =
      min n ((f i).size - off) := by
    split_ifs <;> omega
  simp only [hmin]
  refine wp_bind.mpr (wp_mono (wp_readLoop le_rfl (by omega) fun x hx hx' => ?_) ?_)
  · refine (h.mapped i ?_).mpr ?_
    · lia
    · lia
  · rintro r d' ⟨rfl, rfl⟩
    exact wp_pure.mpr ⟨rfl, rfl⟩

/-- **`readi` allocates no block**, whatever it is asked for. -/
theorem wp_readi_keeps {n : ℕ} (h : Owned sb d f) (hn : n < 2 ^ 32) :
    wp F (readi sb devsw (f i) off n) (fun r d' => d' = d ∧ r.2 = f i) d := by
  by_cases hdev : (f i).type = .dev
  · unfold readi
    rw [if_pos hdev]
    split_ifs
    · exact wp_pure.mpr ⟨rfl, rfl⟩
    · exact wp_pure.mpr ⟨rfl, rfl⟩
  by_cases hno : off > (f i).size ∨ (off + n) % 2 ^ 32 < off
  · unfold readi
    rw [if_neg hdev, if_pos hno]
    exact wp_pure.mpr ⟨rfl, rfl⟩
  · have hwrap : off + n < 2 ^ 32 := by lia
    refine wp_mono (wp_readi h hdev (by omega) hwrap) ?_
    rintro r d' ⟨hd, rfl⟩
    exact ⟨hd, rfl⟩

/-- `itrunc` and the freeing of an inode -/
theorem wp_free (h : Owned sb d f) :
    wp F (itrunc (f i)) (fun ip' d' => Owned sb d' (update f i { ip' with type := .free })) d := by
  refine wp_mono (wp_itrunc (i := i) h.excl) ?_
  rintro ip' d' ⟨hblock, hnone, hip, hx⟩
  have hsize : ip'.size = 0 := by rw [hip]
  refine h.set hx rfl (fun _ p => place_congr (fun _ => by rw [hblock]) p) (fun {q} _ => ?_) ?_
    fun _ => ⟨hsize, hnone⟩
  · refine iff_of_false (not_not.mpr (place_none hnone _)) ?_
    show ¬ q * BSIZE < ip'.size
    omega
  · show ip'.size ≤ MAXFILE * BSIZE
    omega

/-- An inode changes, but not its addresses and its size. -/
theorem Owned.relink (h : Owned sb d f) (ha : ip'.addrs = (f i).addrs)
    (hsize : ip'.size = (f i).size) (hfree : ip'.type = .free → (f i).type = .free) :
    Owned sb d (update f i ip') := by
  have hx : Exclusive sb.nmeta sb.size d.used (cells d (update f i (f i))) := by
    rw [Function.update_eq_self]
    exact h.excl
  refine h.set hx ha (fun _ _ => rfl) (fun {q} hq => ?_) ?_ fun ht => ?_
  · have hat : blockAt d ip' q = blockAt d (f i) q := by
      unfold blockAt place
      rw [ha]
    rw [hat, hsize]
    exact h.mapped i hq
  · rw [hsize]
    exact h.size_le i
  · rw [ha, hsize]
    exact h.free (hfree ht)

/-- `ialloc` -/
theorem Owned.alloc (h : Owned sb d f) (hi : (f i).type = .free) (type : FileType) :
    Owned sb d (update f i ⟨type, 0, 0, 0, fun _ => 0⟩) := by
  have hnone : ∀ k ≤ NDIRECT, (⟨type, 0, 0, 0, fun _ => 0⟩ : Dinode).addrs k = 0 := fun _ _ => rfl
  refine h.set (exclusive_none rfl hnone h.excl (fun p => ?_) fun _ => rfl) rfl (fun _ _ => rfl)
    (fun {q} _ => ?_) (Nat.zero_le _) fun _ => ⟨rfl, hnone⟩
  · exact place_none (h.free hi).2 p
  · exact iff_of_false (not_not.mpr (place_none hnone _)) (Nat.not_lt_zero _)

end Owned

/-! ## Runs -/

/-- Every block has one owner, and the copies in memory are those on the disk. -/
structure InodesInv (sb : Superblock) (s : Inodes) : Prop where
  owned : Owned sb s.disk s.dinode
  mem : ∀ {i ip}, s.mem i = some ip → ip = s.dinode i ∧ ip.type ≠ .free
  panic : s.panicked ≠ some "freeing free block"

section Runs

variable {sb : Superblock} {devsw : Devsw} {s s' : Inodes}

theorem update_eq_some {mem : ℕ → Option Dinode} {i j : ℕ} {x : Option Dinode} {jp : Dinode}
    (h : update mem i x j = some jp) : j = i ∧ x = some jp ∨ j ≠ i ∧ mem j = some jp := by
  by_cases hji : j = i
  · rw [hji, update_self] at h
    exact .inl ⟨hji, h⟩
  · rw [update_of_ne hji] at h
    exact .inr ⟨hji, h⟩

theorem InodesInv.panicked (h : InodesInv sb s) {msg : String} (hmsg : msg ≠ "freeing free block") :
    InodesInv sb (s.panic msg) :=
  ⟨h.owned, h.mem, fun he => hmsg (Option.some.inj he)⟩

/-- A program that does not free a free block -/
theorem InodesInv.run {α : Type} {m : DiskM α} {k : α → Inodes → Inodes} {Q : α → Disk → Prop}
    (h : InodesInv sb s) (hm : wp OutOfBlocks m Q s.disk)
    (hk : ∀ a d, Q a d → InodesInv sb (k a { s with disk := d })) : InodesInv sb (s.run m k) := by
  unfold Inodes.run
  cases hr : m s.disk with
  | ok x => exact hk x.1 x.2 (Wp.wp_ok hm hr)
  | error msg =>
    refine h.panicked ?_
    have hmsg : OutOfBlocks msg := Wp.wp_error hm hr
    rw [hmsg]
    decide

/-- The inode in memory and the one on the disk change together. -/
theorem InodesInv.store {i : ℕ} {ip : Dinode} {d : Disk} (h : InodesInv sb s)
    (howned : Owned sb d (update s.dinode i ip)) (hfree : ip.type ≠ .free) {b : Bool}
    (hb : b = false → ip = s.dinode i) :
    InodesInv sb (Inodes.store { s with disk := d } i ip b) := by
  have hdinode : (Inodes.store { s with disk := d } i ip b).dinode = update s.dinode i ip := by
    cases b with
    | true => rfl
    | false =>
      show s.dinode = _
      rw [hb rfl, Function.update_eq_self]
  refine ⟨by rw [hdinode]; exact howned, fun {j jp} hj => ?_, h.panic⟩
  rw [hdinode]
  rcases update_eq_some hj with ⟨rfl, hx⟩ | ⟨hji, hj⟩
  · cases hx
    rw [update_self]
    exact ⟨rfl, hfree⟩
  · rw [update_of_ne hji]
    exact h.mem hj

theorem InodesInv.ialloc (h : InodesInv sb s) (type : FileType) :
    InodesInv sb (Blocks.ialloc sb s type) := by
  unfold Blocks.ialloc
  cases hf : (List.range sb.ninodes).find? fun i => 1 ≤ i ∧ (s.dinode i).type = .free with
  | none => exact h.panicked (by decide)
  | some i =>
    have hi : (s.dinode i).type = .free := by
      have := List.find?_some hf
      exact (of_decide_eq_true this).2
    refine ⟨h.owned.alloc hi type, fun {j jp} hj => ?_, h.panic⟩
    obtain ⟨hjp, hfree⟩ := h.mem hj
    have hji : j ≠ i := by
      rintro rfl
      rw [hjp] at hfree
      exact hfree hi
    exact ⟨hjp.trans (update_of_ne hji _ _).symm, hfree⟩

theorem InodesInv.iload (h : InodesInv sb s) (i : ℕ) : InodesInv sb (Blocks.iload s i) := by
  unfold Blocks.iload
  cases hi : s.mem i with
  | some ip => exact h
  | none =>
    by_cases hfree : (s.dinode i).type = .free
    · simp only [if_pos hfree]
      exact h.panicked (by decide)
    · simp only [if_neg hfree]
      refine ⟨h.owned, fun {j jp} hj => ?_, h.panic⟩
      rcases update_eq_some hj with ⟨rfl, hx⟩ | ⟨-, hj⟩
      · cases hx
        exact ⟨rfl, hfree⟩
      · exact h.mem hj

theorem InodesInv.step {op : InodeOp} (h : InodesInv sb s)
    (hs : inodeStep sb devsw op s = some s') : InodesInv sb s' := by
  unfold inodeStep at hs
  split_ifs at hs with hguard
  cases op with
  | ialloc type =>
    cases hs
    exact h.ialloc type
  | ilock i =>
    cases hs
    exact h.iload i
  | relink i major nlink =>
    obtain ⟨ip, hip, rfl⟩ := Option.map_eq_some_iff.mp hs
    obtain ⟨rfl, hfree⟩ := h.mem hip
    have howned : Owned sb s.disk (update s.dinode i
        { s.dinode i with major := major, nlink := nlink }) :=
      h.owned.relink rfl rfl fun ht => ht
    exact h.store howned hfree nofun
  | writei i src off =>
    obtain ⟨ip, hip, rfl⟩ := Option.map_eq_some_iff.mp hs
    obtain ⟨rfl, hfree⟩ := h.mem hip
    obtain ⟨ho, hlen⟩ := hguard.2
    by_cases hno : (s.dinode i).type = .dev ∨ (s.dinode i).size < off ∨
        MAXFILE * BSIZE < off + src.length
    · refine h.run (wp_writei_refused hlen hno) ?_
      rintro ⟨r, ip'⟩ d ⟨rfl, rfl, -⟩
      refine h.store ?_ hfree fun _ => rfl
      rw [Function.update_eq_self]
      exact h.owned
    · simp only [not_or, not_lt] at hno
      refine h.run (wp_writei h.owned hno.1 hfree hno.2.1 hno.2.2) ?_
      rintro r d hw
      refine h.store hw.owned ?_ hw.kept
      rw [hw.inode]
      exact hfree
  | readi i off n =>
    obtain ⟨ip, hip, rfl⟩ := Option.map_eq_some_iff.mp hs
    obtain ⟨rfl, hfree⟩ := h.mem hip
    refine h.run (wp_readi_keeps h.owned hguard.2.2) ?_
    rintro ⟨bs, ip'⟩ d ⟨rfl, rfl⟩
    refine h.store ?_ hfree fun _ => rfl
    rw [Function.update_eq_self]
    exact h.owned
  | free i =>
    obtain ⟨ip, hip, rfl⟩ := Option.map_eq_some_iff.mp hs
    obtain ⟨rfl, hfree⟩ := h.mem hip
    refine h.run (wp_free h.owned) fun ip' d howned => ⟨howned, fun {j jp} hj => ?_, h.panic⟩
    rcases update_eq_some hj with ⟨-, hx⟩ | ⟨hji, hj⟩
    · cases hx
    · simp only [update_of_ne hji]
      exact h.mem hj
  | recycle i =>
    cases hs
    refine ⟨h.owned, fun {j jp} hj => ?_, h.panic⟩
    rcases update_eq_some hj with ⟨-, hx⟩ | ⟨-, hj⟩
    · cases hx
    · exact h.mem hj

/-- **Every block has one owner**: after any sequence of functions on inodes that starts with an
image in which that is so, the addresses of all inodes are data blocks, no two of them are equal,
the bitmap marks the meta blocks and those in use, and an inode has the blocks of its contents and
no others.  No free block is freed, and no read allocates a block. -/
theorem blocks_owned {disk : Disk} {dinode : ℕ → Dinode} {ops : List InodeOp}
    (himg : Owned sb disk dinode)
    (hx : exec (inodeStep sb devsw) ops ⟨disk, dinode, fun _ => none, none⟩ = some s) :
    Owned sb s.disk s.dinode ∧ (∀ i ip, s.mem i = some ip → ip = s.dinode i) ∧
      s.panicked ≠ some "freeing free block" ∧
      ∀ i ip off n, s.mem i = some ip → off < 2 ^ 32 → n < 2 ^ 32 →
        ∃ bs, readi sb devsw ip off n s.disk = .ok ((bs, ip), s.disk) := by
  have hinv : InodesInv sb s :=
    Transition.Reachable.invariant ⟨ops, hx⟩ ⟨himg, nofun, nofun⟩ fun _ _ _ h hs => h.step hs
  refine ⟨hinv.owned, fun i ip hip => (hinv.mem hip).1, hinv.panic, fun i ip off n hip ho hn => ?_⟩
  obtain ⟨rfl, -⟩ := hinv.mem hip
  have hread : wp (fun _ => False) (readi sb devsw (s.dinode i) off n) _ _ :=
    wp_readi_keeps hinv.owned hn
  obtain ⟨⟨bs, ip'⟩, d, hr, rfl, rfl⟩ := Wp.exists_ok hread
  exact ⟨bs, hr⟩

/-- A disk of 40 blocks, of which 6 are meta blocks -/
def tinySb : Superblock := ⟨40, 8, 5, by decide⟩

def tinyDisk : Disk := ⟨fun b => b < 6, fun _ _ => 0⟩

def tinyDinode : ℕ → Dinode := fun _ => ⟨.free, 0, 0, 0, fun _ => 0⟩

theorem tiny_owned : Owned tinySb tinyDisk tinyDinode := by
  have hnone (x : ℕ × ℕ) : cells tinyDisk tinyDinode x = 0 := place_none (fun _ _ => rfl) x.2
  refine ⟨?_, fun i q _ => ?_, fun i => Nat.zero_le _, fun _ => ⟨rfl, fun _ _ => rfl⟩⟩
  · refine ⟨by decide, fun h => absurd (hnone _) h, fun h => absurd (hnone _) h,
      fun h => absurd (hnone _) h, fun {b} hb => ?_, fun {b} hb _ => ?_⟩
    · exact decide_eq_true hb
    · have hlo : 6 ≤ b := hb
      refine iff_of_false (by simpa [tinyDisk] using hlo) ?_
      rintro ⟨x, hx⟩
      rw [hnone] at hx
      subst hx
      exact absurd hb (by decide)
  · exact iff_of_false (not_not.mpr (hnone (i, pos q))) (Nat.not_lt_zero _)

/-- A file is made, written and read. -/
theorem blocks_owned_file : ∃ s, exec (inodeStep tinySb fun _ => none)
    [.ialloc .file, .ilock 1, .relink 1 0 1, .writei 1 [1, 2, 3] 0, .readi 1 0 3]
      ⟨tinyDisk, tinyDinode, fun _ => none, none⟩ = some s ∧
    s.panicked = none ∧ (s.dinode 1).size = 3 ∧ s.disk.used 6 = true ∧
    Owned tinySb s.disk s.dinode := by
  have hrun : ∃ s, exec (inodeStep tinySb fun _ => none)
      [.ialloc .file, .ilock 1, .relink 1 0 1, .writei 1 [1, 2, 3] 0, .readi 1 0 3]
        ⟨tinyDisk, tinyDinode, fun _ => none, none⟩ = some s ∧
      s.panicked = none ∧ (s.dinode 1).size = 3 ∧ s.disk.used 6 = true :=
    Transition.exists_exec _ _ (by decide +kernel)
  obtain ⟨s, hx, hs⟩ := hrun
  exact ⟨s, hx, hs.1, hs.2.1, hs.2.2, (blocks_owned tiny_owned hx).1⟩

end Runs

end Xv6Mlfq.Blocks
