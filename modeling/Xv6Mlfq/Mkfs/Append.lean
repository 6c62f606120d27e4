import Xv6Mlfq.Fs.Owned
import Xv6Mlfq.Mkfs.Image
import Mathlib.Algebra.BigOperators.Group.Finset.Basic
import Mathlib.Algebra.Order.BigOperators.Group.Finset

/-!
# What `iappend` does

While `mkfs` runs, every inode holds a list of bytes: its blocks hold the bytes of the list, and
zeros after its end.  Blocks are handed out in order, so that those from `freeblock` on are still
zero, and the number of those before it is determined by the lengths of the lists.

## Main definitions

* `Image` — the inodes of the image hold these lists.
* `Enough` — there are enough blocks for lists of these lengths.

## Main results

* `wp_ialloc`, `wp_iappend` — `iappend` appends to the list, and returns if there are enough blocks.
-/

namespace Xv6Mlfq.Mkfs

open Function (update update_self update_of_ne)
open Ownership (Exclusive)
open Wp (wp wp_mono wp_bind wp_pure wp_look wp_throw wp_modify)
open Blocks hiding balloc

/-! ## Inodes as bytes -/

/-- The bytes of a `struct dinode` are all that matters. -/
theorem dinode_congr {r r' : Bytes} (h : ∀ j < DINODE, r j = r' j) : dinode r = dinode r' := by
  have hhalf : ∀ k < 4, r.half k = r'.half k := by
    intro k hk
    rw [Bytes.half, Bytes.half, h (2 * k) (by lia),
      h (2 * k + 1) (by lia)]
  have hword : ∀ k < 16, r.word k = r'.word k := by
    intro k hk
    rw [Bytes.word, Bytes.word, h (4 * k) (by lia),
      h (4 * k + 1) (by lia), h (4 * k + 2) (by lia),
      h (4 * k + 3) (by lia)]
  have haddr : (fun k => if k ≤ NDIRECT then addr r k else 0) =
      fun k => if k ≤ NDIRECT then addr r' k else 0 := by
    funext k
    by_cases hk : k ≤ NDIRECT
    · rw [if_pos hk, if_pos hk, addr, addr, hword _ (by lia)]
    · rw [if_neg hk, if_neg hk]
  unfold dinode
  rw [haddr, hhalf 0 (by norm_num), hhalf 1 (by norm_num), hhalf 3 (by norm_num), size, size,
    hword 2 (by norm_num)]

theorem half_setWord {b : Bytes} {k j v : ℕ} (h : k / 2 ≠ j) :
    (b.setWord j v).half k = b.half k := by
  have h0 : 2 * k / 4 ≠ j := by omega
  have h1 : (2 * k + 1) / 4 ≠ j := by omega
  simp only [Bytes.half, Bytes.setWord, h0, h1, if_false]

theorem dinode_setAddr {r : Bytes} {k a : ℕ} (hk : k ≤ NDIRECT) (ha : a < 2 ^ 32) :
    dinode (setAddr r k a) = (dinode r).setAddr k a := by
  have haddr : (fun j => if j ≤ NDIRECT then addr (setAddr r k a) j else 0) =
      update (fun j => if j ≤ NDIRECT then addr r j else 0) k a := by
    funext j
    by_cases hj : j = k
    · rw [hj, update_self, if_pos hk, addr, setAddr, Bytes.word_setWord ha, if_pos rfl]
    · have hne : 3 + j ≠ 3 + k := by omega
      rw [update_of_ne hj, addr, setAddr, Bytes.word_setWord ha, if_neg hne, addr]
  have hsize : size (setAddr r k a) = size r := by
    rw [size, setAddr, Bytes.word_setWord ha, if_neg (by omega), size]
  unfold dinode Blocks.Dinode.setAddr
  simp only [haddr, hsize]
  rw [setAddr, half_setWord (by omega), half_setWord (by omega), half_setWord (by omega)]

theorem dinode_setSize {r : Bytes} {n : ℕ} (hn : n < 2 ^ 32) :
    dinode (setSize r n) = { dinode r with size := n } := by
  have haddr (k : ℕ) : addr (setSize r n) k = addr r k := by
    rw [addr, setSize, Bytes.word_setWord hn, if_neg (by omega), addr]
  have hsize : size (setSize r n) = n := by rw [size, setSize, Bytes.word_setWord hn, if_pos rfl]
  unfold dinode
  simp only [haddr, hsize]
  rw [setSize, half_setWord (by omega), half_setWord (by omega), half_setWord (by omega)]

theorem dinode_newInode (type : FileType) :
    dinode (newInode type) = ⟨type, 0, 1, 0, fun _ => 0⟩ := by
  have hzero : dinode ((zeroes.setHalf 0 type.code).setHalf 3 1) = ⟨type, 0, 1, 0, fun _ => 0⟩ := by
    have haddr (k : ℕ) : addr ((zeroes.setHalf 0 type.code).setHalf 3 1) k = 0 := by
      have h (j : ℕ) : (zeroes.setHalf 0 type.code).setHalf 3 1 (4 * (3 + k) + j) = 0 := by
        rw [Bytes.setHalf, if_neg (by omega), Bytes.setHalf, if_neg (by omega)]
        rfl
      rw [addr, Bytes.word, h 1, h 2, h 3, ← Nat.add_zero (4 * (3 + k)), h 0]
      rfl
    unfold dinode
    simp only [haddr, ite_self]
    cases type <;> rfl
  rw [newInode, dinode_setSize (by norm_num), hzero]

/-- Inodes that are not in the inode blocks are none. -/
def inodes (block : ℕ → Bytes) (i : ℕ) : Blocks.Dinode :=
  if i < ninodeblocks * IPB then (kernel block).dinode i else ⟨.free, 0, 0, 0, fun _ => 0⟩

theorem IBLOCK_lt {i : ℕ} (h : i < ninodeblocks * IPB) : IBLOCK i < bmapstart := by
  unfold IBLOCK
  lia

theorem IBLOCK_ne_one (i : ℕ) : 1 ≠ IBLOCK i := by
  unfold IBLOCK
  norm_num

theorem inodes_data {block : ℕ → Bytes} {b : ℕ} (hb : bmapstart ≤ b) (x : Bytes) :
    inodes (update block b x) = inodes block := by
  funext i
  by_cases hi : i < ninodeblocks * IPB
  · have hne : IBLOCK i ≠ b := by
      have := IBLOCK_lt hi
      omega
    rw [inodes, if_pos hi, inodes, if_pos hi]
    simp only [kernel, update_of_ne hne]
  · rw [inodes, if_neg hi, inodes, if_neg hi]

theorem record_setRecord {b r : Bytes} {k k' j : ℕ} (hj : j < DINODE) :
    (b.setRecord k r).record k' j = if k' = k then r j else b.record k' j := by
  have hdiv : (DINODE * k' + j) / DINODE = k' := by lia
  have hmod : (DINODE * k' + j) % DINODE = j := by lia
  simp only [Bytes.record, Bytes.setRecord, hdiv, hmod]

/-- `winode` changes one inode. -/
theorem kernel_winode (block : ℕ → Bytes) (i : ℕ) (r : Bytes) :
    (kernel (update block (IBLOCK i) ((block (IBLOCK i)).setRecord (i % IPB) r))).dinode =
      update (kernel block).dinode i (dinode r) := by
  funext j
  by_cases hji : j = i
  · subst hji
    rw [update_self]
    refine dinode_congr fun k hk => ?_
    rw [update_self, record_setRecord hk, if_pos rfl]
  · rw [update_of_ne hji]
    refine dinode_congr fun k hk => ?_
    by_cases hb : IBLOCK j = IBLOCK i
    · have hmod : j % IPB ≠ i % IPB := by
        unfold IBLOCK at hb
        lia
      rw [hb, update_self, record_setRecord hk, if_neg hmod]
    · rw [update_of_ne hb]

theorem inodes_winode {block : ℕ → Bytes} {i : ℕ} (hi : i < ninodeblocks * IPB) (r : Bytes) :
    inodes (update block (IBLOCK i) ((block (IBLOCK i)).setRecord (i % IPB) r)) =
      update (inodes block) i (dinode r) := by
  funext j
  unfold inodes
  rw [kernel_winode]
  by_cases hji : j = i
  · rw [hji, if_pos hi, update_self, update_self]
  · rw [update_of_ne hji, update_of_ne hji]

/-! ## Sectors -/

section Sectors

variable {F : String → Prop} {s : State} {sec : ℕ}

theorem sector_eq (h : sec < 2 ^ 23) : sector sec = sec := by
  unfold sector
  lia

theorem wp_rsect {Q : Bytes → State → Prop} (hn : s.nsect = FSSIZE) (hsec : sec < 2 ^ 23) :
    wp F (rsect sec) Q s ↔ if sec < FSSIZE then Q (s.block sec) s else F "read" := by
  unfold rsect
  rw [wp_bind, wp_look, hn, sector_eq hsec]
  by_cases h : sec < FSSIZE
  · rw [if_pos h, if_pos h, wp_look]
  · rw [if_neg h, if_neg h, wp_throw]

theorem wp_wsect {Q : Unit → State → Prop} {buf : Bytes} (hn : s.nsect = FSSIZE)
    (hsec : sec < FSSIZE) :
    wp F (wsect sec buf) Q s ↔ Q () { s with block := update s.block sec buf } := by
  have hmax : max s.nsect (sec + 1) = s.nsect := by lia
  unfold wsect
  rw [wp_modify, sector_eq (by lia), hmax]

theorem wp_rinode {Q : Bytes → State → Prop} {i : ℕ} (hn : s.nsect = FSSIZE)
    (hi : i < ninodeblocks * IPB) :
    wp F (rinode i) Q s ↔ Q ((s.block (IBLOCK i)).record (i % IPB)) s := by
  have hlt := IBLOCK_lt hi
  unfold rinode
  rw [wp_bind, wp_rsect hn (by lia), if_pos (by lia), wp_pure]

theorem wp_winode {Q : Unit → State → Prop} {i : ℕ} {r : Bytes} (hn : s.nsect = FSSIZE)
    (hi : IBLOCK i < FSSIZE) :
    wp F (winode i r) Q s ↔ Q () { s with
      block := update s.block (IBLOCK i) ((s.block (IBLOCK i)).setRecord (i % IPB) r) } := by
  unfold winode
  rw [wp_bind, wp_rsect hn (by lia), if_pos hi, wp_wsect hn hi]

theorem wp_ialloc_iff {Q : ℕ → State → Prop} {type : FileType} (hn : s.nsect = FSSIZE)
    (hi : IBLOCK s.freeinode < FSSIZE) :
    wp F (ialloc type) Q s ↔ Q s.freeinode { s with
      freeinode := s.freeinode + 1
      block := update s.block (IBLOCK s.freeinode)
        ((s.block (IBLOCK s.freeinode)).setRecord (s.freeinode % IPB) (newInode type)) } := by
  unfold ialloc
  rw [wp_bind, wp_look, wp_bind, wp_modify, wp_bind,
    wp_winode (s := { s with freeinode := s.freeinode + 1 }) hn hi, wp_pure]

theorem wp_takeBlock {Q : ℕ → State → Prop} :
    wp F takeBlock Q s ↔ Q s.freeblock { s with freeblock := s.freeblock + 1 } := by
  unfold takeBlock
  rw [wp_bind, wp_look, wp_bind, wp_modify, wp_pure]

end Sectors

/-! ## Blocks that are handed out in order -/

/-- The disk whose bitmap marks the blocks that have been handed out. -/
def disk (s : State) : Blocks.Disk := ⟨fun b => decide (b < s.freeblock), s.block⟩

/-- Every block below `freeblock` has one owner, and the others are zero; `f` are the inodes. -/
structure Laid (s : State) (f : ℕ → Blocks.Dinode) : Prop where
  nsect : s.nsect = FSSIZE
  le : s.freeblock ≤ FSSIZE
  zero : ∀ {b}, s.freeblock ≤ b → s.block b = zeroes
  excl : Exclusive sb.nmeta sb.size (disk s).used (cells (disk s) f)

/-- Position `n` of an inode has block `x`, which may be new.  The blocks that it took are `k`. -/
structure Located (s : State) (f : ℕ → Blocks.Dinode) (i n k x : ℕ) (s' : State)
    (ip' : Blocks.Dinode) : Prop where
  laid : Laid s' (update f i ip')
  grows : Grows sb (disk s) f i n x (disk s') ip'
  fresh : blockAt (disk s) (f i) n = 0 → s'.block x = zeroes
  kept : ∀ {b}, b < nmeta → s'.block b = s.block b
  ind : ip'.addrs NDIRECT ≠ 0 ↔ (f i).addrs NDIRECT ≠ 0 ∨ NDIRECT ≤ n
  freeinode : s'.freeinode = s.freeinode
  freeblock : s'.freeblock = s.freeblock + k

/-- The blocks that are necessary for position `n` -/
def cost (d : Blocks.Disk) (ip : Blocks.Dinode) (n : ℕ) : ℕ :=
  if blockAt d ip n ≠ 0 then 0 else if NDIRECT ≤ n ∧ ip.addrs NDIRECT = 0 then 2 else 1

/-- There is no block left: `x` is the first one after the end of the image. -/
def Missed (s : State) (k x : ℕ) (s' : State) : Prop :=
  x = FSSIZE ∧ s'.nsect = FSSIZE ∧ FSSIZE < s.freeblock + k

section Blocks

variable {F : String → Prop} {s : State} {f : ℕ → Blocks.Dinode} {i n : ℕ} {din : Bytes}

theorem Laid.addr_lt (h : Laid s f) {p : ℕ} (h0 : cells (disk s) f (i, p) ≠ 0) :
    nmeta ≤ cells (disk s) f (i, p) ∧ cells (disk s) f (i, p) < s.freeblock :=
  ⟨h.excl.le_cell h0, of_decide_eq_true (h.excl.used_cell h0)⟩

theorem Laid.ind_lt (h : Laid s f) (h0 : (f i).addrs NDIRECT ≠ 0) :
    nmeta ≤ (f i).addrs NDIRECT ∧ (f i).addrs NDIRECT < s.freeblock := by
  have hcell : cells (disk s) f (i, NDIRECT) = (f i).addrs NDIRECT := place_slot le_rfl
  rw [← hcell] at h0 ⊢
  exact h.addr_lt h0

/-- `freeblock++` hands out a block that is free and zero. -/
theorem Laid.take (h : Laid s f) : disk { s with freeblock := s.freeblock + 1 } =
    ⟨update (disk s).used s.freeblock true, update (disk s).block s.freeblock fun _ => 0⟩ := by
  have hused : (fun b => decide (b < s.freeblock + 1)) = update (disk s).used s.freeblock true := by
    funext b
    by_cases hb : b = s.freeblock
    · rw [hb, update_self]
      exact decide_eq_true (Nat.lt_succ_self _)
    · rw [update_of_ne hb]
      exact decide_eq_decide.mpr (by omega)
  have hblock : (update s.block s.freeblock fun _ => 0) = s.block := by
    refine Function.update_eq_iff.mpr ⟨?_, fun _ _ => rfl⟩
    exact (h.zero le_rfl).symm
  show Blocks.Disk.mk _ s.block = ⟨_, update s.block s.freeblock _⟩
  rw [hblock, hused]

theorem Laid.take_set (h : Laid s f) (a : ℕ) (x : Bytes) :
    disk ⟨update s.block a x, s.nsect, s.freeinode, s.freeblock + 1⟩ =
      ⟨update (disk s).used s.freeblock true,
        update (update (disk s).block s.freeblock fun _ => 0) a x⟩ :=
  congrArg (fun d : Blocks.Disk => Blocks.Disk.mk d.used (update d.block a x)) h.take

theorem disk_free : (disk s).used s.freeblock = false := decide_eq_false (Nat.lt_irrefl _)

theorem wp_word (h : Laid s f) (hn : n < MAXFILE) (hd : ¬ n < NDIRECT)
    (hind : (f i).addrs NDIRECT ≠ 0) :
    wp F (word ((f i).addrs NDIRECT) (n - NDIRECT))
      (fun x s' => Missed s (cost (disk s) (f i) n) x s' ∨
        Located s f i n (cost (disk s) (f i) n) x s' (f i)) s := by
  obtain ⟨hlo, hlt⟩ := h.ind_lt hind
  have hle := h.le
  have hj : n - NDIRECT < NINDIRECT := by lia
  have hat : blockAt (disk s) (f i) n = (s.block ((f i).addrs NDIRECT)).word (n - NDIRECT) := by
    rw [blockAt, pos_indirect hd, place_word hind hj]
    rfl
  have hcost : cost (disk s) (f i) n = if blockAt (disk s) (f i) n ≠ 0 then 0 else 1 := by
    unfold cost
    congr 1
    exact if_neg fun hc => hind hc.2
  have hindiff : (f i).addrs NDIRECT ≠ 0 ↔ (f i).addrs NDIRECT ≠ 0 ∨ NDIRECT ≤ n :=
    iff_of_true hind (.inl hind)
  have hself : update f i (f i) = f := Function.update_eq_self ..
  unfold word
  rw [wp_bind, wp_rsect h.nsect (by lia), if_pos (by lia), hcost]
  by_cases h0 : (s.block ((f i).addrs NDIRECT)).word (n - NDIRECT) = 0
  · have hx : blockAt (disk s) (f i) n = 0 := hat.trans h0
    have hnsect : State.nsect { s with freeblock := s.freeblock + 1 } = FSSIZE := h.nsect
    rw [if_pos h0, if_neg (not_not.mpr hx), wp_bind, wp_takeBlock, wp_bind,
      wp_wsect hnsect (by lia), wp_pure]
    by_cases hfb : s.freeblock < FSSIZE
    · right
      have ht := takes_word h.excl hfb disk_free hj hind h0
      rw [← h.take_set, ← pos_indirect hd] at ht
      constructor
      case laid =>
        rw [hself]
        refine ⟨h.nsect, hfb, fun {b} (hb : s.freeblock + 1 ≤ b) => ?_, ht.excl⟩
        have hne : b ≠ (f i).addrs NDIRECT := by omega
        simp only [update_of_ne hne]
        exact h.zero (by omega)
      case grows =>
        refine Takes.grows h.excl (hself.symm ▸ ht) rfl hx fun a ha ha' => ?_
        exact update_of_ne ha' ..
      case fresh =>
        intro _
        have hne : s.freeblock ≠ (f i).addrs NDIRECT := by omega
        simp only [update_of_ne hne]
        exact h.zero le_rfl
      case kept =>
        intro b hb
        have hne : b ≠ (f i).addrs NDIRECT := by omega
        simp only [update_of_ne hne]
      case ind => exact hindiff
      case freeinode => rfl
      case freeblock => rfl
    · left
      exact ⟨by omega, h.nsect, by omega⟩
  · rw [if_neg h0, if_pos (by rwa [hat]), wp_pure, ← hat]
    right
    have hx : blockAt (disk s) (f i) n ≠ 0 := by rwa [hat]
    exact ⟨hself.symm ▸ h, grows_found h.excl hx, fun h0 => absurd h0 hx,
      fun _ => rfl, hindiff, rfl, rfl⟩

theorem dinode_addrs {k : ℕ} (hk : k ≤ NDIRECT) : (dinode din).addrs k = addr din k := if_pos hk

theorem addr_setAddr {k a : ℕ} (ha : a < 2 ^ 32) : addr (setAddr din k a) k = a := by
  rw [addr, setAddr, Bytes.word_setWord ha, if_pos rfl]

/-- A slot of an inode gets the next block. -/
theorem Laid.slot (h : Laid s f) {k : ℕ} {ip : Blocks.Dinode} (hfb : s.freeblock < FSSIZE)
    (hk : k ≤ NDIRECT) (h0 : (f i).addrs k = 0) (hip : ip = (f i).setAddr k s.freeblock) :
    Takes sb (disk s) f (i, k) s.freeblock (disk { s with freeblock := s.freeblock + 1 })
        (update f i ip) ∧
      Laid { s with freeblock := s.freeblock + 1 } (update f i ip) := by
  subst hip
  have ht := takes_slot h.excl hfb disk_free hk h0
  rw [← h.take] at ht
  exact ⟨ht, h.nsect, hfb, fun {b} (hb : s.freeblock + 1 ≤ b) => h.zero (by omega), ht.excl⟩

theorem wp_locate_direct (h : Laid s f) (hdin : f i = dinode din) (hd : n < NDIRECT) :
    wp F (locate din n)
      (fun r s' => Missed s (cost (disk s) (f i) n) r.1 s' ∨
        Located s f i n (cost (disk s) (f i) n) r.1 s' (dinode r.2)) s := by
  have hle := h.le
  have hcost : cost (disk s) (f i) n = if blockAt (disk s) (f i) n ≠ 0 then 0 else 1 := by
    unfold cost
    congr 1
    exact if_neg fun hc => absurd hd (not_lt_of_ge hc.1)
  have hat : blockAt (disk s) (f i) n = addr din n := by
    rw [blockAt, pos_direct hd, place_slot (Nat.le_of_lt hd), hdin, dinode_addrs (Nat.le_of_lt hd)]
  unfold locate Mkfs.slot
  rw [if_pos hd, wp_bind, hcost, hat]
  by_cases h0 : addr din n = 0
  · rw [if_pos h0, if_neg (not_not.mpr h0), wp_bind, wp_takeBlock, wp_pure, wp_pure,
      addr_setAddr (by lia)]
    by_cases hfb : s.freeblock < FSSIZE
    · right
      have hslot : (f i).addrs n = 0 := by rw [hdin, dinode_addrs (Nat.le_of_lt hd), h0]
      have hip : dinode (setAddr din n s.freeblock) = (f i).setAddr n s.freeblock := by
        rw [dinode_setAddr (Nat.le_of_lt hd) (by lia), hdin]
      obtain ⟨ht, hlaid⟩ := h.slot hfb (Nat.le_of_lt hd) hslot hip
      have hpos : (i, n) = (i, pos n) := by rw [pos_direct hd]
      rw [hpos] at ht
      refine ⟨hlaid, ht.grows h.excl ?_ (hat.trans h0) fun _ _ _ => rfl, fun _ => h.zero le_rfl,
        fun _ => rfl, ?_, rfl, rfl⟩
      · rw [hip]
        rfl
      · have hne : NDIRECT ≠ n := Nat.ne_of_gt hd
        rw [hip, Blocks.Dinode.setAddr_addrs, update_of_ne hne]
        exact (or_iff_left (not_le_of_gt hd)).symm
    · left
      exact ⟨by omega, h.nsect, by omega⟩
  · rw [if_neg h0, if_pos h0, wp_pure, wp_pure, ← hat, ← hdin]
    right
    have hx : blockAt (disk s) (f i) n ≠ 0 := by rwa [hat]
    have hself : update f i (f i) = f := Function.update_eq_self ..
    exact ⟨hself.symm ▸ h, grows_found h.excl hx, fun h0 => absurd h0 hx, fun _ => rfl,
      (or_iff_left (not_le_of_gt hd)).symm, rfl, rfl⟩

theorem wp_locate (h : Laid s f) (hdin : f i = dinode din) (hn : n < MAXFILE)
    (hF : FSSIZE < s.freeblock + cost (disk s) (f i) n → ∀ e, F e) :
    wp F (locate din n)
      (fun r s' => Missed s (cost (disk s) (f i) n) r.1 s' ∨
        Located s f i n (cost (disk s) (f i) n) r.1 s' (dinode r.2)) s := by
  by_cases hd : n < NDIRECT
  · exact wp_locate_direct h hdin hd
  have hle := h.le
  have haddr : (f i).addrs NDIRECT = addr din NDIRECT := by rw [hdin, dinode_addrs le_rfl]
  unfold locate Mkfs.slot
  rw [if_neg hd, wp_bind]
  by_cases h0 : addr din NDIRECT = 0
  · -- first the indirect block, then the block itself
    have hind : (f i).addrs NDIRECT = 0 := haddr.trans h0
    have hat : blockAt (disk s) (f i) n = 0 := by
      rw [blockAt, pos_indirect hd, place, if_neg (by omega), if_pos (.inl hind)]
    have hcost : cost (disk s) (f i) n = 2 := by
      rw [cost, if_neg (not_not.mpr hat), if_pos ⟨not_lt.mp hd, hind⟩]
    rw [hcost] at hF ⊢
    rw [if_pos h0, wp_bind, wp_takeBlock, wp_pure, wp_bind, addr_setAddr (by lia)]
    by_cases hfb : s.freeblock < FSSIZE
    · have hip : dinode (setAddr din NDIRECT s.freeblock) = (f i).setAddr NDIRECT s.freeblock := by
        rw [dinode_setAddr le_rfl (by lia), hdin]
      obtain ⟨ht, hlaid⟩ := h.slot hfb le_rfl hind hip
      generalize hip₁ : dinode (setAddr din NDIRECT s.freeblock) = ip₁ at *
      have hind₁ : ip₁.addrs NDIRECT = s.freeblock := by
        rw [hip, Blocks.Dinode.setAddr_addrs, update_self]
      have hne : ip₁.addrs NDIRECT ≠ 0 := hind₁ ▸ ht.ne_zero
      have hcost₁ : cost (disk { s with freeblock := s.freeblock + 1 }) ip₁ n = 1 := by
        rw [cost, ht.blockAt_indirect, if_neg (not_not.mpr hat), if_neg fun hc => hne hc.2]
      have hword := wp_word (F := F) (i := i) hlaid hn hd (by rwa [update_self])
      rw [update_self, hcost₁, hind₁] at hword
      refine wp_mono hword fun x s' hx => wp_pure.mpr (hx.imp id fun hl => ?_)
      rw [hip₁]
      have hup : update (update f i ip₁) i ip₁ = update f i ip₁ := Function.update_idem ..
      refine ⟨hup ▸ hl.laid, ht.grows_indirect ?_ hind hat (fun _ _ => rfl) hl.grows,
        fun _ => hl.fresh ?_, hl.kept, iff_of_true hne (.inr (not_lt.mp hd)), hl.freeinode,
        hl.freeblock⟩
      · rw [hip]
        rfl
      · rw [update_self, ht.blockAt_indirect, hat]
    · unfold word
      rw [wp_bind, wp_rsect (s := { s with freeblock := s.freeblock + 1 }) h.nsect
        (by lia), if_neg hfb]
      exact hF (by omega) _
  · rw [if_neg h0, wp_pure, wp_bind, ← haddr]
    refine wp_mono (wp_word h hn hd (by rwa [haddr])) fun x s' hx => wp_pure.mpr ?_
    rwa [← hdin]

end Blocks

/-! ## Contents -/

/-- The blocks of a file of `size` bytes, with the indirect block -/
def blocksOf (size : ℕ) : ℕ := nblocks size + if NDIRECT < nblocks size then 1 else 0

theorem blocksOf_mono {m n : ℕ} (h : m ≤ n) : blocksOf m ≤ blocksOf n := by
  have hle : nblocks m ≤ nblocks n := by
    unfold nblocks
    lia
  unfold blocksOf
  split_ifs <;> omega

theorem div_le_nblocks (size : ℕ) : size / BSIZE ≤ nblocks size := by
  unfold nblocks
  lia

/-- An inode holds the bytes `c`: its blocks are those for them, with zeros after the end. -/
structure Holds (d : Blocks.Disk) (ip : Blocks.Dinode) (c : List UInt8) : Prop where
  shape : ∀ {q}, q < MAXFILE → (blockAt d ip q ≠ 0 ↔ q < nblocks c.length)
  ind : ip.addrs NDIRECT ≠ 0 ↔ NDIRECT < nblocks c.length
  byte : ∀ {x}, x < nblocks c.length * BSIZE → byteAt d ip x = c.getD x 0
  length_le : c.length ≤ MAXFILE * BSIZE

/-- The inodes `f` hold the bytes `a`, and no other blocks have been handed out. -/
structure Local (s : State) (f : ℕ → Blocks.Dinode) (a : ℕ → List UInt8) : Prop where
  laid : Laid s f
  holds : ∀ i, Holds (disk s) (f i) (a i)
  freeblock : s.freeblock =
    nmeta + ∑ i ∈ Finset.range (ninodeblocks * IPB), blocksOf (a i).length

/-- There are enough blocks for files of these sizes. -/
structure Enough (b : ℕ → ℕ) : Prop where
  size_le : ∀ i, b i ≤ MAXFILE * BSIZE
  blocks_le : nmeta + ∑ i ∈ Finset.range (ninodeblocks * IPB), blocksOf (b i) ≤ FSSIZE

section Contents

variable {F : String → Prop} {s : State} {f : ℕ → Blocks.Dinode} {a : ℕ → List UInt8}
  {b : ℕ → ℕ} {i : ℕ} {din : Bytes}

variable {d : Blocks.Disk} {c p : List UInt8} {ip' : Blocks.Dinode} {x : ℕ}

/-- What a round of the loop costs -/
theorem Holds.cost {ip : Blocks.Dinode} {m : ℕ} (h : Holds d ip c)
    (hq : c.length / BSIZE < MAXFILE) (hm0 : 0 < m) (hm : m ≤ BSIZE - c.length % BSIZE) :
    blocksOf (c.length + m) = blocksOf c.length + cost d ip (c.length / BSIZE) := by
  have hnew : nblocks (c.length + m) = c.length / BSIZE + 1 := by
    unfold nblocks
    lia
  unfold Mkfs.cost blocksOf
  simp only [h.shape hq, hnew]
  by_cases hold : c.length / BSIZE < nblocks c.length
  · have hold' : nblocks c.length = c.length / BSIZE + 1 := by
      unfold nblocks at *
      lia
    rw [if_pos hold, hold']
    exact (Nat.add_zero _).symm
  · have hold' : nblocks c.length = c.length / BSIZE := by
      unfold nblocks at *
      lia
    have hind : ip.addrs NDIRECT = 0 ↔ ¬ NDIRECT < c.length / BSIZE := by
      rw [← hold', ← h.ind, not_not]
    rw [if_neg hold, hold']
    split_ifs <;> omega

theorem sum_blocksOf_update {S : Finset ℕ} (hi : i ∈ S) :
    ∑ j ∈ S, blocksOf (update a i c j).length + blocksOf (a i).length =
      ∑ j ∈ S, blocksOf (a j).length + blocksOf c.length := by
  rw [← Finset.add_sum_erase S _ hi, ← Finset.add_sum_erase S (fun j => blocksOf (a j).length) hi,
    update_self]
  have hrest : ∑ j ∈ S.erase i, blocksOf (update a i c j).length =
      ∑ j ∈ S.erase i, blocksOf (a j).length := by
    refine Finset.sum_congr rfl fun j hj => ?_
    rw [update_of_ne (Finset.ne_of_mem_erase hj)]
  rw [hrest]
  omega

/-- Only the addresses and the blocks that they name matter. -/
theorem Holds.congr {d' : Blocks.Disk} {ip : Blocks.Dinode} (h : Holds d ip c)
    (haddrs : ip'.addrs NDIRECT = ip.addrs NDIRECT) (hplace : ∀ p, place d' ip' p = place d ip p)
    (hblock : ∀ q, q < MAXFILE → blockAt d ip q ≠ 0 →
      d'.block (blockAt d ip q) = d.block (blockAt d ip q)) : Holds d' ip' c := by
  have hat (q : ℕ) : blockAt d' ip' q = blockAt d ip q := hplace _
  refine ⟨fun hq => by rw [hat, h.shape hq], by rw [haddrs, h.ind], fun {x} hx => ?_, h.length_le⟩
  have hq : x / BSIZE < nblocks c.length := by lia
  have hmax : x / BSIZE < MAXFILE := by
    have := h.length_le
    unfold nblocks at hq
    lia
  rw [← h.byte hx, byteAt, byteAt, hat, hblock _ hmax ((h.shape hmax).mpr hq)]

/-- A round is a write at the end. -/
theorem Holds.wrote {d' : Blocks.Disk}
    (h : Holds d (f i) c) (hg : Grows sb d f i (c.length / BSIZE) x d' ip') (hp : 0 < p.length)
    (hlen : p.length ≤ BSIZE - c.length % BSIZE) :
    Wrote sb d f i (nblocks c.length) c.length p
      { d' with block := update d'.block x ((d'.block x).move (c.length % BSIZE) p) } ip' := by
  have hnmax : nblocks c.length ≤ MAXFILE := by
    unfold nblocks
    have := h.length_le
    lia
  exact hg.wrote h.shape (div_le_nblocks _) hnmax hp hlen

theorem Holds.round {d' : Blocks.Disk}
    (h : Holds d (f i) c) (hg : Grows sb d f i (c.length / BSIZE) x d' ip')
    (hfresh : blockAt d (f i) (c.length / BSIZE) = 0 → d'.block x = zeroes)
    (hind : ip'.addrs NDIRECT ≠ 0 ↔ (f i).addrs NDIRECT ≠ 0 ∨ NDIRECT ≤ c.length / BSIZE)
    (hq : c.length / BSIZE < MAXFILE) (hp : 0 < p.length)
    (hlen : p.length ≤ BSIZE - c.length % BSIZE) :
    Holds { d' with block := update d'.block x ((d'.block x).move (c.length % BSIZE) p) } ip'
      (c ++ p) := by
  have hw := h.wrote hg hp hlen
  have hnew : nblocks (c ++ p).length = c.length / BSIZE + 1 := by
    rw [List.length_append]
    unfold nblocks
    lia
  have hnew' : nblocks c.length ≤ c.length / BSIZE + 1 := by
    unfold nblocks
    lia
  constructor
  case shape =>
    intro q hq
    rw [hw.shape hq, hnew]
    lia
  case ind =>
    rw [hind, h.ind, hnew]
    omega
  case byte =>
    intro y hy
    rw [hnew] at hy
    by_cases hin : c.length ≤ y ∧ y < c.length + p.length
    · rw [hw.byte (.inr hin), if_pos hin, List.getD_append_right _ _ _ _ hin.1]
    have hout : (c ++ p).getD y 0 = c.getD y 0 := by
      by_cases hyc : y < c.length
      · exact List.getD_append _ _ _ _ hyc
      · rw [List.getD_eq_default _ _ (by rw [List.length_append]; omega),
          List.getD_eq_default _ _ (by omega)]
    rw [hout]
    by_cases hyn : y / BSIZE < nblocks c.length
    · rw [hw.byte (.inl hyn), if_neg hin, h.byte ((Nat.div_lt_iff_lt_mul (by norm_num)).mp hyn)]
    · -- the rest of a new block
      have hyq : y / BSIZE = c.length / BSIZE := by
        have hn := div_le_nblocks c.length
        lia
      have h0 : blockAt d (f i) (c.length / BSIZE) = 0 := by
        refine not_not.mp fun hne => hyn ?_
        rw [hyq]
        exact (h.shape hq).mp hne
      have hyc : c.length ≤ y := by
        have hnc := mt (h.shape hq).mpr (not_not.mpr h0)
        unfold nblocks at hnc
        lia
      rw [List.getD_eq_default _ _ hyc, byteAt, hg.blockAt_data, hyq, hg.new]
      simp only [update_self]
      rw [move_byte hlen hyq, if_neg hin, hfresh h0]
      rfl
  case length_le =>
    rw [List.length_append]
    lia

/-- Meta blocks and the rest of the inodes do not matter. -/
theorem Local.congr {f' : ℕ → Blocks.Dinode} {block : ℕ → Bytes} {n : ℕ} (h : Local s f a)
    (haddrs : ∀ j k, k ≤ NDIRECT → (f' j).addrs k = (f j).addrs k)
    (hblock : ∀ b, nmeta ≤ b → block b = s.block b) :
    Local { s with block := block, freeinode := n } f' a := by
  have hplace (j p : ℕ) : place (disk { s with block := block, freeinode := n }) (f' j) p =
      place (disk s) (f j) p := by
    unfold place
    rw [haddrs j NDIRECT le_rfl]
    split_ifs with h₁ h₂
    · exact haddrs j p h₁
    · rfl
    · have hb := hblock _ (h.laid.ind_lt fun h0 => h₂ (.inl h0)).1
      show (block _).word _ = (s.block _).word _
      rw [hb]
  have hcells : cells (disk { s with block := block, freeinode := n }) f' = cells (disk s) f :=
    funext fun x => hplace x.1 x.2
  refine ⟨⟨h.laid.nsect, h.laid.le, fun {b} hb => ?_, ?_⟩, fun j => ?_, h.freeblock⟩
  · have hlo : nmeta ≤ s.freeblock := by
      rw [h.freeblock]
      exact Nat.le_add_right ..
    show block b = zeroes
    rw [hblock b (hlo.trans hb)]
    exact h.laid.zero hb
  · rw [hcells]
    exact h.laid.excl
  · refine (h.holds j).congr (haddrs j NDIRECT le_rfl) (hplace j) fun q _ h0 => ?_
    exact hblock _ (h.laid.addr_lt h0).1

theorem Local.round {s' : State} (h : Local s f a) (hi : i < ninodeblocks * IPB)
    (hl : Located s f i ((a i).length / BSIZE)
    (cost (disk s) (f i) ((a i).length / BSIZE)) x s' ip')
    (hq : (a i).length / BSIZE < MAXFILE) (hp : 0 < p.length)
    (hlen : p.length ≤ BSIZE - (a i).length % BSIZE) :
    Local { s' with block := update s'.block x ((s'.block x).move ((a i).length % BSIZE) p) }
      (update f i ip') (update a i (a i ++ p)) := by
  have hw := (h.holds i).wrote hl.grows hp hlen
  constructor
  case laid =>
    refine ⟨hl.laid.nsect, hl.laid.le, fun {b} (hb : s'.freeblock ≤ b) => ?_, hw.excl⟩
    have hcell : cells (disk s') (update f i ip') (i, pos ((a i).length / BSIZE)) = x := by
      rw [cells_update_self]
      exact hl.grows.new
    have hlt := (hl.laid.addr_lt (by rw [hcell]; exact hl.grows.ne_zero)).2
    rw [hcell] at hlt
    have hne : b ≠ x := by omega
    simp only [update_of_ne hne]
    exact hl.laid.zero hb
  case holds =>
    intro j
    by_cases hj : j = i
    · subst hj
      rw [update_self, update_self]
      exact (h.holds j).round hl.grows hl.fresh hl.ind hq hp hlen
    · rw [update_of_ne hj, update_of_ne hj]
      exact (h.holds j).congr rfl (hw.cells_other hj) fun q _ h0 => hw.other hj h0
  case freeblock =>
    have hsum := sum_blocksOf_update (a := a) (c := a i ++ p) (Finset.mem_range.mpr hi)
    rw [List.length_append, (h.holds i).cost hq hp hlen] at hsum
    have hold := h.freeblock
    have hnew := hl.freeblock
    show s'.freeblock = _
    omega

/-- What has become of the inode that `iappend` works on, after it has appended `p`. -/
structure AppendedTo (s : State) (f : ℕ → Blocks.Dinode) (a : ℕ → List UInt8) (i : ℕ)
    (p : List UInt8) (s' : State) (ip' : Blocks.Dinode) : Prop where
  loc : Local s' (update f i ip') (update a i (a i ++ p))
  addrs : ip' = { f i with addrs := ip'.addrs }
  kept : ∀ {b}, b < nmeta → s'.block b = s.block b
  freeinode : s'.freeinode = s.freeinode

theorem AppendedTo.nil (h : Local s f a) : AppendedTo s f a i [] s (f i) := by
  refine ⟨?_, rfl, fun _ => rfl, rfl⟩
  rw [List.append_nil, Function.update_eq_self, Function.update_eq_self]
  exact h

theorem AppendedTo.append {p₁ : List UInt8} {s₁ s₂ : State} {ip₁ ip₂ : Blocks.Dinode}
    (h : AppendedTo s f a i p s₁ ip₁)
    (h₁ : AppendedTo s₁ (update f i ip₁) (update a i (a i ++ p)) i p₁ s₂ ip₂) :
    AppendedTo s f a i (p ++ p₁) s₂ ip₂ := by
  refine ⟨?_, ?_, fun hb => (h₁.kept hb).trans (h.kept hb), h₁.freeinode.trans h.freeinode⟩
  · have := h₁.loc
    rwa [update_self, Function.update_idem, Function.update_idem, List.append_assoc] at this
  · have := h₁.addrs
    rw [update_self, h.addrs] at this
    exact this

/-- If there are enough blocks, there is one for this round. -/
theorem Local.room (h : Local s f a) (hi : i < ninodeblocks * IPB)
    (hq : (a i).length / BSIZE < MAXFILE) (hp : 0 < p.length)
    (hlen : p.length ≤ BSIZE - (a i).length % BSIZE)
    (hb : ∀ j, (update a i (a i ++ p) j).length ≤ b j) (he : Enough b) :
    s.freeblock + cost (disk s) (f i) ((a i).length / BSIZE) ≤ FSSIZE := by
  have hsum := sum_blocksOf_update (a := a) (c := a i ++ p) (Finset.mem_range.mpr hi)
  rw [List.length_append, (h.holds i).cost hq hp hlen] at hsum
  have hle : ∑ j ∈ Finset.range (ninodeblocks * IPB), blocksOf (update a i (a i ++ p) j).length ≤
      ∑ j ∈ Finset.range (ninodeblocks * IPB), blocksOf (b j) :=
    Finset.sum_le_sum fun j _ => blocksOf_mono (hb j)
  have hblocks := he.blocks_le
  have hold := h.freeblock
  omega

/-- The bytes of a round -/
theorem wp_store {Q : Unit → State → Prop} (hn : s.nsect = FSSIZE) (hx : x ≤ FSSIZE) {off : ℕ} :
    wp F (store x off p) Q s ↔ if x < FSSIZE then
      Q () { s with block := update s.block x ((s.block x).move (off % BSIZE) p) }
      else F "read" := by
  have hmod : off - off / BSIZE * BSIZE = off % BSIZE := by lia
  unfold store
  rw [wp_bind, wp_rsect hn (by lia), hmod]
  by_cases h : x < FSSIZE
  · rw [if_pos h, if_pos h, wp_wsect hn h]
  · rw [if_neg h, if_neg h]

/-- The first block of the rest of `p` -/
theorem wp_appendRound {off : ℕ} {k : Bytes → MkfsM (Bytes × ℕ)}
    {Q : Bytes × ℕ → State → Prop} (h : Local s f a) (hi : i < ninodeblocks * IPB)
    (hdin : f i = dinode din) (hoff : off = (a i).length) (hq : off / BSIZE < MAXFILE)
    (hp : 0 < p.length) (hlen : p.length ≤ BSIZE - off % BSIZE)
    (hb : ∀ j, (update a i (a i ++ p) j).length ≤ b j) (hF : ¬ Enough b → ∀ e, F e)
    (hk : ∀ din₁ s₁, AppendedTo s f a i p s₁ (dinode din₁) → wp F (k din₁) Q s₁) :
    wp F (do
      let r ← locate din (off / BSIZE)
      store r.1 off p
      k r.2) Q s := by
  subst hoff
  have hroom : FSSIZE < s.freeblock + cost (disk s) (f i) ((a i).length / BSIZE) → ∀ e, F e := by
    intro hlt
    exact hF fun he => absurd (h.room hi hq hp hlen hb he) (not_le_of_gt hlt)
  refine wp_bind.mpr (wp_mono (wp_locate h.laid hdin hq hroom) ?_)
  rintro ⟨x, din₁⟩ s₁ (⟨rfl, hn, hlt⟩ | hl)
  · rw [wp_bind, wp_store hn le_rfl, if_neg (lt_irrefl _)]
    exact hroom hlt _
  · have hcell : cells (disk s₁) (update f i (dinode din₁))
        (i, pos ((a i).length / BSIZE)) = x := by
      rw [cells_update_self]
      exact hl.grows.new
    have hx := hl.laid.addr_lt (by rw [hcell]; exact hl.grows.ne_zero)
    rw [hcell] at hx
    have hxf : x < FSSIZE := hx.2.trans_le hl.laid.le
    rw [wp_bind, wp_store hl.laid.nsect hxf.le, if_pos hxf]
    refine hk _ _ ⟨h.round hi hl hq hp hlen, hl.grows.addrs, fun {b} hb => ?_, hl.freeinode⟩
    have hne : b ≠ x := by omega
    rw [← hl.kept hb]
    exact update_of_ne hne ..

theorem wp_appendLoop {fuel off : ℕ} (h : Local s f a) (hi : i < ninodeblocks * IPB)
    (hdin : f i = dinode din) (hoff : off = (a i).length)
    (hb : ∀ j, (update a i (a i ++ p) j).length ≤ b j) (hF : ¬ Enough b → ∀ e, F e)
    (hfuel : p.length ≤ fuel) :
    wp F (appendLoop fuel din off p) (fun r s' => r.2 = off + p.length ∧
      AppendedTo s f a i p s' (dinode r.1)) s := by
  induction fuel generalizing s f a din off p with
  | zero =>
    obtain rfl : p = [] := List.length_eq_zero_iff.mp (Nat.le_zero.mp hfuel)
    exact wp_pure.mpr ⟨rfl, hdin ▸ AppendedTo.nil h⟩
  | succ fuel ih =>
    by_cases hp : 0 < p.length
    · rw [appendLoop, if_pos hp]
      by_cases hq : off / BSIZE < MAXFILE
      · rw [if_pos hq]
        have hm : min p.length ((off / BSIZE + 1) * BSIZE - off) =
            min p.length (BSIZE - off % BSIZE) := by
          lia
        simp only [hm]
        have hm₀ : 0 < min p.length (BSIZE - off % BSIZE) := by lia
        have hm₂ : min p.length (BSIZE - off % BSIZE) ≤ BSIZE - off % BSIZE := Nat.min_le_right ..
        generalize min p.length (BSIZE - off % BSIZE) = m at *
        have hlen : (p.take m).length = m := by
          rw [List.length_take]
          omega
        have hb₁ (j : ℕ) : (update a i (a i ++ p.take m) j).length ≤ b j := by
          refine le_trans ?_ (hb j)
          by_cases hj : j = i
          · subst hj
            rw [update_self, update_self, List.length_append, List.length_append, hlen]
            omega
          · rw [update_of_ne hj, update_of_ne hj]
        refine wp_appendRound (k := fun din => appendLoop fuel din (off + m) (p.drop m)) h hi hdin
          hoff hq (by omega) (by omega) hb₁ hF fun din₁ s₁ hr => ?_
        have hrest : wp F (appendLoop fuel din₁ (off + m) (p.drop m)) _ s₁ :=
          ih hr.loc (update_self ..) ?_ ?_ ?_
        · refine wp_mono hrest fun r s' hs' => ⟨?_, ?_⟩
          · rw [hs'.1, List.length_drop]
            omega
          · have := hr.append hs'.2
            rwa [List.take_append_drop] at this
        · rw [update_self, List.length_append, hlen, hoff]
        · intro j
          rw [update_self, Function.update_idem, List.append_assoc, List.take_append_drop]
          exact hb j
        · rw [List.length_drop]
          omega
      · rw [if_neg hq, wp_throw]
        refine hF (fun he => hq ?_) _
        have hsize := he.size_le i
        have hbi := hb i
        rw [update_self, List.length_append] at hbi
        lia
    · obtain rfl : p = [] := List.length_eq_zero_iff.mp (by omega)
      rw [appendLoop, if_neg hp]
      exact wp_pure.mpr ⟨rfl, hdin ▸ AppendedTo.nil h⟩

end Contents

/-! ## The image -/

def noInode : Blocks.Dinode := ⟨.free, 0, 0, 0, fun _ => 0⟩

/-- The inodes of the image, which have the types `t`, hold the bytes `a`. -/
structure Image (s : State) (t : ℕ → FileType) (a : ℕ → List UInt8) : Prop where
  loc : Local s (inodes s.block) a
  size : ∀ i, (inodes s.block i).size = (a i).length
  type : ∀ i, (inodes s.block i).type = t i
  fresh : ∀ {i}, i = 0 ∨ s.freeinode ≤ i → inodes s.block i = noInode
  alloc : ∀ {i}, 1 ≤ i → i < s.freeinode → t i = .dir ∨ t i = .file
  super : s.block 1 = superblock

section Image

variable {F : String → Prop} {s : State} {t : ℕ → FileType} {a : ℕ → List UInt8} {b : ℕ → ℕ}
  {i : ℕ}

theorem wp_ialloc (h : Image s t a) (hi : s.freeinode < ninodeblocks * IPB) (h0 : 1 ≤ s.freeinode)
    {type : FileType} (htype : type = .dir ∨ type = .file) :
    wp F (ialloc type) (fun inum s' => inum = s.freeinode ∧ s'.freeinode = s.freeinode + 1 ∧
      Image s' (update t s.freeinode type) a) s := by
  have hlt := IBLOCK_lt hi
  rw [wp_ialloc_iff h.loc.laid.nsect (by lia)]
  refine ⟨rfl, rfl, ?_⟩
  have hnew : inodes (update s.block _ _) = _ := inodes_winode hi (newInode type)
  rw [dinode_newInode] at hnew
  have hold : inodes s.block s.freeinode = noInode := h.fresh (.inr le_rfl)
  constructor
  case loc =>
    rw [hnew]
    refine h.loc.congr (fun j k _ => ?_) fun b hb => ?_
    · by_cases hj : j = s.freeinode
      · rw [hj, update_self, hold]
        rfl
      · rw [update_of_ne hj]
    · have hne : b ≠ IBLOCK s.freeinode := by lia
      exact update_of_ne hne ..
  case size =>
    intro j
    simp only [hnew]
    by_cases hj : j = s.freeinode
    · rw [hj, update_self, ← h.size, hold]
      rfl
    · rw [update_of_ne hj, h.size]
  case type =>
    intro j
    simp only [hnew]
    by_cases hj : j = s.freeinode
    · rw [hj, update_self, update_self]
    · rw [update_of_ne hj, update_of_ne hj, h.type]
  case fresh =>
    rintro j (hj : j = 0 ∨ s.freeinode + 1 ≤ j)
    have hne : j ≠ s.freeinode := by omega
    simp only [hnew]
    rw [update_of_ne hne]
    exact h.fresh (by omega)
  case alloc =>
    rintro j hj₀ (hj : j < s.freeinode + 1)
    by_cases hji : j = s.freeinode
    · rw [hji, update_self]
      exact htype
    · rw [update_of_ne hji]
      exact h.alloc hj₀ (by omega)
  case super =>
    exact h.super

/-- **`iappend` appends**, and it returns if there are enough blocks. -/
theorem wp_iappend {p : List UInt8} (h : Image s t a) (hi : i < ninodeblocks * IPB) (h0 : 1 ≤ i)
    (hlt : i < s.freeinode) (hb : ∀ j, (update a i (a i ++ p) j).length ≤ b j)
    (hF : ¬ Enough b → ∀ e, F e) :
    wp F (iappend i p) (fun _ s' => s'.freeinode = s.freeinode ∧
      Image s' t (update a i (a i ++ p))) s := by
  have hblk := IBLOCK_lt hi
  have hdin : inodes s.block i = dinode ((s.block (IBLOCK i)).record (i % IPB)) := if_pos hi
  have hsize : Mkfs.size ((s.block (IBLOCK i)).record (i % IPB)) = (a i).length := by
    rw [← h.size i, hdin]
    rfl
  unfold iappend
  rw [wp_bind, wp_rinode h.loc.laid.nsect hi, wp_bind, hsize]
  refine wp_mono (wp_appendLoop h.loc hi hdin rfl hb hF le_rfl) ?_
  rintro ⟨din, off⟩ s' ⟨rfl, hap⟩
  have hlen : (a i).length + p.length ≤ MAXFILE * BSIZE := by
    have := (hap.loc.holds i).length_le
    rwa [update_self, List.length_append] at this
  have hkept : inodes s'.block = inodes s.block := by
    funext j
    by_cases hj : j < ninodeblocks * IPB
    · have := IBLOCK_lt hj
      rw [inodes, if_pos hj, inodes, if_pos hj]
      simp only [kernel, hap.kept (b := IBLOCK j) (by lia)]
    · rw [inodes, if_neg hj, inodes, if_neg hj]
  have hnew : inodes (update s'.block _ _) = _ :=
    inodes_winode hi (setSize din ((a i).length + p.length))
  rw [dinode_setSize (by lia), hkept] at hnew
  rw [wp_winode hap.loc.laid.nsect (by lia)]
  refine ⟨hap.freeinode, ?_⟩
  have haddrs := hap.addrs
  simp only at haddrs
  constructor
  case loc =>
    simp only [hnew]
    refine hap.loc.congr (fun j k _ => ?_) fun b hb => ?_
    · by_cases hj : j = i
      · rw [hj, update_self, update_self]
      · rw [update_of_ne hj, update_of_ne hj]
    · have hne : b ≠ IBLOCK i := by lia
      exact update_of_ne hne ..
  case size =>
    intro j
    simp only [hnew]
    by_cases hj : j = i
    · rw [hj, update_self, update_self, List.length_append]
    · rw [update_of_ne hj, update_of_ne hj, h.size]
  case type =>
    intro j
    simp only [hnew]
    by_cases hj : j = i
    · rw [hj, update_self, ← h.type i, haddrs]
    · rw [update_of_ne hj, h.type]
  case fresh =>
    rintro j (hj : j = 0 ∨ s'.freeinode ≤ j)
    rw [hap.freeinode] at hj
    have hne : j ≠ i := by omega
    simp only [hnew]
    rw [update_of_ne hne]
    exact h.fresh hj
  case alloc =>
    rintro j hj₀ (hj : j < s'.freeinode)
    exact h.alloc hj₀ (hap.freeinode ▸ hj)
  case super =>
    simp only [update_of_ne (IBLOCK_ne_one i)]
    rw [hap.kept (by decide), h.super]

end Image

end Xv6Mlfq.Mkfs
