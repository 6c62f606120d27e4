import Xv6Mlfq.Mkfs.Append
import Mathlib.Algebra.BigOperators.Group.Finset.Piecewise

/-!
# The kernel reads what `mkfs` has written

`mkfs` allocates inodes and appends to them, in any order and by pieces of any size.  The kernel
then reads the bytes of each inode, in their order, at any offset.  This is so as long as the
inodes are in the inode blocks: `ialloc` of `mkfs` does not check that, and the inodes after these
are written over the data.

## Main definitions

* `session` — calls of `ialloc` and `iappend`, in any order.
* `appended` — the bytes appended to an inode.

## Main results

* `kernel_reads_appended` — `ilock` and `readi` return the bytes appended.
* `inode_overwrites_data` — an inode after the inode blocks is written over the bytes of another.
-/

namespace Xv6Mlfq.Mkfs

open Function (update update_self update_of_ne)
open Ownership (Exclusive)
open Wp (wp wp_mono wp_bind wp_pure wp_modify)
open Blocks hiding balloc ialloc

/-! ## Sessions -/

/-- A call of `ialloc`, for a directory or a file, or of `iappend` -/
inductive Op
  | ialloc (dir : Bool)
  | iappend (inum : ℕ) (p : List UInt8)

def Op.run : Op → MkfsM Unit
  | .ialloc dir => do
      let _ ← Mkfs.ialloc (if dir then .dir else .file)
      pure ()
  | .iappend inum p => Mkfs.iappend inum p

def session : List Op → MkfsM Unit
  | [] => pure ()
  | op :: ops => do
      op.run
      session ops

/-- The bytes that are appended to inode `i` -/
def appended (i : ℕ) : List Op → List UInt8
  | [] => []
  | .ialloc _ :: ops => appended i ops
  | .iappend j p :: ops => (if j = i then p else []) ++ appended i ops

/-- The number of inodes that are allocated -/
def allocs : List Op → ℕ
  | [] => 0
  | .ialloc _ :: ops => allocs ops + 1
  | .iappend _ _ :: ops => allocs ops

/-- Bytes are appended only to inodes that have been allocated; the next one is `n`. -/
def Scoped (n : ℕ) : List Op → Prop
  | [] => True
  | .ialloc _ :: ops => Scoped (n + 1) ops
  | .iappend i _ :: ops => 1 ≤ i ∧ i < n ∧ Scoped n ops

/-! ## The empty image -/

def blank : State := ⟨update (fun _ => zeroes) 1 superblock, FSSIZE, 1, nmeta⟩

section Blank

variable {F : String → Prop}

theorem wp_wipe {n : ℕ} (hn : n ≤ FSSIZE) :
    wp F (wipe n) (fun _ s' => s' = { init with nsect := n }) init := by
  induction n with
  | zero => exact wp_pure.mpr rfl
  | succ n ih =>
    rw [wipe, wp_bind]
    refine wp_mono (ih (Nat.le_of_succ_le hn)) ?_
    rintro _ s' rfl
    unfold wsect
    rw [wp_modify, sector_eq (by lia)]
    have hblock : update init.block n zeroes = init.block := Function.update_eq_self ..
    have hmax : max n (n + 1) = n + 1 := Nat.max_eq_right (Nat.le_succ n)
    simp only [hblock, hmax]

theorem wp_format : wp F format (fun _ s' => s' = blank) init := by
  unfold format
  rw [wp_bind]
  refine wp_mono (wp_wipe le_rfl) ?_
  rintro _ s' rfl
  rw [wp_wsect (s := { init with nsect := FSSIZE }) rfl (by norm_num)]
  rfl

theorem inodes_blank (i : ℕ) : inodes blank.block i = noInode := by
  unfold inodes
  by_cases hi : i < ninodeblocks * IPB
  · rw [if_pos hi]
    simp only [kernel, blank, update_of_ne (IBLOCK_ne_one i).symm]
    have haddr : (fun k => if k ≤ NDIRECT then addr (zeroes.record (i % IPB)) k else 0) =
        fun _ => 0 :=
      funext fun k => ite_self 0
    unfold dinode
    rw [haddr]
    rfl
  · rw [if_neg hi]
    rfl

theorem holds_nil (d : Blocks.Disk) : Holds d noInode [] := by
  have hnone : ∀ k ≤ NDIRECT, noInode.addrs k = 0 := fun _ _ => rfl
  refine ⟨fun {q} _ => ?_, ?_, fun {x} hx => ?_, Nat.zero_le _⟩
  · exact iff_of_false (not_not.mpr (place_none hnone _)) (Nat.not_lt_zero q)
  · exact iff_of_false (not_not.mpr rfl) (Nat.not_lt_zero _)
  · exact absurd hx (Nat.not_lt_zero x)

theorem image_blank : Image blank (fun _ => .free) fun _ => [] := by
  have hinodes : inodes blank.block = fun _ => noInode := funext inodes_blank
  have hcells (x : ℕ × ℕ) : cells (disk blank) (fun _ => noInode) x = 0 :=
    place_none (fun _ _ => rfl) _
  have hlo : sb.nmeta = nmeta := rfl
  have hexcl : Exclusive sb.nmeta sb.size (disk blank).used
      (cells (disk blank) fun _ => noInode) := by
    refine ⟨by norm_num [hlo], fun {x} h => absurd (hcells x) h, fun {x} h => absurd (hcells x) h,
      fun {x _} h => absurd (hcells x) h, fun {b} hb => decide_eq_true hb, fun {b} hb _ => ?_⟩
    refine iff_of_false (fun hu => absurd (of_decide_eq_true hu) (not_lt_of_ge hb)) ?_
    rintro ⟨x, hx⟩
    rw [hcells] at hx
    rw [← hx] at hb
    exact absurd hb (by norm_num [hlo])
  constructor
  case loc =>
    rw [hinodes]
    refine ⟨⟨rfl, by norm_num [blank], fun {b} (hb : nmeta ≤ b) => ?_, hexcl⟩,
      fun _ => holds_nil _, ?_⟩
    · have hne : b ≠ 1 := by lia
      show update (fun _ => zeroes) 1 superblock b = zeroes
      rw [update_of_ne hne]
    · have hnil : blocksOf ([] : List UInt8).length = 0 := rfl
      simp only [hnil, Finset.sum_const_zero]
      rfl
  case size => exact fun i => by rw [hinodes]; rfl
  case type => exact fun i => by rw [hinodes]; rfl
  case fresh => exact fun _ => by rw [hinodes]
  case alloc => exact fun {i} h₀ (h : i < 1) => by omega
  case super => exact update_self (1 : ℕ) superblock fun _ => zeroes

end Blank

/-! ## Runs of `mkfs` -/

section Session

variable {F : String → Prop} {s : State} {t : ℕ → FileType} {a : ℕ → List UInt8} {b : ℕ → ℕ}

theorem wp_session {ops : List Op} {n : ℕ} (h : Image s t a) (hn : s.freeinode = n) (h1 : 1 ≤ n)
    (hs : Scoped n ops) (hk : n + allocs ops ≤ ninodeblocks * IPB)
    (hb : ∀ j, (a j ++ appended j ops).length ≤ b j) (hF : ¬ Enough b → ∀ e, F e) :
    wp F (session ops) (fun _ s' => s'.freeinode = n + allocs ops ∧
      ∃ t', Image s' t' fun i => a i ++ appended i ops) s := by
  induction ops generalizing s t a n with
  | nil =>
    refine wp_pure.mpr ⟨hn, t, ?_⟩
    simp only [appended, List.append_nil]
    exact h
  | cons op ops ih =>
    rw [session, wp_bind]
    cases op with
    | ialloc dir =>
      simp only [allocs, Scoped, appended] at hs hk hb ⊢
      have htype : (if dir then FileType.dir else .file) = .dir ∨
          (if dir then FileType.dir else .file) = .file := by
        cases dir
        · exact .inr rfl
        · exact .inl rfl
      unfold Op.run
      rw [wp_bind]
      refine wp_mono (wp_ialloc h (by omega) (by omega) htype) ?_
      rintro _ s' ⟨-, hs', himg⟩
      rw [wp_pure]
      have := ih himg (hs'.trans (by rw [hn])) (by omega) hs (by omega) hb
      rwa [Nat.add_assoc, Nat.add_comm 1] at this
    | iappend i p =>
      simp only [allocs, Scoped, appended] at hs hk hb ⊢
      obtain ⟨hi, hlt, hs⟩ := hs
      have hsame (j : ℕ) : update a i (a i ++ p) j ++ appended j ops =
          a j ++ ((if i = j then p else []) ++ appended j ops) := by
        by_cases hj : j = i
        · rw [hj, update_self, if_pos rfl, List.append_assoc]
        · rw [update_of_ne hj, if_neg (Ne.symm hj), List.nil_append]
      have hb' (j : ℕ) : (update a i (a i ++ p) j).length ≤ b j := by
        have := hb j
        rw [← hsame, List.length_append] at this
        omega
      refine wp_mono (wp_iappend h (by omega) hi (by omega) hb' hF) ?_
      rintro _ s' ⟨hs', himg⟩
      have := ih himg (hs'.trans hn) h1 hs hk fun j => by rw [hsame]; exact hb j
      simpa only [hsame] using this

/-- `mkfs` up to some point: it has called `ialloc` and `iappend`. -/
def build (ops : List Op) : MkfsM Unit := do
  format
  session ops

theorem wp_build {ops : List Op} (hs : Scoped 1 ops) (hk : allocs ops < ninodeblocks * IPB)
    (hb : ∀ j, (appended j ops).length ≤ b j) (hF : ¬ Enough b → ∀ e, F e) :
    wp F (build ops) (fun _ s' => s'.freeinode = 1 + allocs ops ∧
      ∃ t', Image s' t' fun i => appended i ops) init := by
  unfold build
  rw [wp_bind]
  refine wp_mono wp_format ?_
  rintro _ s rfl
  exact wp_session image_blank rfl le_rfl hs (by omega) hb hF

end Session

/-! ## The kernel -/

section Kernel

variable {s : State} {t : ℕ → FileType} {a : ℕ → List UInt8} {i : ℕ}

theorem map_getD_range {c : List UInt8} {off n : ℕ} :
    (List.range (min n (c.length - off))).map (fun k => c.getD (off + k) 0) =
      (c.drop off).take n := by
  refine List.ext_getElem ?_ fun k h₁ h₂ => ?_
  · simp
  · simp only [List.length_map, List.length_range] at h₁
    rw [List.getElem_map, List.getElem_range, List.getElem_take, List.getElem_drop,
      List.getD_eq_getElem _ _ (by omega)]

/-- What `readi` returns for an inode that holds the bytes `c` -/
theorem readi_eq {d : Blocks.Disk} {ip : Blocks.Dinode} {c : List UInt8} {devsw : Devsw} {off n : ℕ}
    (h : Holds d ip c) (hsize : ip.size = c.length) (hdev : ip.type ≠ .dev)
    (hn : n < 2 ^ 32) :
    readi sb devsw ip off n d = .ok
      ((if off ≤ c.length ∧ off + n < 2 ^ 32 then some ((c.drop off).take n) else none, ip),
      d) := by
  have hlen := h.length_le
  have hwp : wp (fun _ => False) (readi sb devsw ip off n) (fun r d' => d' = d ∧ r =
      (if off ≤ c.length ∧ off + n < 2 ^ 32 then some ((c.drop off).take n) else none, ip)) d := by
    unfold readi
    rw [if_neg hdev, hsize]
    by_cases hok : off ≤ c.length ∧ off + n < 2 ^ 32
    · have hcond : ¬ (off > c.length ∨ (off + n) % 2 ^ 32 < off) := by
        rw [Nat.mod_eq_of_lt hok.2]
        omega
      have hmin : (if off + n > c.length then c.length - off else n) = min n (c.length - off) := by
        split_ifs <;> omega
      rw [if_neg hcond, if_pos hok]
      simp only [hmin]
      refine wp_bind.mpr (wp_mono (wp_readLoop le_rfl (by omega) fun x hx hx' => ?_) ?_)
      · refine (h.shape ?_).mpr (lt_nblocks.mpr ?_)
        · lia
        · lia
      · rintro r d' ⟨rfl, rfl⟩
        refine wp_pure.mpr ⟨rfl, ?_⟩
        rw [← map_getD_range]
        refine congrArg (fun l => (some l, ip)) (List.map_congr_left fun k hk => ?_)
        have hk := List.mem_range.mp hk
        exact h.byte ((by omega : off + k < c.length).trans_le (le_nblocks _))
    · rw [if_neg hok, if_pos]
      · exact wp_pure.mpr ⟨rfl, rfl⟩
      · lia
  obtain ⟨r, d', hr, rfl, rfl⟩ := Wp.exists_ok hwp
  exact hr

/-- Inode `i` of the image, as `ilock` and `readi` see it: its bytes are `c`. -/
structure ReadsAs (block : ℕ → Bytes) (i : ℕ) (c : List UInt8) (ip : Blocks.Dinode) : Prop where
  ilock : iload (kernel block) i =
    { kernel block with mem := update (kernel block).mem i (some ip) }
  size : ip.size = c.length
  readi : ∀ {devsw off n}, off < 2 ^ 32 → n < 2 ^ 32 →
    readi sb devsw ip off n (kernel block).disk = .ok
      ((if off ≤ c.length ∧ off + n < 2 ^ 32 then some ((c.drop off).take n) else none, ip),
        (kernel block).disk)

theorem iload_kernel {block : ℕ → Bytes} (h : ((kernel block).dinode i).type ≠ .free) :
    iload (kernel block) i =
      { kernel block with mem := update (kernel block).mem i (some ((kernel block).dinode i)) } :=
  if_neg h

theorem Image.reads (h : Image s t a) (h1 : 1 ≤ i) (hlt : i < s.freeinode)
    (hi : i < ninodeblocks * IPB) : ReadsAs s.block i (a i) ((kernel s.block).dinode i) := by
  have hinode : inodes s.block i = (kernel s.block).dinode i := if_pos hi
  have htype := h.alloc h1 hlt
  rw [← h.type, hinode] at htype
  have hholds : Holds (kernel s.block).disk ((kernel s.block).dinode i) (a i) := by
    rw [← hinode]
    exact (h.loc.holds i).congr rfl (fun _ => rfl) fun _ _ _ => rfl
  have hsize : ((kernel s.block).dinode i).size = (a i).length := by rw [← hinode, h.size]
  refine ⟨iload_kernel ?_, hsize, fun _ => readi_eq hholds hsize ?_⟩
  · rcases htype with ht | ht <;> rw [ht] <;> decide
  · rcases htype with ht | ht <;> rw [ht] <;> decide

end Kernel

/-- **The kernel reads what `mkfs` has written**: whatever is appended, by pieces of any size and in
any order, if the inodes are in the inode blocks and there are enough blocks. -/
theorem kernel_reads_appended {ops : List Op} (hs : Scoped 1 ops)
    (hk : allocs ops < ninodeblocks * IPB) (he : Enough fun i => (appended i ops).length) :
    ∃ s', build ops init = .ok ((), s') ∧
      ∀ i, 1 ≤ i → i ≤ allocs ops → ∃ ip, ReadsAs s'.block i (appended i ops) ip := by
  have hbuild : wp (fun _ => False) (build ops) _ init :=
    wp_build hs hk (fun _ => le_rfl) fun hne => absurd he hne
  obtain ⟨_, s', hok, hfree, t', himg⟩ := Wp.exists_ok hbuild
  exact ⟨s', hok, fun i h1 hle => ⟨_, himg.reads h1 (by omega) (by omega)⟩⟩

/-- A file of three bytes, in two pieces -/
theorem kernel_reads_appended_three :
    ∃ s', build [.ialloc false, .iappend 1 [7, 8], .iappend 1 [9]] init = .ok ((), s') ∧
      ∀ i, 1 ≤ i → i ≤ 1 → ∃ ip, ReadsAs s'.block i
        (appended i [.ialloc false, .iappend 1 [7, 8], .iappend 1 [9]]) ip := by
  refine kernel_reads_appended ⟨by decide, by decide, by decide, by decide, trivial⟩
    (by decide) ⟨?_, ?_⟩
  · intro i
    by_cases hi : 1 = i
    · subst hi
      decide
    · simp [appended, hi]
  · decide +kernel

/-! ## Inodes after the inode blocks -/

section Overrun

variable {F : String → Prop} {s : State}

/-- The inodes before 216 spare the first inode and the first data block. -/
theorem wp_iallocs {k : ℕ} (hn : s.nsect = FSSIZE) (h2 : 2 ≤ s.freeinode)
    (hk : s.freeinode + k ≤ 216) :
    wp F (session (List.replicate k (.ialloc false))) (fun _ s' => s'.nsect = FSSIZE ∧
      s'.freeinode = s.freeinode + k ∧ (kernel s'.block).dinode 1 = (kernel s.block).dinode 1 ∧
      s'.block nmeta = s.block nmeta) s := by
  induction k generalizing s with
  | zero => exact wp_pure.mpr ⟨hn, rfl, rfl, rfl⟩
  | succ k ih =>
    have hblk : IBLOCK s.freeinode < nmeta := by
      unfold IBLOCK
      lia
    rw [List.replicate_succ, session, wp_bind]
    unfold Op.run
    rw [wp_bind, wp_ialloc_iff hn (by lia), wp_pure]
    refine wp_mono (ih hn (Nat.le_succ_of_le h2) (by simp only; omega)) ?_
    rintro _ s' ⟨hn', hfree, hinode, hdata⟩
    refine ⟨hn', by rw [hfree]; simp only; omega, ?_, ?_⟩
    · rw [hinode, kernel_winode, update_of_ne (by omega)]
    · rw [hdata]
      exact update_of_ne hblk.ne' ..

/-- A file with one byte, and then 215 more files -/
def manyFiles : List Op :=
  [.ialloc false, .iappend 1 [0]] ++ (List.replicate 214 (.ialloc false) ++ [.ialloc false])

theorem session_append (ops ops' : List Op) :
    session (ops ++ ops') = session ops >>= fun _ => session ops' := by
  induction ops with
  | nil => rfl
  | cons op ops ih =>
    rw [List.cons_append, session, session, ih, bind_assoc]

theorem appended_manyFiles (i : ℕ) : appended i manyFiles = if 1 = i then [0] else [] :=
  List.append_nil _

theorem enough_one : Enough fun i => (if 1 = i then [(0 : UInt8)] else []).length := by
  refine ⟨fun i => ?_, by decide +kernel⟩
  split_ifs
  · decide
  · decide

/-- The image after the first file -/
theorem Image.first {t : ℕ → FileType} (h : Image s t fun i => if 1 = i then [0] else []) :
    ((kernel s.block).dinode 1).size = 1 ∧ ((kernel s.block).dinode 1).addrs 0 = nmeta := by
  have hinode : inodes s.block 1 = (kernel s.block).dinode 1 := if_pos (by decide)
  have hcell : cells (disk s) (inodes s.block) (1, 0) = (inodes s.block 1).addrs 0 :=
    place_slot (Nat.zero_le _)
  have h0 : blockAt (disk s) (inodes s.block 1) 0 ≠ 0 :=
    ((h.loc.holds 1).shape (by decide)).mpr (by decide)
  have haddr := h.loc.laid.addr_lt (i := 1) (p := 0) h0
  have hfree : s.freeblock = nmeta + 1 := h.loc.freeblock.trans (by decide +kernel)
  rw [hcell, hinode] at haddr
  exact ⟨by rw [← hinode, h.size]; rfl, by omega⟩

theorem wp_manyFiles : wp F (build manyFiles) (fun _ s' => ((kernel s'.block).dinode 1).size = 1 ∧
    ((kernel s'.block).dinode 1).addrs 0 = nmeta ∧
    (((kernel s'.block).dinode 1).type = .dir ∨ ((kernel s'.block).dinode 1).type = .file) ∧
    s'.block nmeta 0 = 2) init := by
  unfold build manyFiles
  rw [session_append, session_append, wp_bind]
  refine wp_mono wp_format ?_
  rintro _ s rfl
  have hpre : wp F (session [.ialloc false, .iappend 1 [0]]) _ blank :=
    wp_session image_blank rfl le_rfl ⟨by decide, by decide, trivial⟩ (by decide)
      (fun j => le_of_eq (congrArg List.length (List.append_nil _))) fun hne =>
      absurd enough_one hne
  rw [wp_bind]
  refine wp_mono hpre ?_
  rintro _ s₁ ⟨hfree, t, himg⟩
  replace hfree : s₁.freeinode = 2 := hfree
  have himg₁ : Image s₁ t fun i => if 1 = i then [0] else [] := by
    simpa only [appended, List.append_nil, List.nil_append] using himg
  obtain ⟨hsize, haddr⟩ := himg₁.first
  have htype := himg₁.alloc le_rfl (by omega)
  rw [← himg₁.type] at htype
  have hinode : inodes s₁.block 1 = (kernel s₁.block).dinode 1 := if_pos (by decide)
  rw [hinode] at htype
  rw [wp_bind]
  refine wp_mono (wp_iallocs himg₁.loc.laid.nsect hfree.ge (by omega)) ?_
  rintro _ s₂ ⟨hn₂, hfree₂, hinode₂, -⟩
  rw [hfree] at hfree₂
  have hblk : IBLOCK s₂.freeinode = nmeta := by rw [hfree₂]; rfl
  rw [session, wp_bind]
  unfold Op.run
  rw [wp_bind, wp_ialloc_iff hn₂ (by rw [hblk]; decide), wp_pure]
  refine wp_pure.mpr ?_
  have hother (ip : Blocks.Dinode) :
      update (kernel s₂.block).dinode s₂.freeinode ip 1 = (kernel s₁.block).dinode 1 := by
    rw [update_of_ne (by omega), hinode₂]
  rw [kernel_winode, hother]
  refine ⟨hsize, haddr, htype, ?_⟩
  rw [hblk, hfree₂]
  rfl

/-- **Inode 216 is written over the first data block**: the byte of the first file, which was 0, has
become 2. -/
theorem inode_overwrites_data :
    Scoped 1 manyFiles ∧ Enough (fun i => (appended i manyFiles).length) ∧
    appended 1 manyFiles = [0] ∧ ∃ s' ip, build manyFiles init = .ok ((), s') ∧
      (iload (kernel s'.block) 1).mem 1 = some ip ∧ ∀ devsw,
      readi sb devsw ip 0 1 (kernel s'.block).disk =
        .ok ((some [2], ip), (kernel s'.block).disk) := by
  have henough : Enough fun i => (appended i manyFiles).length := by
    simp only [appended_manyFiles]
    exact enough_one
  have hwp : wp (fun _ => False) (build manyFiles) _ init := wp_manyFiles
  obtain ⟨_, s', hok, hsize, haddr, htype, hbyte⟩ := Wp.exists_ok hwp
  have hne : ∀ {ty : FileType}, ty = .dir ∨ ty = .file → ty ≠ .free ∧ ty ≠ .dev := by
    rintro _ (rfl | rfl) <;> decide
  refine ⟨⟨by decide, by decide, trivial⟩, henough, rfl, s', (kernel s'.block).dinode 1, hok, ?_,
    fun devsw => ?_⟩
  · rw [iload_kernel (hne htype).1]
    exact update_self (1 : ℕ) _ (kernel s'.block).mem
  · have hat : blockAt (kernel s'.block).disk ((kernel s'.block).dinode 1) 0 = nmeta := haddr
    have hread : wp (fun _ => False) (readi sb devsw ((kernel s'.block).dinode 1) 0 1)
        (fun r d' => d' = (kernel s'.block).disk ∧ r = (some [2], (kernel s'.block).dinode 1))
        (kernel s'.block).disk := by
      unfold readi
      rw [if_neg (hne htype).2, hsize, if_neg (by decide)]
      refine wp_bind.mpr (wp_mono (wp_readLoop le_rfl (by decide) fun x _ hx => ?_) ?_)
      · obtain rfl : x = 0 := Nat.lt_one_iff.mp hx
        exact ne_of_eq_of_ne hat (by decide)
      · rintro r d' ⟨rfl, rfl⟩
        refine wp_pure.mpr ⟨rfl, congrArg (fun c => (some [c], _)) ?_⟩
        exact (congrArg (fun b => s'.block b 0) hat).trans hbyte
    obtain ⟨r, d', hr, rfl, rfl⟩ := Wp.exists_ok hread
    exact hr

end Overrun

end Xv6Mlfq.Mkfs
