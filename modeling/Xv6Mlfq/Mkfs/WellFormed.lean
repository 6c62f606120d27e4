import Xv6Mlfq.Mkfs.Format
import Mathlib.Data.Nat.Bitwise

/-!
# The images that `mkfs` makes

An image that `mkfs` makes is well-formed if and only if its inodes are in the inode blocks and the
entries of the root directory do not fill its last block.  `main` rounds the size of the root
directory up, by a whole block if its size is a multiple of the block size already; then the
directory has no block for the last positions below its size.  And the first inode after the inode
blocks is in the bitmap, which is written last.

## Main definitions

* `WellFormed` — the blocks of the image are those of its inodes, and the root directory lists the
  arguments.

## Main results

* `mkfs_wellFormed_iff` — which images are well-formed.
* `root_without_block` — with 30 files, the root directory has no block for its second half.
-/

namespace Xv6Mlfq.Mkfs

open Function (update update_self update_of_ne)
open Ownership (Exclusive)
open Wp (wp wp_mono wp_bind wp_pure wp_look wp_throw wp_modify look Moves)
open Blocks hiding balloc ialloc

/-! ## Directories -/

/-- The number and the name of entry `k` in a directory -/
def entryAt (byte : ℕ → UInt8) (k : ℕ) : ℕ × List UInt8 :=
  ((byte (direntSize * k)).toNat + 2 ^ 8 * (byte (direntSize * k + 1)).toNat,
    ((List.range DIRSIZ).map fun j => byte (direntSize * k + 2 + j)).takeWhile (· ≠ 0))

/-- The entries of a directory; those with number 0 are free. -/
def listing (byte : ℕ → UInt8) (size : ℕ) : List (ℕ × List UInt8) :=
  ((List.range (size / direntSize)).map (entryAt byte)).filter (·.1 ≠ 0)

/-- `mkfs` gives the numbers from `k` on to its arguments. -/
def expected (k : ℕ) : List Arg → List (ℕ × List UInt8)
  | [] => []
  | arg :: args => (k, arg.entry.take DIRSIZ) :: expected (k + 1) args

/-- The inodes that the root directory names, and all in the inode blocks -/
def named (block : ℕ → Bytes) (args : List Arg) (i : ℕ) : Blocks.Dinode :=
  if i < args.length + 2 then (kernel block).dinode i else inodes block i

theorem named_eq {block : ℕ → Bytes} {args : List Arg} (h : args.length + 2 ≤ ninodeblocks * IPB) :
    named block args = inodes block := by
  funext i
  unfold named
  split_ifs with hi
  · exact (if_pos (hi.trans_le h)).symm
  · rfl

/-- The image of a file system with these files in the root directory -/
structure WellFormed (block : ℕ → Bytes) (args : List Arg) : Prop where
  superblock : (block 1).word 0 = sb.size ∧ (block 1).word 2 = sb.ninodes ∧
    (block 1).word 5 = inodestart ∧ (block 1).word 6 = sb.bmapstart
  /-- Positions below the size have a block; blocks in use are data blocks, they have one owner
  each, and the bitmap marks them -/
  owned : Owned sb (kernel block).disk (named block args)
  /-- The blocks that the bitmap marks are those below the first one that is not in use -/
  bitmap : ∃ first ≤ FSSIZE, ∀ b < FSSIZE, ((kernel block).disk.used b = true ↔ b < first)
  root : (inodes block ROOTINO).type = .dir
  names : listing (byteAt (kernel block).disk (inodes block ROOTINO)) (inodes block ROOTINO).size =
    (ROOTINO, [46]) :: (ROOTINO, [46, 46]) :: expected 2 args

/-- The bytes of a name in a directory -/
def padded (name : List UInt8) : List UInt8 := (name.take DIRSIZ).rightpad DIRSIZ 0

theorem padded_length (name : List UInt8) : (padded name).length = DIRSIZ := by
  unfold padded
  simp

theorem dirent_eq (inum : ℕ) (name : List UInt8) :
    dirent inum name = inum.toUInt8 :: (inum / 2 ^ 8).toUInt8 :: padded name := rfl

theorem dirent_length (inum : ℕ) (name : List UInt8) : (dirent inum name).length = direntSize := by
  rw [dirent_eq, List.length_cons, List.length_cons, padded_length]

/-- The entries that `mkfs` writes, in their order -/
def entries (k : ℕ) : List Arg → List (ℕ × List UInt8)
  | [] => []
  | arg :: args => (k, arg.entry) :: entries (k + 1) args

/-- The bytes of a directory with these entries -/
def dirBytes : List (ℕ × List UInt8) → List UInt8
  | [] => []
  | e :: es => dirent e.1 e.2 ++ dirBytes es

section Directory

variable {es : List (ℕ × List UInt8)}

theorem dirBytes_length : (dirBytes es).length = direntSize * es.length := by
  induction es with
  | nil => rfl
  | cons e es ih =>
    rw [dirBytes, List.length_append, dirent_length, ih, List.length_cons]
    ring

theorem dirBytes_append (es' : List (ℕ × List UInt8)) :
    dirBytes (es ++ es') = dirBytes es ++ dirBytes es' := by
  induction es with
  | nil => rfl
  | cons e es ih => rw [List.cons_append, dirBytes, dirBytes, ih, List.append_assoc]

theorem takeWhile_pad {name : List UInt8} (h : ∀ c ∈ name, c ≠ 0) (n : ℕ) :
    (name ++ List.replicate n 0).takeWhile (· ≠ 0) = name := by
  rw [List.takeWhile_append_of_pos (by simpa using h)]
  cases n with
  | zero => simp
  | succ n => simp [List.replicate_succ]

/-- An entry is read as it was written. -/
theorem entryAt_dirent {k : ℕ} {name : List UInt8} (hk : k < 2 ^ 16) (hname : ∀ c ∈ name, c ≠ 0) :
    entryAt (fun x => (dirent k name).getD x 0) 0 = (k, name.take DIRSIZ) := by
  have hnum : k.toUInt8.toNat + 2 ^ 8 * (k / 2 ^ 8).toUInt8.toNat = k := by
    simp only [Nat.toUInt8_eq, UInt8.toNat_ofNat']
    lia
  have hbytes : (List.range DIRSIZ).map (fun j => (dirent k name).getD (2 + j) 0) =
      padded name := by
    rw [← padded_length name]
    refine List.ext_getElem (by simp) fun j h₁ h₂ => ?_
    rw [List.getElem_map, List.getElem_range, dirent_eq, Nat.add_comm 2 j, List.getD_cons_succ,
      List.getD_cons_succ, List.getD_eq_getElem _ _ h₂]
  have htake : ∀ c ∈ name.take DIRSIZ, c ≠ 0 := fun c hc => hname c (List.mem_of_mem_take hc)
  unfold entryAt
  simp only [Nat.mul_zero, Nat.zero_add, hbytes]
  exact Prod.ext hnum (takeWhile_pad htake _)

theorem entryAt_succ (byte : ℕ → UInt8) (k : ℕ) :
    entryAt byte (k + 1) = entryAt (fun x => byte (direntSize + x)) k := by
  have hk : direntSize * (k + 1) = direntSize + direntSize * k := by ring
  simp only [entryAt, hk, Nat.add_assoc]

theorem entryAt_congr {byte byte' : ℕ → UInt8} {k : ℕ}
    (h : ∀ x, direntSize * k ≤ x → x < direntSize * (k + 1) → byte x = byte' x) :
    entryAt byte k = entryAt byte' k := by
  have hk : direntSize * (k + 1) = direntSize * k + 16 := Nat.mul_succ ..
  unfold entryAt
  rw [h _ le_rfl (by omega), h (direntSize * k + 1) (by omega) (by omega)]
  refine congrArg (fun l => (_, List.takeWhile _ l)) (List.map_congr_left fun j hj => ?_)
  have hj : j < 14 := List.mem_range.mp hj
  exact h _ (by omega) (by omega)

/-- The entries of a directory -/
theorem map_entryAt (hk : ∀ e ∈ es, e.1 < 2 ^ 16) (hname : ∀ e ∈ es, ∀ c ∈ e.2, c ≠ 0) :
    (List.range es.length).map (entryAt fun x => (dirBytes es).getD x 0) =
      es.map fun e => (e.1, e.2.take DIRSIZ) := by
  induction es with
  | nil => rfl
  | cons e es ih =>
    obtain ⟨he, hk⟩ := List.forall_mem_cons.mp hk
    obtain ⟨hn, hname⟩ := List.forall_mem_cons.mp hname
    have hlen := dirent_length e.1 e.2
    have hhead : entryAt (fun x => (dirBytes (e :: es)).getD x 0) 0 = (e.1, e.2.take DIRSIZ) := by
      rw [← entryAt_dirent he hn]
      refine entryAt_congr fun x _ hx => ?_
      exact List.getD_append _ _ _ _ (by omega)
    have htail : (fun x => (dirBytes (e :: es)).getD (direntSize + x) 0) =
        fun x => (dirBytes es).getD x 0 := by
      funext x
      rw [dirBytes, List.getD_append_right _ _ _ _ (by omega), hlen, Nat.add_sub_cancel_left]
    rw [List.length_cons, List.range_succ_eq_map, List.map_cons, List.map_map, List.map_cons, hhead,
      ← ih hk hname]
    refine congrArg _ (List.map_congr_left fun k _ => ?_)
    rw [Function.comp_apply, entryAt_succ, htail]

end Directory

/-! ## The bitmap -/

theorem bitmap_succ (n : ℕ) : Mkfs.bitmap (n + 1) =
    update (Mkfs.bitmap n) (n / 8) (Mkfs.bitmap n (n / 8) ||| (1 <<< (n % 8)).toUInt8) := by
  unfold Mkfs.bitmap
  rw [List.range_succ, List.foldl_append]
  rfl

theorem mask_toNat (n : ℕ) : (1 <<< (n % 8)).toUInt8.toNat = 2 ^ (n % 8) := by
  have hlt : 2 ^ (n % 8) < 2 ^ 8 := Nat.pow_lt_pow_right (by norm_num) (Nat.mod_lt _ (by norm_num))
  rw [Nat.toUInt8_eq, UInt8.toNat_ofNat', Nat.one_shiftLeft, Nat.mod_eq_of_lt hlt]

/-- The bits that `balloc` sets -/
theorem bit_bitmap (n b : ℕ) : (Mkfs.bitmap n).bit b = decide (b < n) := by
  induction n with
  | zero =>
    rw [decide_eq_false (Nat.not_lt_zero b)]
    exact Nat.zero_testBit _
  | succ n ih =>
    rw [bitmap_succ]
    by_cases hb : b / 8 = n / 8
    · have hmod : n % 8 = b % 8 ↔ b = n := by omega
      rw [Bytes.bit, hb, update_self, UInt8.toNat_or, Nat.testBit_or, mask_toNat,
        Nat.testBit_two_pow, ← hb]
      rw [Bytes.bit] at ih
      rw [ih, ← Bool.decide_or]
      exact decide_eq_decide.mpr (by omega)
    · rw [Bytes.bit, update_of_ne hb]
      rw [Bytes.bit] at ih
      rw [ih]
      exact decide_eq_decide.mpr (by omega)

theorem bitmap_eq_zero {n j : ℕ} (h : n ≤ 8 * j) : Mkfs.bitmap n j = 0 := by
  induction n with
  | zero => rfl
  | succ n ih =>
    have hj : j ≠ n / 8 := by omega
    rw [bitmap_succ, update_of_ne hj, ih (Nat.le_of_succ_le h)]

theorem bitmap_pos {n j : ℕ} (h : 8 * j < n) : 0 < (Mkfs.bitmap n j).toNat := by
  have hbit := bit_bitmap n (8 * j)
  rw [Bytes.bit, Nat.mul_div_cancel_left _ (by norm_num), decide_eq_true h] at hbit
  refine Nat.pos_of_ne_zero fun h0 => ?_
  rw [h0, Nat.zero_testBit] at hbit
  cases hbit

/-- An inode that lies in the bitmap has a size that is too large, or no block for its bytes. -/
theorem not_owned_bitmap {d : Blocks.Disk} {f : ℕ → Blocks.Dinode} {i used : ℕ}
    (hf : f i = dinode ((Mkfs.bitmap used).record 0)) (hused : 8 * 8 < used) : ¬ Owned sb d f := by
  intro ho
  have hbyte (j : ℕ) : (Mkfs.bitmap used).record 0 j = Mkfs.bitmap used j :=
    congrArg _ (Nat.zero_add j)
  have hsize : (f i).size = ((Mkfs.bitmap used).record 0).word 2 := by rw [hf]; rfl
  simp only [Bytes.word, hbyte, Nat.reduceMul, Nat.reduceAdd] at hsize
  have hle : used ≤ 8 * 11 := by
    by_contra hgt
    have hbig := bitmap_pos (not_le.mp hgt)
    have hmax : (f i).size ≤ 71680 := ho.size_le i
    omega
  have haddr : blockAt d (f i) 0 = ((Mkfs.bitmap used).record 0).word 3 := by rw [hf]; rfl
  simp only [Bytes.word, hbyte, Nat.reduceMul, Nat.reduceAdd] at haddr
  rw [bitmap_eq_zero (by omega), bitmap_eq_zero (by omega), bitmap_eq_zero (by omega),
    bitmap_eq_zero (by omega)] at haddr
  have hpos := bitmap_pos hused
  exact (ho.mapped i (by norm_num)).mpr (by omega) haddr

/-! ## The files -/

/-- What is read from a file -/
def Arg.content (arg : Arg) : List UInt8 := ((arg.file.getD []).map Subtype.val).flatten

/-- The contents of the inodes after one more argument, which gets the number `k` -/
def withFile (a : ℕ → List UInt8) (k : ℕ) (arg : Arg) : ℕ → List UInt8 :=
  update (update a ROOTINO (a ROOTINO ++ dirent k arg.entry)) k (a k ++ arg.content)

def withFiles : (ℕ → List UInt8) → ℕ → List Arg → ℕ → List UInt8
  | a, _, [] => a
  | a, k, arg :: args => withFiles (withFile a k arg) (k + 1) args

/-- The host does not complain: no name has a slash, and all files can be opened. -/
def Valid (args : List Arg) : Prop := ∀ arg ∈ args, 47 ∉ arg.name ∧ arg.file.isSome

instance : DecidablePred Valid := fun args =>
  inferInstanceAs (Decidable (∀ arg ∈ args, 47 ∉ arg.name ∧ arg.file.isSome))

section Files

variable {F : String → Prop} {s : State} {t : ℕ → FileType} {a : ℕ → List UInt8} {b : ℕ → ℕ}
  {k : ℕ}

theorem root_ne (hk : 2 ≤ k) : ROOTINO ≠ k := Nat.ne_of_lt hk

theorem withFile_root (arg : Arg) (hk : 2 ≤ k) :
    withFile a k arg ROOTINO = a ROOTINO ++ dirent k arg.entry := by
  rw [withFile, update_of_ne (root_ne hk), update_self]

theorem le_withFile (arg : Arg) (j : ℕ) : (a j).length ≤ (withFile a k arg j).length := by
  unfold withFile
  by_cases hj : j = k
  · rw [hj, update_self, List.length_append]
    omega
  · rw [update_of_ne hj]
    by_cases hj' : j = ROOTINO
    · rw [hj', update_self, List.length_append]
      omega
    · rw [update_of_ne hj']

theorem le_withFiles {args : List Arg} (j : ℕ) :
    (a j).length ≤ (withFiles a k args j).length := by
  induction args generalizing a k with
  | nil => exact le_rfl
  | cons arg args ih => exact (le_withFile arg j).trans ih

theorem withFiles_root {args : List Arg} (hk : 2 ≤ k) :
    withFiles a k args ROOTINO = a ROOTINO ++ dirBytes (entries k args) := by
  induction args generalizing a k with
  | nil => exact (List.append_nil _).symm
  | cons arg args ih =>
    rw [withFiles, ih (Nat.le_succ_of_le hk), withFile_root arg hk, List.append_assoc]
    rfl

theorem wp_appendChunks {i : ℕ} {ps : List Chunk} (h : Image s t a) (hi : i < ninodeblocks * IPB)
    (h0 : 1 ≤ i) (hlt : i < s.freeinode)
    (hb : ∀ j, (update a i (a i ++ (ps.map Subtype.val).flatten) j).length ≤ b j)
    (hF : ¬ Enough b → ∀ e, F e) :
    wp F (appendChunks i ps) (fun _ s' => s'.freeinode = s.freeinode ∧
      Image s' t (update a i (a i ++ (ps.map Subtype.val).flatten))) s := by
  induction ps generalizing s a with
  | nil =>
    refine wp_pure.mpr ⟨rfl, ?_⟩
    simpa using h
  | cons p ps ih =>
    rw [appendChunks, wp_bind]
    have hsame : update (update a i (a i ++ p.1)) i
        (update a i (a i ++ p.1) i ++ (ps.map Subtype.val).flatten) =
          update a i (a i ++ ((p :: ps).map Subtype.val).flatten) := by
      rw [Function.update_idem, update_self, List.append_assoc]
      rfl
    have hb' (j : ℕ) : (update a i (a i ++ p.1) j).length ≤ b j := by
      refine le_trans ?_ (hb j)
      by_cases hj : j = i
      · subst hj
        simp only [update_self, List.map_cons, List.flatten_cons, List.length_append]
        omega
      · rw [update_of_ne hj, update_of_ne hj]
    refine wp_mono (wp_iappend h hi h0 hlt hb' hF) ?_
    rintro _ s' ⟨hs', himg⟩
    have := ih himg (hs' ▸ hlt) fun j => by rw [hsame]; exact hb j
    rwa [hsame, hs'] at this

theorem wp_addFile {arg : Arg} (h : Image s t a) (hk : s.freeinode = k) (h2 : 2 ≤ k)
    (hlt : k < ninodeblocks * IPB) (hb : ∀ j, (withFile a k arg j).length ≤ b j)
    (hF : ¬ ((47 ∉ arg.name ∧ arg.file.isSome) ∧ Enough b) → ∀ e, F e) :
    wp F (addFile ROOTINO arg) (fun _ s' => s'.freeinode = k + 1 ∧
      Image s' (update t k .file) (withFile a k arg)) s := by
  unfold addFile
  by_cases hslash : 47 ∈ arg.name
  · rw [if_pos hslash, wp_throw]
    exact hF (fun hc => hc.1.1 hslash) _
  rw [if_neg hslash]
  cases hfile : arg.file with
  | none =>
    refine wp_throw.mpr (hF (fun hc => ?_) _)
    rw [hfile] at hc
    exact absurd hc.1.2 Bool.false_ne_true
  | some ps =>
    have hF' : ¬ Enough b → ∀ e, F e := fun hne => hF fun hc => hne hc.2
    have hcontent : arg.content = (ps.map Subtype.val).flatten := by
      rw [Arg.content, hfile]
      rfl
    have hne : k ≠ ROOTINO := (root_ne h2).symm
    simp only
    rw [wp_bind]
    refine wp_mono (wp_ialloc h (by omega) (by omega) (.inr rfl)) ?_
    rintro _ s₁ ⟨rfl, hs₁, himg₁⟩
    rw [wp_bind, hk]
    rw [hk] at himg₁ hs₁
    refine wp_mono (wp_iappend (b := b) himg₁ (by norm_num) le_rfl ?_ (fun j => ?_) hF') ?_
    · rw [hs₁]
      exact Nat.lt_succ_of_lt h2
    · refine le_trans ?_ (hb j)
      unfold withFile
      by_cases hj : j = k
      · rw [hj, update_of_ne hne, update_self, List.length_append]
        omega
      · rw [update_of_ne hj]
    rintro _ s₂ ⟨hs₂, himg₂⟩
    have hwith : update (update a ROOTINO (a ROOTINO ++ dirent k arg.entry)) k
        (update a ROOTINO (a ROOTINO ++ dirent k arg.entry) k ++ (ps.map Subtype.val).flatten) =
          withFile a k arg := by
      rw [withFile, update_of_ne hne, hcontent]
    have := wp_appendChunks (F := F) himg₂ hlt (by omega) (by omega)
        (fun j => by rw [hwith]; exact hb j) hF'
    rwa [hwith, hs₂, hs₁] at this

theorem wp_addFiles {args : List Arg} (h : Image s t a) (hk : s.freeinode = k) (h2 : 2 ≤ k)
    (hlt : k + args.length ≤ ninodeblocks * IPB) (ht : t ROOTINO = .dir)
    (hb : ∀ j, (withFiles a k args j).length ≤ b j) (hF : ¬ (Valid args ∧ Enough b) → ∀ e, F e) :
    wp F (addFiles ROOTINO args) (fun _ s' =>
      ∃ t', t' ROOTINO = .dir ∧ Image s' t' (withFiles a k args)) s := by
  induction args generalizing s t a k with
  | nil => exact wp_pure.mpr ⟨t, ht, h⟩
  | cons arg args ih =>
    rw [addFiles, wp_bind]
    rw [List.length_cons] at hlt
    have hF₁ : ¬ ((47 ∉ arg.name ∧ arg.file.isSome) ∧ Enough b) → ∀ e, F e :=
      fun hne => hF fun hc => hne ⟨hc.1 arg List.mem_cons_self, hc.2⟩
    refine wp_mono (wp_addFile h hk h2 (by omega) (fun j => (le_withFiles j).trans (hb j)) hF₁) ?_
    rintro _ s' ⟨hs', himg⟩
    refine ih himg hs' (Nat.le_succ_of_le h2) (by omega) (by rw [update_of_ne (root_ne h2), ht]) hb
      fun hne => hF fun hc => hne ?_
    exact ⟨fun x hx => hc.1 x (List.mem_cons_of_mem _ hx), hc.2⟩

end Files

/-! ## The program -/

/-- The first two entries of the root directory -/
def dots : List (ℕ × List UInt8) := [(ROOTINO, [46]), (ROOTINO, [46, 46])]

/-- The contents of the inodes before the last part of `main` -/
def contents (args : List Arg) : ℕ → List UInt8 :=
  withFiles (update (fun _ => []) ROOTINO (dirBytes dots)) 2 args

/-- The image after the last part of `main`: the size of the root directory is rounded up, and the
bitmap is written. -/
def finish (s : State) : ℕ → Bytes :=
  update (update s.block (IBLOCK ROOTINO) ((s.block (IBLOCK ROOTINO)).setRecord (ROOTINO % IPB)
    (setSize ((s.block (IBLOCK ROOTINO)).record (ROOTINO % IPB))
      (((inodes s.block ROOTINO).size / BSIZE + 1) * BSIZE)))) bmapstart (Mkfs.bitmap s.freeblock)

section Main

variable {F : String → Prop} {s : State} {t : ℕ → FileType} {a : ℕ → List UInt8} {b : ℕ → ℕ}

theorem wp_makeRoot
    (hb : ∀ j, (update (fun _ => []) ROOTINO (dirBytes dots) j : List UInt8).length ≤ b j)
    (hF : ¬ Enough b → ∀ e, F e) :
    wp F makeRoot (fun rootino s' => rootino = ROOTINO ∧ s'.freeinode = 2 ∧
      Image s' (update (fun _ => .free) ROOTINO .dir)
        (update (fun _ => []) ROOTINO (dirBytes dots))) blank := by
  unfold makeRoot
  rw [wp_bind]
  refine wp_mono (wp_ialloc image_blank (by decide) le_rfl (.inl rfl)) ?_
  rintro _ s₁ ⟨rfl, hs₁, himg₁⟩
  have hroot : blank.freeinode = ROOTINO := rfl
  rw [hroot] at himg₁ hs₁ ⊢
  rw [if_pos rfl, wp_bind]
  refine wp_mono (wp_iappend (b := b) himg₁ (by decide) le_rfl (by omega) (fun j => ?_) hF) ?_
  · refine le_trans ?_ (hb j)
    by_cases hj : j = ROOTINO
    · rw [hj, update_self, update_self]
      decide
    · rw [update_of_ne hj, update_of_ne hj]
  rintro _ s₂ ⟨hs₂, himg₂⟩
  rw [List.nil_append] at himg₂
  have hdots : update (update (fun _ => []) ROOTINO (dirent ROOTINO [46])) ROOTINO
      (update (fun _ => []) ROOTINO (dirent ROOTINO [46]) ROOTINO ++ dirent ROOTINO [46, 46]) =
        (update (fun _ => []) ROOTINO (dirBytes dots) : ℕ → List UInt8) := by
    rw [Function.update_idem, update_self]
    rfl
  rw [wp_bind]
  refine wp_mono (wp_iappend (b := b) himg₂ (by decide) le_rfl (by omega) ?_ hF) ?_
  · rw [hdots]
    exact hb
  rintro _ s₃ ⟨hs₃, himg₃⟩
  rw [hdots] at himg₃
  exact wp_pure.mpr ⟨rfl, by rw [hs₃, hs₂, hs₁], himg₃⟩

theorem wp_finish (h : Laid s (inodes s.block)) :
    wp F (do
      fixRoot ROOTINO
      let used ← look (·.freeblock)
      balloc used) (fun _ s' => s'.block = finish s) s := by
  have hroot : inodes s.block ROOTINO =
      dinode ((s.block (IBLOCK ROOTINO)).record (ROOTINO % IPB)) := if_pos (by decide)
  have hle := h.le
  unfold fixRoot balloc
  rw [wp_bind, wp_bind, wp_rinode h.nsect (by decide), wp_winode h.nsect (by decide),
    wp_bind, wp_look, if_pos (by lia)]
  have hn : ∀ block : ℕ → Bytes, State.nsect { s with block := block } = FSSIZE := fun _ => h.nsect
  rw [wp_wsect (hn _) (by decide), finish, hroot]
  rfl

variable {args : List Arg} {block : ℕ → Bytes}

theorem wp_main (hn : args.length + 2 ≤ ninodeblocks * IPB)
    (hF : ¬ (Valid args ∧ Enough fun j => (contents args j).length) → ∀ e, F e) :
    wp F (main args) (fun _ s' => ∃ s t, t ROOTINO = .dir ∧ Image s t (contents args) ∧
      s'.block = finish s) init := by
  unfold main
  rw [wp_bind]
  refine wp_mono wp_format ?_
  rintro _ s rfl
  rw [wp_bind]
  refine wp_mono (wp_makeRoot le_withFiles fun hne => hF fun hc => hne hc.2) ?_
  rintro _ s₁ ⟨rfl, hs₁, himg₁⟩
  rw [wp_bind]
  refine wp_mono (wp_addFiles himg₁ hs₁ le_rfl (by omega) (update_self ..) (fun _ => le_rfl) hF) ?_
  rintro _ s₂ ⟨t, ht, himg⟩
  exact wp_mono (wp_finish himg.loc.laid) fun _ s' hs' => ⟨s₂, t, ht, himg, hs'⟩

/-! ### The last part of `main` -/

theorem inodes_finish (h : Image s t a) (hsize : (a ROOTINO).length < 2 ^ 31) :
    inodes (finish s) = update (inodes s.block) ROOTINO { inodes s.block ROOTINO with
      size := ((a ROOTINO).length / BSIZE + 1) * BSIZE } := by
  have hroot : inodes s.block ROOTINO =
      dinode ((s.block (IBLOCK ROOTINO)).record (ROOTINO % IPB)) := if_pos (by decide)
  rw [finish, inodes_data le_rfl, inodes_winode (by decide), h.size, dinode_setSize, hroot]
  lia

theorem finish_data {b : ℕ} (hb : nmeta ≤ b) : finish s b = s.block b := by
  have h₁ : b ≠ bmapstart := by lia
  have h₂ : b ≠ IBLOCK ROOTINO := by
    have : IBLOCK ROOTINO = 32 := rfl
    lia
  rw [finish, update_of_ne h₁, update_of_ne h₂]

theorem finish_super : finish s 1 = s.block 1 := by
  have h₁ : (1 : ℕ) ≠ bmapstart := by decide
  have h₂ : 1 ≠ IBLOCK ROOTINO := by decide
  rw [finish, update_of_ne h₁, update_of_ne h₂]

theorem finish_used {b : ℕ} (hb : b < FSSIZE) :
    (kernel (finish s)).disk.used b = decide (b < s.freeblock) := by
  have hdiv : bmapstart + b / BPB = bmapstart := by lia
  have hmod : b % BPB = b := Nat.mod_eq_of_lt (by lia)
  simp only [kernel, hdiv, hmod]
  rw [finish, update_self, bit_bitmap]

/-- The inodes hold the same bytes, and the bitmap marks the blocks that have been handed out. -/
theorem Image.finish (h : Image s t a) (hsize : (a ROOTINO).length < 2 ^ 31) :
    Exclusive sb.nmeta sb.size (kernel (finish s)).disk.used
        (cells (kernel (finish s)).disk (inodes (finish s))) ∧
      ∀ i, Holds (kernel (finish s)).disk (inodes (finish s) i) (a i) := by
  have hloc : Local { s with block := Mkfs.finish s, freeinode := s.freeinode }
      (inodes (Mkfs.finish s)) a := by
    refine h.loc.congr (fun j k _ => ?_) fun b hb => finish_data hb
    rw [inodes_finish h hsize]
    by_cases hj : j = ROOTINO
    · rw [hj, update_self]
    · rw [update_of_ne hj]
  refine ⟨hloc.laid.excl.congr (by decide) fun b hb => finish_used hb, fun i => ?_⟩
  exact (hloc.holds i).congr rfl (fun _ => rfl) fun _ _ _ => rfl

theorem contents_root (args : List Arg) :
    contents args ROOTINO = dirBytes (dots ++ entries 2 args) := by
  rw [contents, withFiles_root le_rfl, update_self, dirBytes_append]

theorem entries_length (k : ℕ) (args : List Arg) : (entries k args).length = args.length := by
  induction args generalizing k with
  | nil => rfl
  | cons arg args ih => rw [entries, List.length_cons, ih, List.length_cons]

theorem entries_expected (k : ℕ) (args : List Arg) :
    (entries k args).map (fun e => (e.1, e.2.take DIRSIZ)) = expected k args := by
  induction args generalizing k with
  | nil => rfl
  | cons arg args ih => rw [entries, List.map_cons, ih, expected]

theorem entries_mem {k : ℕ} {e : ℕ × List UInt8} (he : e ∈ entries k args) :
    (k ≤ e.1 ∧ e.1 < k + args.length) ∧ ∀ c ∈ e.2, c ≠ 0 := by
  induction args generalizing k with
  | nil => cases he
  | cons arg args ih =>
    rw [List.length_cons]
    cases he with
    | head =>
      refine ⟨⟨le_rfl, by omega⟩, fun c hc => arg.ne_nul c ?_⟩
      unfold Arg.entry at hc
      split_ifs at hc
      · exact List.mem_of_mem_tail hc
      · exact hc
    | tail _ he =>
      obtain ⟨hk, hname⟩ := ih he
      exact ⟨by omega, hname⟩

/-- The root directory before its size is rounded up -/
theorem contents_root_length (args : List Arg) :
    (contents args ROOTINO).length = direntSize * (args.length + 2) := by
  rw [contents_root, dirBytes_length, List.length_append, entries_length, Nat.add_comm]
  rfl

/-- The listing of a directory that is filled up with zeros -/
theorem listing_eq {es : List (ℕ × List UInt8)} {byte : ℕ → UInt8} {size : ℕ}
    (hbyte : ∀ x < size, byte x = (dirBytes es).getD x 0) (hsize : direntSize * es.length ≤ size)
    (hk : ∀ e ∈ es, 1 ≤ e.1 ∧ e.1 < 2 ^ 16) (hname : ∀ e ∈ es, ∀ c ∈ e.2, c ≠ 0) :
    listing byte size = es.map fun e => (e.1, e.2.take DIRSIZ) := by
  have hlt : ∀ k < size / direntSize, ∀ x < direntSize * (k + 1), x < size := by
    intro k hk x hx
    lia
  have hmap : (List.range (size / direntSize)).map (entryAt byte) =
      (List.range (size / direntSize)).map (entryAt fun x => (dirBytes es).getD x 0) := by
    refine List.map_congr_left fun k hk => entryAt_congr fun x _ hx => hbyte x ?_
    exact hlt k (List.mem_range.mp hk) x hx
  obtain ⟨z, hz⟩ : ∃ z, size / direntSize = es.length + z := by
    refine ⟨size / direntSize - es.length, ?_⟩
    lia
  rw [listing, hmap, hz, List.range_add, List.map_append, List.filter_append,
    map_entryAt (fun e he => (hk e he).2) hname]
  have hfirst : (es.map fun e => (e.1, e.2.take DIRSIZ)).filter (·.1 ≠ 0) =
      es.map fun e => (e.1, e.2.take DIRSIZ) := by
    refine List.filter_eq_self.mpr fun x hx => ?_
    obtain ⟨e, he, rfl⟩ := List.mem_map.mp hx
    exact decide_eq_true (Nat.one_le_iff_ne_zero.mp (hk e he).1)
  have hrest : (((List.range z).map (es.length + ·)).map
      (entryAt fun x => (dirBytes es).getD x 0)).filter (·.1 ≠ 0) = [] := by
    refine List.filter_eq_nil_iff.mpr fun x hx => ?_
    obtain ⟨k, hk, rfl⟩ := List.mem_map.mp hx
    obtain ⟨j, -, rfl⟩ := List.mem_map.mp hk
    have hout (c : ℕ) : (dirBytes es).getD (direntSize * (es.length + j) + c) 0 = 0 := by
      refine List.getD_eq_default _ _ ?_
      rw [dirBytes_length, Nat.mul_add]
      omega
    have h0 := hout 0
    rw [Nat.add_zero] at h0
    simp only [entryAt, hout, h0]
    decide
  rw [hfirst, hrest, List.append_nil]

/-- An empty file -/
def emptyFile (c : UInt8) (h : c ≠ 0) : Arg := ⟨[c], by simpa using h, some []⟩

/-- Thirty empty files with names of one letter -/
def thirtyFiles : List Arg :=
  (List.finRange 30).map fun k => emptyFile (65 + k.val.toUInt8) (by revert k; decide)

theorem mkfs_total (args : List Arg) (hn : args.length + 2 ≤ ninodeblocks * IPB) (hv : Valid args)
    (he : Enough fun j => (contents args j).length) :
    ∃ s t, t ROOTINO = .dir ∧ Image s t (contents args) ∧ mkfs args = .ok (finish s) := by
  have hwp : wp (fun _ => False) (main args) _ init := wp_main hn fun hne => absurd ⟨hv, he⟩ hne
  obtain ⟨_, s', hrun, s, t, ht, himg, hs'⟩ := Wp.exists_ok hwp
  refine ⟨s, t, ht, himg, ?_⟩
  rw [mkfs, hrun, ← hs']
  rfl

theorem withFiles_empty (h : ∀ arg ∈ args, arg.content = []) {a : ℕ → List UInt8}
    {j : ℕ} (hj : j ≠ ROOTINO) (k : ℕ) : withFiles a k args j = a j := by
  induction args generalizing a k with
  | nil => rfl
  | cons arg args ih =>
    obtain ⟨harg, hargs⟩ := List.forall_mem_cons.mp h
    rw [withFiles, ih hargs, withFile, harg, List.append_nil]
    by_cases hjk : j = k
    · rw [hjk, update_self]
    · rw [update_of_ne hjk, update_of_ne hj]

/-- Empty files need only the blocks of the root directory. -/
theorem enough_of_empty (h : ∀ arg ∈ args, arg.content = [])
    (hn : args.length + 2 ≤ ninodeblocks * IPB) : Enough fun j => (contents args j).length := by
  have hother : ∀ j ≠ ROOTINO, (contents args j).length = 0 := by
    intro j hj
    rw [contents, withFiles_empty h hj, update_of_ne hj]
    rfl
  have hroot := contents_root_length args
  constructor
  case size_le =>
    intro j
    by_cases hj : j = ROOTINO
    · rw [hj, hroot]
      lia
    · rw [hother j hj]
      exact Nat.zero_le _
  case blocks_le =>
    have hmem : ROOTINO ∈ Finset.range (ninodeblocks * IPB) := by decide
    rw [Finset.sum_eq_single_of_mem ROOTINO hmem fun j _ hj => by rw [hother j hj]; rfl, hroot]
    refine (Nat.add_le_add_left (blocksOf_mono (Nat.mul_le_mul_left direntSize hn)) _).trans ?_
    decide

theorem mkfs_ok (h : mkfs args = .ok block) :
    ∃ s, main args init = .ok ((), s) ∧ s.block = block := by
  unfold mkfs at h
  cases hrun : main args init with
  | error e =>
    rw [hrun] at h
    cases h
  | ok r =>
    rw [hrun] at h
    exact ⟨r.2, rfl, Except.ok.inj h⟩

/-- The image, if the inodes are in the inode blocks -/
theorem image_of_ok (hok : mkfs args = .ok block) (hn : args.length + 2 ≤ ninodeblocks * IPB) :
    ∃ s t, t ROOTINO = .dir ∧ Image s t (contents args) ∧ block = finish s := by
  obtain ⟨s, hrun, rfl⟩ := mkfs_ok hok
  exact Wp.wp_ok (wp_main (F := fun _ => True) hn fun _ _ => trivial) hrun

theorem contents_root_lt (hn : args.length + 2 ≤ ninodeblocks * IPB) :
    (contents args ROOTINO).length < 2 ^ 31 := by
  rw [contents_root_length]
  lia

/-- The image is well-formed, if its inodes are in the inode blocks and the entries of the root
directory do not fill its last block. -/
theorem wellFormed_of_fits (hok : mkfs args = .ok block) (hn : args.length + 2 ≤ ninodeblocks * IPB)
    (hroot : (args.length + 2) % (BSIZE / direntSize) ≠ 0) : WellFormed block args := by
  obtain ⟨s, t, ht, himg, rfl⟩ := image_of_ok hok hn
  have hlen := contents_root_length args
  have hsize := contents_root_lt hn
  obtain ⟨hexcl, hholds⟩ := himg.finish hsize
  have hinodes := inodes_finish himg hsize
  have hblocks : nblocks (contents args ROOTINO).length =
      (contents args ROOTINO).length / BSIZE + 1 := by
    rw [hlen]
    unfold nblocks
    lia
  have hrootSize : (inodes (finish s) ROOTINO).size =
      ((contents args ROOTINO).length / BSIZE + 1) * BSIZE := by
    rw [hinodes, update_self]
  have hother {i : ℕ} (hi : i ≠ ROOTINO) : inodes (finish s) i = inodes s.block i := by
    rw [hinodes, update_of_ne hi]
  have hrootType : (inodes (finish s) ROOTINO).type = .dir := by
    rw [hinodes, update_self, ← ht, ← himg.type]
  constructor
  case superblock =>
    rw [finish_super, himg.super]
    decide
  case owned =>
    rw [named_eq hn]
    refine ⟨hexcl, fun i {q} hq => ?_, fun i => ?_, fun {i} hi => ?_⟩
    · rw [(hholds i).shape hq]
      by_cases hi : i = ROOTINO
      · rw [hi, hrootSize, hblocks]
        exact (Nat.mul_lt_mul_right (by norm_num)).symm
      · rw [hother hi, himg.size, lt_nblocks]
    · by_cases hi : i = ROOTINO
      · rw [hi, hrootSize, hlen]
        lia
      · rw [hother hi, himg.size]
        exact (hholds i).length_le
    · have hne : i ≠ ROOTINO := by
        rintro rfl
        rw [hrootType] at hi
        cases hi
      rw [hother hne, himg.type] at hi
      have hnone : i = 0 ∨ s.freeinode ≤ i := by
        by_contra hc
        rcases himg.alloc (i := i) (by omega) (by omega) with h | h
        · rw [h] at hi
          cases hi
        · rw [h] at hi
          cases hi
      rw [hother hne, himg.fresh hnone]
      exact ⟨rfl, fun _ _ => rfl⟩
  case bitmap =>
    refine ⟨s.freeblock, himg.loc.laid.le, fun b hb => ?_⟩
    rw [finish_used hb, decide_eq_true_iff]
  case root => exact hrootType
  case names =>
    have hdots : ∀ e ∈ dots, (1 ≤ e.1 ∧ e.1 < 2 ^ 16) ∧ ∀ c ∈ e.2, c ≠ 0 := by simp [dots]
    have hall : ∀ e ∈ dots ++ entries 2 args, (1 ≤ e.1 ∧ e.1 < 2 ^ 16) ∧ ∀ c ∈ e.2, c ≠ 0 := by
      intro e he
      rcases List.mem_append.mp he with he | he
      · exact hdots e he
      · obtain ⟨hk, hname⟩ := entries_mem he
        refine ⟨?_, hname⟩
        lia
    have hlist : listing (byteAt (kernel (finish s)).disk (inodes (finish s) ROOTINO))
        (inodes (finish s) ROOTINO).size =
          (dots ++ entries 2 args).map fun e => (e.1, e.2.take DIRSIZ) := by
      refine listing_eq (fun x hx => ?_) ?_ (fun e he => (hall e he).1) fun e he => (hall e he).2
      · rw [hrootSize, ← hblocks] at hx
        rw [(hholds ROOTINO).byte hx, contents_root]
      · rw [hrootSize, ← dirBytes_length, ← contents_root]
        lia
    rw [hlist, List.map_append, entries_expected]
    rfl

/-- A root directory whose entries fill its last block gets a size of one block more. -/
theorem root_unmapped (hok : mkfs args = .ok block) (hn : args.length + 2 ≤ ninodeblocks * IPB)
    (hroot : (args.length + 2) % (BSIZE / direntSize) = 0) :
    (inodes block ROOTINO).size = ((args.length + 2) / 32 + 1) * BSIZE ∧
      blockAt (kernel block).disk (inodes block ROOTINO) ((args.length + 2) / 32) = 0 := by
  obtain ⟨s, t, -, himg, rfl⟩ := image_of_ok hok hn
  have hlen := contents_root_length args
  have hsize := contents_root_lt hn
  constructor
  · rw [inodes_finish himg hsize, update_self, hlen]
    lia
  · refine not_not.mp fun hne => ?_
    have hlt := (((himg.finish hsize).2 ROOTINO).shape (by lia)).mp hne
    rw [hlen, lt_nblocks] at hlt
    lia

/-! ## Too many files

The inodes after the inode blocks are in the bitmap, and in data blocks.  Whatever comes of that, no
block is taken back, and the bitmap is written last. -/

/-- `freeblock` does not decrease. -/
abbrev Advances {α : Type} (m : MkfsM α) : Prop := Moves (· ≤ ·) State.freeblock m

namespace Advances

theorem wsect (sec : ℕ) (buf : Bytes) : Advances (wsect sec buf) := .modify fun _ => le_rfl

theorem rsect (sec : ℕ) : Advances (rsect sec) :=
  (Moves.look _).bind fun _ => .ite (.look _) (.throw _)

theorem winode (inum : ℕ) (ip : Bytes) : Advances (winode inum ip) :=
  (rsect _).bind fun _ => wsect _ _

theorem rinode (inum : ℕ) : Advances (rinode inum) := (rsect _).bind fun _ => .pure _

theorem ialloc (type : FileType) : Advances (ialloc type) := by
  refine (Moves.look _).bind fun _ => (Moves.modify ?_).bind fun _ =>
    (winode _ _).bind fun _ => .pure _
  exact fun _ => le_rfl

theorem takeBlock : Advances takeBlock := by
  refine (Moves.look _).bind fun _ => (Moves.modify ?_).bind fun _ => .pure _
  exact fun s => Nat.le_succ s.freeblock

theorem slot (din : Bytes) (k : ℕ) : Advances (slot din k) :=
  .ite (takeBlock.bind fun _ => .pure _) (.pure _)

theorem word (ind j : ℕ) : Advances (word ind j) :=
  (rsect _).bind fun _ => .ite (takeBlock.bind fun _ => (wsect _ _).bind fun _ => .pure _) (.pure _)

theorem locate (din : Bytes) (fbn : ℕ) : Advances (locate din fbn) :=
  .ite ((slot _ _).bind fun _ => .pure _)
    ((slot _ _).bind fun _ => (word _ _).bind fun _ => .pure _)

theorem store (x off : ℕ) (p : List UInt8) : Advances (store x off p) :=
  (rsect _).bind fun _ => wsect _ _

theorem appendLoop (fuel : ℕ) (din : Bytes) (off : ℕ) (p : List UInt8) :
    Advances (appendLoop fuel din off p) := by
  induction fuel generalizing din off p with
  | zero => exact .pure _
  | succ fuel ih =>
    refine Moves.ite (.ite ((locate _ _).bind fun _ => ?_) (.throw _)) (.pure _)
    exact (store _ _ _).bind fun _ => ih _ _ _

theorem iappend (inum : ℕ) (p : List UInt8) : Advances (iappend inum p) :=
  (rinode _).bind fun _ => (appendLoop _ _ _ _).bind fun _ => winode _ _

theorem appendChunks (inum : ℕ) (ps : List Chunk) : Advances (appendChunks inum ps) := by
  induction ps with
  | nil => exact .pure _
  | cons p ps ih => exact (iappend _ _).bind fun _ => ih

theorem addFile (rootino : ℕ) (arg : Arg) : Advances (addFile rootino arg) := by
  unfold Mkfs.addFile
  refine Moves.ite (.throw _) ?_
  cases arg.file with
  | none => exact .throw _
  | some ps =>
    exact (ialloc _).bind fun _ => (iappend _ _).bind fun _ => appendChunks _ _

theorem addFiles (rootino : ℕ) (args : List Arg) : Advances (addFiles rootino args) := by
  induction args with
  | nil => exact .pure _
  | cons arg args ih => exact (addFile _ _).bind fun _ => ih

theorem fixRoot (rootino : ℕ) : Advances (fixRoot rootino) := (rinode _).bind fun _ => winode _ _

end Advances

theorem addFiles_append (rootino : ℕ) (args args' : List Arg) : addFiles rootino (args ++ args') =
    addFiles rootino args >>= fun _ => addFiles rootino args' := by
  induction args with
  | nil => rfl
  | cons arg args ih => rw [List.cons_append, addFiles, addFiles, ih, bind_assoc]

/-- The root directory of 206 files has seven blocks. -/
theorem Image.many (h : Image s t (contents args)) (hn : args.length = 206) :
    nmeta + 7 ≤ s.freeblock := by
  have hmem : ROOTINO ∈ Finset.range (ninodeblocks * IPB) := by decide
  have hle := Finset.single_le_sum (f := fun i => blocksOf (contents args i).length)
    (fun _ _ => Nat.zero_le _) hmem
  rw [contents_root_length, hn] at hle
  rw [h.loc.freeblock]
  exact Nat.add_le_add_left hle _

theorem wp_many (hn : ninodeblocks * IPB < args.length + 2) :
    wp (fun _ => True) (main args) (fun _ s' => ∃ used, nmeta + 7 ≤ used ∧
      s'.block bmapstart = Mkfs.bitmap used) init := by
  have hlen : (args.take 206).length = 206 := List.length_take_of_le (by lia)
  unfold main
  rw [wp_bind]
  refine wp_mono wp_format ?_
  rintro _ s rfl
  rw [wp_bind]
  refine wp_mono (wp_makeRoot (fun _ => le_rfl) fun _ _ => trivial) ?_
  rintro _ s₁ ⟨rfl, hs₁, himg₁⟩
  rw [wp_bind, ← List.take_append_drop 206 args, addFiles_append, wp_bind]
  refine wp_mono (wp_addFiles himg₁ hs₁ le_rfl ?_ (update_self ..) (fun _ => le_rfl)
    fun _ _ => trivial) ?_
  · rw [hlen]
    norm_num
  rintro _ s₂ ⟨t, -, himg⟩
  have h₂ := Image.many himg hlen
  refine wp_mono (Advances.addFiles _ _ s₂) fun _ s₃ h₃ => ?_
  rw [wp_bind]
  refine wp_mono (Advances.fixRoot _ s₃) fun _ s₄ h₄ => ?_
  rw [wp_bind, wp_look]
  unfold balloc wsect
  split_ifs
  · rw [sector_eq (by norm_num), wp_modify]
    exact ⟨s₄.freeblock, h₂.trans (h₃.trans h₄), by simp only [update_self]⟩
  · exact wp_throw.mpr trivial

/-- Inode 208 is in the bitmap. -/
theorem not_owned_of_many (hok : mkfs args = .ok block)
    (hn : ninodeblocks * IPB < args.length + 2) :
    ¬ Owned sb (kernel block).disk (named block args) := by
  obtain ⟨s, hrun, rfl⟩ := mkfs_ok hok
  obtain ⟨used, hused, hmap⟩ := Wp.wp_ok (wp_many hn) hrun
  have hinode : named s.block args (ninodeblocks * IPB) = dinode ((Mkfs.bitmap used).record 0) := by
    rw [named, if_pos hn, ← hmap]
    rfl
  exact not_owned_bitmap hinode (lt_of_lt_of_le (by decide) hused)

/-- **The image of `mkfs` is well-formed** if and only if its inodes are in the inode blocks and the
entries of the root directory do not fill its last block. -/
theorem mkfs_wellFormed_iff {args : List Arg} {block : ℕ → Bytes} (hok : mkfs args = .ok block) :
    WellFormed block args ↔
      args.length + 2 ≤ ninodeblocks * IPB ∧ (args.length + 2) % (BSIZE / direntSize) ≠ 0 := by
  refine ⟨fun h => ?_, fun h => wellFormed_of_fits hok h.1 h.2⟩
  have hn : args.length + 2 ≤ ninodeblocks * IPB :=
    not_lt.mp fun hgt => not_owned_of_many hok hgt h.owned
  refine ⟨hn, fun hroot => ?_⟩
  obtain ⟨hsize, hblock⟩ := root_unmapped hok hn hroot
  have howned := h.owned
  rw [named_eq hn] at howned
  refine (howned.mapped ROOTINO (by lia)).mpr ?_ hblock
  rw [hsize]
  exact (Nat.mul_lt_mul_right (by norm_num)).mpr (Nat.lt_succ_self _)

/-- One file -/
theorem mkfs_wellFormed_iff_one : ∃ block, mkfs [emptyFile 65 (by decide)] = .ok block ∧
    WellFormed block [emptyFile 65 (by decide)] := by
  obtain ⟨s, t, -, -, hok⟩ := mkfs_total [emptyFile 65 (by decide)] (by decide)
    (by decide) (enough_of_empty (by decide) (by decide))
  exact ⟨finish s, hok, (mkfs_wellFormed_iff hok).mpr ⟨by decide, by decide⟩⟩

/-- **With thirty files, the root directory has no block for its second half**: its size is 1024. -/
theorem root_without_block : (thirtyFiles.map Arg.entry).Nodup ∧ ∃ block,
    mkfs thirtyFiles = .ok block ∧ (inodes block ROOTINO).size = 2 * BSIZE ∧
    blockAt (kernel block).disk (inodes block ROOTINO) 1 = 0 := by
  obtain ⟨s, t, -, -, hok⟩ := mkfs_total thirtyFiles (by decide) (by decide)
    (enough_of_empty (by decide) (by decide))
  have hlen : thirtyFiles.length = 30 := by decide
  have hroot := root_unmapped hok (by rw [hlen]; decide) (by rw [hlen]; decide)
  rw [hlen] at hroot
  exact ⟨by decide, finish s, hok, hroot⟩

end Main

end Xv6Mlfq.Mkfs
