import Xv6Mlfq.Fs.Dirents
import Xv6Mlfq.Proc.Types

/-!
# Paths

`skipelem`, `namex`, `namei` and `nameiparent` of `fs.c`, on the bytes of a path and the bytes of
the directories.  A path is the list of the bytes before its NUL.

Nothing changes meanwhile: the inodes are those of the disk, and what `iget`, `idup` and `iput` do
to the number of references has nothing to do with the inode that is found.

## Main definitions

* `skipelem`, `namex`, `namei`, `nameiparent` — the functions.
* `components path` — the names between the slashes.
* `resolve f m start names` — the names looked up, one after another.

## Main results

* `namexLoop_eq` — the loop of `namex` goes over the parts of the path.
* `path_resolution` — paths are looked up component by component.
-/

namespace Xv6Mlfq.Blocks

open Function (update update_self update_of_ne)
open Wp (wp wp_mono wp_bind wp_pure)

/-! ## The functions -/

abbrev SLASH : UInt8 := 47

/-- `while(*path == '/') path++` -/
def skipSlashes : List UInt8 → List UInt8
  | [] => []
  | c :: path => if c = SLASH then skipSlashes path else c :: path

/-- `while(*path != '/' && *path != 0) path++` -/
def skipName : List UInt8 → List UInt8
  | [] => []
  | c :: path => if c ≠ SLASH ∧ c ≠ 0 then skipName path else c :: path

/-- `skipelem`: the pointer that it returns, and the array `name` -/
def skipelem (path : List UInt8) (name : Bytes) : Option (List UInt8) × Bytes :=
  let s := skipSlashes path
  if s.headD 0 = 0 then (none, name)
  else
    let path := skipName s
    let len := s.length - path.length
    let name :=
      if DIRSIZ ≤ len then name.move 0 (s.take DIRSIZ)
      else update (name.move 0 (s.take len)) len 0
    (some (skipSlashes path), name)

/-- `ilock` -/
def ilock (f : ℕ → Dinode) (ip : ℕ) : DiskM Dinode :=
  if (f ip).type = .free then throw "ilock: no type" else pure (f ip)

section Functions

variable (sb : Superblock) (devsw : Devsw) (f : ℕ → Dinode)

/-- The loop of `namex`: the inode that it returns, and the array `name` -/
def namexLoop (parent : Bool) : ℕ → ℕ → List UInt8 → Bytes → DiskM (Option ℕ × Bytes)
  | 0, _, _, name => pure (none, name)
  | fuel + 1, ip, path, name =>
    match skipelem path name with
    | (none, name) => pure (if parent then none else some ip, name)
    | (some path, name) => do
        let dp ← ilock f ip
        if dp.type ≠ .dir then pure (none, name)
        else if parent = true ∧ path.headD 0 = 0 then pure (some ip, name)
        else do
          let (next, _) ← dirlookup sb devsw dp name
          match next with
          | none => pure (none, name)
          | some (inum, _) => namexLoop parent fuel inum path name

def namex (cwd : ℕ) (path : List UInt8) (parent : Bool) (name : Bytes) : DiskM (Option ℕ × Bytes) :=
  namexLoop sb devsw f parent (path.length + 1)
    (if path.headD 0 = SLASH then ROOTINO else cwd) path name

/-- `namei`, with what is in its array `name` -/
def namei (cwd : ℕ) (path : List UInt8) (name : Bytes) : DiskM (Option ℕ) := do
  let (ip, _) ← namex sb devsw f cwd path false name
  pure ip

def nameiparent (cwd : ℕ) (path : List UInt8) (name : Bytes) : DiskM (Option ℕ × Bytes) :=
  namex sb devsw f cwd path true name

end Functions

/-! ## Components -/

/-- What stands between the slashes -/
def parts (path : List UInt8) : List (List UInt8) := (path.splitOn SLASH).filter (· ≠ [])

/-- The names in a path, cut off after `DIRSIZ` bytes -/
def components (path : List UInt8) : List (List UInt8) := (parts path).map (List.take DIRSIZ)

theorem parts_nil : parts [] = [] := rfl

/-- A slash ends a part, if there is one. -/
theorem parts_append_slash (p q : List UInt8) : parts (p ++ SLASH :: q) = parts p ++ parts q := by
  rw [parts, List.splitOn_append_cons_self, List.filter_append]
  rfl

theorem parts_slash (path : List UInt8) :
    parts (SLASH :: path) = parts path := parts_append_slash [] path

variable {c path : List UInt8}

/-- The first part, and the rest after the slash -/
theorem parts_name {rest : List UInt8} (hc : SLASH ∉ c) (hne : c ≠ [])
    (hrest : rest.headD SLASH = SLASH) : parts (c ++ rest) = c :: parts rest := by
  cases rest with
  | nil =>
    rw [List.append_nil, parts, List.splitOn_eq_singleton hc, parts_nil]
    simp [hne]
  | cons x rest =>
    obtain rfl : x = SLASH := hrest
    rw [parts_slash, parts, List.splitOn_append_cons_self_of_not_mem hc, parts]
    simp [hne]

theorem skipSlashes_length (path : List UInt8) : (skipSlashes path).length ≤ path.length := by
  induction path with
  | nil => rfl
  | cons c path ih =>
    rw [skipSlashes]
    split_ifs
    · exact ih.trans (Nat.le_succ _)
    · exact le_rfl

theorem parts_skipSlashes (path : List UInt8) : parts (skipSlashes path) = parts path := by
  induction path with
  | nil => rfl
  | cons c path ih =>
    rw [skipSlashes]
    split_ifs with h
    · rw [h, parts_slash, ih]
    · rfl

theorem skipSlashes_head (path : List UInt8) : (skipSlashes path).headD 0 ≠ SLASH := by
  induction path with
  | nil => decide
  | cons c path ih =>
    rw [skipSlashes]
    split_ifs with h
    · exact ih
    · exact h

theorem mem_of_skipSlashes {x : UInt8} (h : x ∈ skipSlashes path) : x ∈ path := by
  induction path with
  | nil => exact h
  | cons c path ih =>
    rw [skipSlashes] at h
    split_ifs at h
    · exact List.mem_cons_of_mem c (ih h)
    · exact h

/-- A name, and what is after it: the end, or a slash -/
theorem skipName_eq {s : List UInt8} (h0 : 0 ∉ s) :
    ∃ c, s = c ++ skipName s ∧ SLASH ∉ c ∧ (skipName s).headD SLASH = SLASH := by
  induction s with
  | nil => exact ⟨[], rfl, List.not_mem_nil, rfl⟩
  | cons x s ih =>
    rw [List.mem_cons, not_or] at h0
    rw [skipName]
    by_cases hx : x = SLASH
    · rw [if_neg (by simp [hx])]
      exact ⟨[], rfl, List.not_mem_nil, hx⟩
    · obtain ⟨c, hs, hc, hhead⟩ := ih h0.2
      rw [if_pos ⟨hx, Ne.symm h0.1⟩]
      refine ⟨x :: c, ?_, ?_, hhead⟩
      · rw [List.cons_append, ← hs]
      · rw [List.mem_cons, not_or]
        exact ⟨Ne.symm hx, hc⟩

/-- The array `name`, when `skipelem` has copied `c` to it -/
def copied (name : Bytes) (c : List UInt8) : Bytes :=
  if DIRSIZ ≤ c.length then name.move 0 (c.take DIRSIZ) else update (name.move 0 c) c.length 0

/-- A path that does not start with a slash starts with a part. -/
theorem exists_part {s : List UInt8} (h0 : 0 ∉ s) (hhead : s.headD 0 ≠ SLASH) (hne : s ≠ []) :
    ∃ c, c ≠ [] ∧ s = c ++ skipName s ∧ parts s = c :: parts (skipName s) := by
  obtain ⟨c, hs, hc, hrest⟩ := skipName_eq h0
  have hcne : c ≠ [] := by
    rintro rfl
    rw [List.nil_append] at hs
    rw [← hs] at hrest
    cases s with
    | nil => exact hne rfl
    | cons x s => exact hhead hrest
  refine ⟨c, hcne, hs, ?_⟩
  rw [← parts_name hc hcne hrest, ← hs]

theorem headD_eq_zero {s : List UInt8} (h0 : 0 ∉ s) : s.headD 0 = 0 ↔ s = [] := by
  cases s with
  | nil => exact iff_of_true rfl rfl
  | cons x s =>
    rw [List.mem_cons, not_or] at h0
    exact iff_of_false (Ne.symm h0.1) (List.cons_ne_nil x s)

/-- Without leading slashes, only the empty path has no part. -/
theorem parts_skipSlashes_eq_nil (h0 : 0 ∉ path) :
    parts (skipSlashes path) = [] ↔ skipSlashes path = [] := by
  refine ⟨fun hparts => ?_, fun hnil => hnil ▸ parts_nil⟩
  by_contra hne
  obtain ⟨c, -, -, hc⟩ := exists_part (fun h => h0 (mem_of_skipSlashes h))
    (skipSlashes_head path) hne
  rw [hc] at hparts
  cases hparts

/-- What `skipelem` has done: it has taken the first part of the path, or there is none. -/
inductive Skipped (path : List UInt8) (name : Bytes) : Option (List UInt8) × Bytes → Prop
  | none (hparts : parts path = []) : Skipped path name (none, name)
  | some {c rest : List UInt8} (hparts : parts path = c :: parts rest) (h0 : 0 ∉ rest)
      (hlt : rest.length < path.length) (hlast : rest.headD 0 = 0 ↔ parts rest = []) :
      Skipped path name (some rest, copied name c)

theorem skipelem_spec (h0 : 0 ∉ path) (name : Bytes) : Skipped path name (skipelem path name) := by
  have hs0 : 0 ∉ skipSlashes path := fun h => h0 (mem_of_skipSlashes h)
  rw [skipelem]
  dsimp only
  by_cases hnil : skipSlashes path = []
  · rw [if_pos ((headD_eq_zero hs0).mpr hnil)]
    apply Skipped.none
    rw [← parts_skipSlashes, hnil, parts_nil]
  · obtain ⟨c, hc, hs, hparts⟩ := exists_part hs0 (skipSlashes_head path) hnil
    rw [parts_skipSlashes] at hparts
    have hrest0 : 0 ∉ skipName (skipSlashes path) := by
      rw [hs, List.mem_append, not_or] at hs0
      exact hs0.2
    have hlen : (skipSlashes path).length = c.length + (skipName (skipSlashes path)).length := by
      rw [← List.length_append, ← hs]
    have hshort := skipSlashes_length path
    have hshort' := skipSlashes_length (skipName (skipSlashes path))
    have hpos := List.length_pos_iff.mpr hc
    -- what is copied, by the part
    have hcopied : (if DIRSIZ ≤ (skipSlashes path).length - (skipName (skipSlashes path)).length
          then name.move 0 ((skipSlashes path).take DIRSIZ)
          else update (name.move 0 ((skipSlashes path).take
            ((skipSlashes path).length - (skipName (skipSlashes path)).length)))
            ((skipSlashes path).length - (skipName (skipSlashes path)).length) 0) =
              copied name c := by
      rw [show (skipSlashes path).length - (skipName (skipSlashes path)).length =
        c.length by omega, copied]
      generalize skipName (skipSlashes path) = rest at hs
      rw [hs]
      by_cases hlong : DIRSIZ ≤ c.length
      · rw [if_pos hlong, if_pos hlong, List.take_append_of_le_length hlong]
      · rw [if_neg hlong, if_neg hlong, List.take_append_of_le_length le_rfl, List.take_length]
    rw [if_neg ((headD_eq_zero hs0).not.mpr hnil), hcopied]
    refine Skipped.some ?_ (fun h => hrest0 (mem_of_skipSlashes h)) (by omega) ?_
    · rw [parts_skipSlashes, hparts]
    · rw [headD_eq_zero fun h => hrest0 (mem_of_skipSlashes h), parts_skipSlashes_eq_nil hrest0]

/-- The name that has been copied -/
theorem nameOf_copied (h0 : 0 ∉ c) (name : Bytes) : nameOf (copied name c) = c.take DIRSIZ := by
  rw [nameOf, copied]
  by_cases hlong : DIRSIZ ≤ c.length
  · rw [if_pos hlong]
    apply Names.text_eq_take h0
    · intro j hj hlt
      have hlen : (c.take DIRSIZ).length = DIRSIZ := by
        rw [List.length_take]
        omega
      rw [Bytes.move, if_pos (by omega), Nat.sub_zero, List.getD_eq_getElem?_getD,
        List.getElem?_take_of_lt hj, List.getD_eq_getElem?_getD]
    · intro hlt
      omega
  · rw [if_neg hlong]
    apply Names.text_eq_take h0
    · intro j hj hlt
      rw [update_of_ne hlt.ne, Bytes.move, if_pos (by omega), Nat.sub_zero]
    · intro _
      rw [update_self]

/-- The parts have no other bytes than the path. -/
theorem mem_of_mem_splitOn {x : UInt8} (hc : c ∈ path.splitOn SLASH) (hx : x ∈ c) : x ∈ path := by
  induction path generalizing c with
  | nil =>
    rw [List.mem_singleton.mp hc] at hx
    exact hx
  | cons y path ih =>
    rw [List.splitOn, List.splitOnP_cons_eq_if_modifyHead] at hc
    split_ifs at hc with hy
    · rcases List.mem_cons.mp hc with rfl | hc
      · exact absurd hx List.not_mem_nil
      · exact List.mem_cons_of_mem y (ih hc hx)
    · cases hsplit : path.splitOnP (· == SLASH) with
      | nil =>
        rw [hsplit] at hc
        exact absurd hc List.not_mem_nil
      | cons c' cs =>
        have hsplit' : path.splitOn SLASH = c' :: cs := hsplit
        rw [hsplit, List.modifyHead_cons, List.mem_cons] at hc
        rcases hc with rfl | hc
        · rcases List.mem_cons.mp hx with rfl | hx
          · exact List.mem_cons_self
          · exact List.mem_cons_of_mem y (ih (hsplit' ▸ List.mem_cons_self) hx)
        · exact List.mem_cons_of_mem y (ih (hsplit' ▸ List.mem_cons_of_mem c' hc) hx)

theorem zero_not_mem_of_parts (h0 : 0 ∉ path) (hc : c ∈ parts path) : 0 ∉ c :=
  fun h => h0 (mem_of_mem_splitOn (List.mem_of_mem_filter hc) h)

/-! ## The loop of `namex`, over the parts -/

section Walk

variable (sb : Superblock) (devsw : Devsw) (f : ℕ → Dinode)

/-- What the loop of `namex` does with the parts of a path -/
def walk (parent : Bool) : ℕ → List (List UInt8) → Bytes → DiskM (Option ℕ × Bytes)
  | ip, [], name => pure (if parent then none else some ip, name)
  | ip, c :: cs, name => do
      let dp ← ilock f ip
      if dp.type ≠ .dir then pure (none, copied name c)
      else if parent = true ∧ cs = [] then pure (some ip, copied name c)
      else do
        let (next, _) ← dirlookup sb devsw dp (copied name c)
        match next with
        | none => pure (none, copied name c)
        | some (inum, _) => walk parent inum cs (copied name c)

/-- **The loop of `namex` goes over the parts of the path.**  By induction on the rounds -/
theorem namexLoop_eq {parent : Bool} {fuel : ℕ} {path : List UInt8} (h0 : 0 ∉ path)
    (hfuel : path.length < fuel) (ip : ℕ) (name : Bytes) :
    namexLoop sb devsw f parent fuel ip path name = walk sb devsw f parent ip
    (parts path) name := by
  induction fuel generalizing path ip name with
  | zero => exact absurd hfuel (Nat.not_lt_zero _)
  | succ fuel ih =>
    rw [namexLoop]
    have hspec := skipelem_spec h0 name
    generalize skipelem path name = r at hspec
    cases hspec with
    | none hparts =>
      rw [hparts]
      rfl
    | @some c rest hparts hrest hlt hlast =>
      have hloop : ∀ inum, namexLoop sb devsw f parent fuel inum rest (copied name c) =
          walk sb devsw f parent inum (parts rest) (copied name c) :=
        fun inum => ih hrest (by omega) inum _
      rw [hparts, walk]
      simp only [hlast, hloop]

end Walk

/-! ## The specification -/

section Resolve

variable {F : String → Prop} {sb : Superblock} {devsw : Devsw} {d : Disk} {f : ℕ → Dinode}
  {m : ℕ → NameMap} {cwd : ℕ}

/-- A tree of directories, each with its map of names.  What is named is there. -/
structure Tree (sb : Superblock) (d : Disk) (f : ℕ → Dinode) (m : ℕ → NameMap) : Prop where
  owned : Owned sb d f
  dir : ∀ i, (f i).type = .dir → Represents (contents d (f i)) (m i)
  named : ∀ i name v, (f i).type = .dir → m i name = some v → (f v).type ≠ .free
  root : (f ROOTINO).type ≠ .free

/-- A name looked up in an inode, which must be a directory -/
def lookupIn (f : ℕ → Dinode) (m : ℕ → NameMap) (i : ℕ) (name : List UInt8) : Option ℕ :=
  if (f i).type = .dir then m i name else none

/-- Names looked up one after another -/
def resolve (f : ℕ → Dinode) (m : ℕ → NameMap) (start : ℕ) (names : List (List UInt8)) : Option ℕ :=
  names.foldlM (lookupIn f m) start

/-- All names but the last looked up, and that in a directory -/
def resolveParent (f : ℕ → Dinode) (m : ℕ → NameMap) (start : ℕ)
    (names : List (List UInt8)) : Option ℕ :=
  if names = [] then none
  else (resolve f m start names.dropLast).filter fun i => (f i).type = .dir

/-- Where a path starts -/
def start (cwd : ℕ) (path : List UInt8) : ℕ := if path.head? = some SLASH then ROOTINO else cwd

theorem resolve_cons (i : ℕ) (c : List UInt8) (cs : List (List UInt8)) :
    resolve f m i (c :: cs) = (lookupIn f m i c).bind fun j => resolve f m j cs := by
  rw [resolve, List.foldlM_cons]
  rfl

theorem resolveParent_cons (i : ℕ) (c : List UInt8) {cs : List (List UInt8)} (hcs : cs ≠ []) :
    resolveParent f m i (c :: cs) = (lookupIn f m i c).bind fun j => resolveParent f m j cs := by
  rw [resolveParent, if_neg (List.cons_ne_nil c cs), List.dropLast_cons_of_ne_nil hcs, resolve_cons]
  cases lookupIn f m i c with
  | none => rfl
  | some j => rw [Option.bind_some, Option.bind_some, resolveParent, if_neg hcs]

/-- What `namex` is to return -/
def target (f : ℕ → Dinode) (m : ℕ → NameMap) (parent : Bool) (i : ℕ) (names : List (List UInt8)) :
    Option ℕ :=
  if parent then resolveParent f m i names else resolve f m i names

/-- One name, unless it is the last and the parent is looked for -/
theorem target_cons {parent : Bool} (i : ℕ) (c : List UInt8) {cs : List (List UInt8)}
    (h : ¬ (parent = true ∧ cs = [])) :
    target f m parent i (c :: cs) = (lookupIn f m i c).bind fun j => target f m parent j cs := by
  cases parent with
  | false => exact resolve_cons i c cs
  | true => exact resolveParent_cons i c fun hcs => h ⟨rfl, hcs⟩

/-- In what is not a directory, nothing is found. -/
theorem target_not_dir {parent : Bool} {i : ℕ} (hdir : (f i).type ≠ .dir) (c : List UInt8)
    (cs : List (List UInt8)) : target f m parent i (c :: cs) = none := by
  by_cases hlast : parent = true ∧ cs = []
  · obtain ⟨rfl, rfl⟩ := hlast
    have hfilter : (some i).filter (fun j => decide ((f j).type = .dir)) = none := by simp [hdir]
    exact hfilter
  · rw [target_cons i c hlast, lookupIn, if_neg hdir]
    rfl

/-- **The parts of a path are looked up one after another.**  By induction on them -/
theorem wp_walk {parent : Bool} {cs : List (List UInt8)} (h : Tree sb d f m) {ip : ℕ} {name : Bytes}
    (hip : (f ip).type ≠ .free) (h0 : ∀ c ∈ cs, 0 ∉ c) :
    wp F (walk sb devsw f parent ip cs name) (fun r d' => d' = d ∧
      r.1 = target f m parent ip (cs.map (List.take DIRSIZ)) ∧
      (parent = true → ∀ i, r.1 = some i →
        (cs.map (List.take DIRSIZ)).getLast? = some (nameOf r.2))) d := by
  induction cs generalizing ip name with
  | nil =>
    rw [walk, wp_pure]
    refine ⟨rfl, ?_, ?_⟩
    · cases parent with
      | false => rfl
      | true => rfl
    · rintro rfl i hi
      cases hi
  | cons c cs ih =>
    have hname : nameOf (copied name c) = c.take DIRSIZ :=
      nameOf_copied (h0 c List.mem_cons_self) name
    rw [walk, wp_bind, ilock, if_neg hip, wp_pure, List.map_cons]
    by_cases hdir : (f ip).type = .dir
    swap
    · rw [if_pos hdir, wp_pure, target_not_dir hdir]
      exact ⟨rfl, rfl, fun _ => nofun⟩
    rw [if_neg (not_not.mpr hdir)]
    by_cases hlast : parent = true ∧ cs = []
    · obtain ⟨rfl, rfl⟩ := hlast
      have hfilter : (some ip).filter (fun j => decide ((f j).type = .dir)) = some ip := by
        simp [hdir]
      rw [if_pos ⟨rfl, rfl⟩, wp_pure]
      refine ⟨rfl, hfilter.symm, fun _ _ _ => ?_⟩
      rw [hname]
      rfl
    · have hlast' : ¬ (parent = true ∧ cs.map (List.take DIRSIZ) = []) := by
        rwa [List.map_eq_nil_iff]
      have hmap : IsMap sb d f ip (m ip) := ⟨h.owned, hdir, h.dir ip hdir⟩
      rw [if_neg hlast, wp_bind, target_cons ip _ hlast', lookupIn, if_pos hdir]
      apply wp_mono hmap.wp_dirlookup
      rintro ⟨found, _⟩ d' ⟨rfl, rfl, hfound, -⟩
      rw [hname] at hfound
      rw [← hfound]
      cases found with
      | none =>
        rw [wp_pure]
        exact ⟨rfl, rfl, fun _ => nofun⟩
      | some p =>
        obtain ⟨inum, off⟩ := p
        have hnext : (f inum).type ≠ .free := h.named ip _ inum hdir hfound.symm
        apply wp_mono (ih hnext fun c' hc' => h0 c' (List.mem_cons_of_mem c hc'))
        rintro r d'' ⟨hd, hr, htext⟩
        refine ⟨hd, hr, ?_⟩
        intro hparent i hi
        have hcs : cs.map (List.take DIRSIZ) ≠ [] := fun hnil => hlast' ⟨hparent, hnil⟩
        rw [List.getLast?_cons_of_ne_nil hcs]
        exact htext hparent i hi

theorem namex_eq {path : List UInt8} (h0 : 0 ∉ path) (parent : Bool) (name : Bytes) :
    namex sb devsw f cwd path parent name = walk sb devsw f parent (start cwd path)
    (parts path) name := by
  have hstart : (if path.headD 0 = SLASH then ROOTINO else cwd) = start cwd path := by
    cases path with
    | nil => rfl
    | cons c path => simp [start]
  rw [namex, namexLoop_eq sb devsw f h0 (Nat.lt_succ_self _), hstart]

/-- Only the parts of a path and where it starts matter. -/
theorem namex_congr {p q : List UInt8} (hp : 0 ∉ p) (hq : 0 ∉ q)
    (hstart : start cwd p = start cwd q)
    (hparts : parts p = parts q) (parent : Bool) (name : Bytes) :
    namex sb devsw f cwd p parent name = namex sb devsw f cwd q parent name := by
  rw [namex_eq hp, namex_eq hq, hstart, hparts]

theorem start_append {p : List UInt8} (hp : p ≠ []) (q : List UInt8) :
    start cwd (p ++ q) = start cwd p := by
  rw [start, List.head?_append_of_ne_nil p hp, start]

/-- **Paths are looked up component by component.**  `nameiparent` stops one component before the
end, and stores the last one; more slashes than one are like one, and those at the end like none. -/
theorem path_resolution (h : Tree sb d f m) (hcwd : (f cwd).type ≠ .free) :
    (∀ path name, 0 ∉ path → namei sb devsw f cwd path name d =
      .ok (resolve f m (start cwd path) (components path), d)) ∧
    (∀ path name, 0 ∉ path → ∃ name', nameiparent sb devsw f cwd path name d =
        .ok ((resolveParent f m (start cwd path) (components path), name'), d) ∧
      ∀ i, resolveParent f m (start cwd path) (components path) = some i →
        (components path).getLast? = some (nameOf name')) ∧
    ∀ p q name, 0 ∉ p → 0 ∉ q →
      (namei sb devsw f cwd (p ++ SLASH :: SLASH :: q) name = namei sb devsw f cwd
      (p ++ SLASH :: q) name ∧
        nameiparent sb devsw f cwd (p ++ SLASH :: SLASH :: q) name =
          nameiparent sb devsw f cwd (p ++ SLASH :: q) name) ∧
      (p ≠ [] → namei sb devsw f cwd (p ++ [SLASH]) name = namei sb devsw f cwd p name ∧
        nameiparent sb devsw f cwd (p ++ [SLASH]) name = nameiparent sb devsw f cwd p name) := by
  have hstart : ∀ path, (f (start cwd path)).type ≠ .free := by
    intro path
    rw [start]
    split_ifs
    · exact h.root
    · exact hcwd
  have hnamex : ∀ path parent name, 0 ∉ path → ∃ name', namex sb devsw f cwd path parent name d =
      .ok ((target f m parent (start cwd path) (components path), name'), d) ∧
      (parent = true → ∀ i, target f m parent (start cwd path) (components path) = some i →
        (components path).getLast? = some (nameOf name')) := by
    intro path parent name h0
    have hwalk : wp (fun _ => False)
        (walk sb devsw f parent (start cwd path) (parts path) name) _ d :=
      wp_walk h (hstart path) fun c hc => zero_not_mem_of_parts h0 hc
    obtain ⟨⟨_, name'⟩, _, hrun, rfl, rfl, htext⟩ := Wp.exists_ok hwalk
    rw [namex_eq h0]
    exact ⟨name', hrun, htext⟩
  refine ⟨?_, ?_, ?_⟩
  · intro path name h0
    obtain ⟨name', hrun, -⟩ := hnamex path false name h0
    rw [namei]
    show Except.bind (namex sb devsw f cwd path false name d) _ = _
    rw [hrun]
    rfl
  · intro path name h0
    obtain ⟨name', hrun, htext⟩ := hnamex path true name h0
    exact ⟨name', hrun, htext rfl⟩
  · intro p q name hp hq
    have hslash : ∀ {q : List UInt8}, 0 ∉ q → 0 ∉ SLASH :: q := by
      intro q hq
      rw [List.mem_cons, not_or]
      exact ⟨by decide, hq⟩
    have happ : ∀ {q : List UInt8}, 0 ∉ q → 0 ∉ p ++ q := by
      intro q hq
      rw [List.mem_append, not_or]
      exact ⟨hp, hq⟩
    refine ⟨?_, ?_⟩
    · have hsame : ∀ parent, namex sb devsw f cwd (p ++ SLASH :: SLASH :: q) parent name =
          namex sb devsw f cwd (p ++ SLASH :: q) parent name := by
        intro parent
        apply namex_congr (happ (hslash (hslash hq))) (happ (hslash hq))
        · cases p with
          | nil => rfl
          | cons c p => rfl
        · rw [parts_append_slash, parts_append_slash, parts_slash]
      rw [namei, namei, nameiparent, nameiparent, hsame, hsame]
      exact ⟨rfl, rfl⟩
    · intro hne
      have hsame : ∀ parent, namex sb devsw f cwd (p ++ [SLASH]) parent name =
          namex sb devsw f cwd p parent name := by
        intro parent
        apply namex_congr (happ (hslash List.not_mem_nil)) hp (start_append hne _)
        rw [parts_append_slash, parts_nil, List.append_nil]
      rw [namei, namei, nameiparent, nameiparent, hsame, hsame]
      exact ⟨rfl, rfl⟩

/-- A root directory with one name, of itself -/
theorem path_resolution_root : ∃ d f, namei tinySb (fun _ => none) f 1 [47, 97, 47, 47, 97]
    (fun _ => 0) d = .ok (some 1, d) := by
  let a : Bytes := fun j => [97].getD j 0
  let f₀ : ℕ → Dinode := update tinyDinode 1 ⟨.dir, 0, 0, 0, fun _ => 0⟩
  have hinit : IsMap tinySb tinyDisk f₀ 1 fun _ => none :=
    ⟨tiny_owned.alloc rfl .dir, rfl, Represents.nil⟩
  have hok : ((dirlink tinySb (fun _ => none) ⟨.dir, 0, 0, 0, fun _ => 0⟩
      a 1 tinyDisk).toOption.isSome) =
      true := by decide +kernel
  cases hrun : dirlink tinySb (fun _ => none) ⟨.dir, 0, 0, 0, fun _ => 0⟩ a 1 tinyDisk with
  | error e =>
    rw [hrun] at hok
    cases hok
  | ok r =>
    obtain ⟨⟨ret, dp⟩, d⟩ := r
    obtain ⟨-, -, hmap⟩ := Wp.wp_ok (hinit.wp_dirlink Nat.one_pos (by decide)) hrun
    rw [Becomes, Function.update_idem] at hmap
    have hroot : (update tinyDinode 1 dp 1).type = .dir := hmap.type
    have honly : ∀ i, (update tinyDinode 1 dp i).type = .dir → i = 1 := by
      intro i hi
      by_contra hne
      rw [update_of_ne hne] at hi
      cases hi
    have htree : Tree tinySb d (update tinyDinode 1 dp)
        fun _ => mapOp (fun _ => none) (.link a 1) := by
      refine ⟨hmap.owned, ?_, ?_, ?_⟩
      · intro i hi
        obtain rfl := honly i hi
        exact hmap.rep
      · intro i name v _ hv
        have hv' : v = 1 := by
          rw [mapOp, if_pos rfl, Function.update_apply] at hv
          split_ifs at hv
          exact (Option.some.inj hv).symm
        rw [hv', hroot]
        decide
      · rw [hroot]
        decide
    have hfound : lookupIn (update tinyDinode 1 dp)
        (fun _ => mapOp (fun _ => none) (.link a 1)) 1 [97] = some 1 := by
      rw [lookupIn, if_pos hroot]
      decide +kernel
    have hpath : namei tinySb (fun _ => none) (update tinyDinode 1 dp) 1 [47, 97, 47, 47, 97]
        (fun _ => 0) d = _ := (path_resolution htree htree.root).1 _ _ (by decide)
    have hcomponents : components [47, 97, 47, 47, 97] = [[97], [97]] := by decide
    have hstart : start 1 [47, 97, 47, 47, 97] = 1 := rfl
    refine ⟨d, update tinyDinode 1 dp, ?_⟩
    rw [hpath, hcomponents, hstart, resolve_cons, hfound, Option.bind_some, resolve_cons, hfound]
    rfl

end Resolve

end Xv6Mlfq.Blocks
