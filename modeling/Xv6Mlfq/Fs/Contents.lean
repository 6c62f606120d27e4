import Xv6Mlfq.Fs.Addresses
import Mathlib.Data.List.GetD

/-!
# The contents of an inode

The loops of `readi` and `writei`, by the bytes of the inode.

## Main definitions

* `byteAt` — the byte at an offset.
* `Wrote` — what a write does.

## Main results

* `wp_readLoop` — what is read is what is there, and nothing is allocated.
* `wp_writeLoop` — what is written is there, and other inodes keep their blocks.
-/

namespace Xv6Mlfq.Blocks

open Function (update update_self update_of_ne)
open Ownership (Exclusive)
open Wp (wp wp_mono wp_bind wp_pure wp_look wp_modify)

/-! ## Contents -/

/-- The byte at offset `x` -/
def byteAt (d : Disk) (ip : Dinode) (x : ℕ) : UInt8 :=
  d.block (blockAt d ip (x / BSIZE)) (x % BSIZE)

/-- Offsets in one block -/
theorem same_block {off m j : ℕ} (hm : m ≤ BSIZE - off % BSIZE) (hj : j < m) :
    (off + j) / BSIZE = off / BSIZE ∧ (off + j) % BSIZE = off % BSIZE + j := by
  lia

section Contents

variable {sb : Superblock} {d : Disk} {f : ℕ → Dinode} {i : ℕ}

variable {off n : ℕ} {src : List UInt8} {d' : Disk} {ip' : Dinode}

/-- What is read is what is there, and no block is allocated. -/
theorem wp_readLoop {F : String → Prop} {ip : Dinode} {fuel : ℕ} (hfuel : n ≤ fuel)
    (hmax : off + n ≤ MAXFILE * BSIZE)
    (h : ∀ x, off ≤ x → x < off + n → blockAt d ip (x / BSIZE) ≠ 0) :
    wp F (readLoop sb fuel ip off n)
      (fun r d' => r = ((List.range n).map fun k => byteAt d ip (off + k), ip) ∧ d' = d) d := by
  induction fuel generalizing off n with
  | zero =>
    obtain rfl : n = 0 := Nat.le_zero.mp hfuel
    exact wp_pure.mpr ⟨rfl, rfl⟩
  | succ fuel ih =>
    by_cases hn : 0 < n
    · rw [readLoop, if_pos hn]
      have hbn : off / BSIZE < MAXFILE := by lia
      refine wp_bind.mpr (wp_mono (wp_bmap_found hbn (h off le_rfl (by omega))) ?_)
      rintro r d' ⟨rfl, rfl⟩
      have hm : min n (BSIZE - off % BSIZE) ≤ BSIZE - off % BSIZE := Nat.min_le_right ..
      have hmn : min n (BSIZE - off % BSIZE) ≤ n := Nat.min_le_left ..
      have hpos : 0 < min n (BSIZE - off % BSIZE) := by lia
      simp only
      generalize min n (BSIZE - off % BSIZE) = m at *
      have hrest := ih (n := n - m) (by omega) (by omega)
        fun x (hx : off + m ≤ x) hx' => h x (by omega) (by omega)
      refine wp_bind.mpr (wp_look.mpr (wp_bind.mpr (wp_mono hrest ?_)))
      rintro r d' ⟨rfl, rfl⟩
      refine wp_pure.mpr ⟨?_, rfl⟩
      have hslice : (d'.block (blockAt d' ip (off / BSIZE))).slice (off % BSIZE) m =
          (List.range m).map fun k => byteAt d' ip (off + k) := by
        refine List.map_congr_left fun j hj => ?_
        obtain ⟨hdiv, hmod⟩ := same_block hm (List.mem_range.mp hj)
        rw [byteAt, hdiv, hmod]
      have hrange : List.range n = List.range m ++ (List.range (n - m)).map (m + ·) := by
        rw [← List.range_add, Nat.add_sub_cancel' hmn]
      rw [hslice, hrange, List.map_append, List.map_map]
      simp only [Function.comp_def, Nat.add_assoc]
    · obtain rfl : n = 0 := by omega
      rw [readLoop, if_neg hn]
      exact wp_pure.mpr ⟨rfl, rfl⟩

/-- Inode `i`, of `n` blocks, has got the bytes `src` from `off` on. -/
structure Wrote (sb : Superblock) (d : Disk) (f : ℕ → Dinode) (i n off : ℕ) (src : List UInt8)
    (d' : Disk) (ip' : Dinode) : Prop where
  excl : Exclusive sb.nmeta sb.size d'.used (cells d' (update f i ip'))
  addrs : ip' = { f i with addrs := ip'.addrs }
  other : ∀ {j p}, j ≠ i → cells d f (j, p) ≠ 0 →
    d'.block (cells d f (j, p)) = d.block (cells d f (j, p))
  shape : ∀ {q}, q < MAXFILE → (blockAt d' ip' q ≠ 0 ↔ q < n ∨ q * BSIZE < off + src.length)
  inside : off + src.length ≤ n * BSIZE → ip' = f i
  byte : ∀ {x}, x / BSIZE < n ∨ off ≤ x ∧ x < off + src.length →
    byteAt d' ip' x =
      if off ≤ x ∧ x < off + src.length then src.getD (x - off) 0 else byteAt d (f i) x

/-- The bytes that a round of the loop of `writei` changes -/
theorem in_round {m x : ℕ} (hm : m ≤ BSIZE - off % BSIZE) : off ≤ x ∧ x < off + m ↔
      x / BSIZE = off / BSIZE ∧ off % BSIZE ≤ x % BSIZE ∧ x % BSIZE < off % BSIZE + m := by
  lia

theorem move_byte {b : Bytes} {x : ℕ} (hlen : src.length ≤ BSIZE - off % BSIZE)
    (hx : x / BSIZE = off / BSIZE) :
    b.move (off % BSIZE) src (x % BSIZE) =
      if off ≤ x ∧ x < off + src.length then src.getD (x - off) 0 else b (x % BSIZE) := by
  have hsub : off ≤ x → x % BSIZE - off % BSIZE = x - off := by lia
  rw [Bytes.move]
  by_cases hin : off ≤ x ∧ x < off + src.length
  · rw [if_pos hin, if_pos ((in_round hlen).mp hin).2, hsub hin.1]
  · rw [if_neg hin, if_neg fun h => hin ((in_round hlen).mpr ⟨hx, h⟩)]

/-- The addresses stay, whatever is written to the block. -/
theorem Grows.cells_data {b : ℕ} (h : Grows sb d f i n b d' ip') (x : Bytes) :
    cells { d' with block := update d'.block b x } (update f i ip') =
      cells d' (update f i ip') := by
  have hcell : cells d' (update f i ip') (i, pos n) = b := by
    rw [cells_update_self]
    exact h.new
  have h0 : cells d' (update f i ip') (i, pos n) ≠ 0 := by
    rw [hcell]
    exact h.ne_zero
  have : cells ⟨d'.used, update d'.block _ x⟩ _ = _ := Blocks.cells_data h.excl (pos_ne n) h0
  rwa [hcell] at this

theorem Grows.blockAt_data {b : ℕ} (h : Grows sb d f i n b d' ip') (x : Bytes) (q : ℕ) :
    blockAt { d' with block := update d'.block b x } ip' q = blockAt d' ip' q := by
  rw [blockAt, blockAt, ← cells_update_self _ f i, ← cells_update_self _ f i, h.cells_data]

/-- One round of the loop of `writei` -/
theorem Grows.wrote {b : ℕ} (h : Grows sb d f i (off / BSIZE) b d' ip')
    (hshape : ∀ {q}, q < MAXFILE → (blockAt d (f i) q ≠ 0 ↔ q < n)) (hle : off / BSIZE ≤ n)
    (hn : n ≤ MAXFILE) (hpos : 0 < src.length) (hlen : src.length ≤ BSIZE - off % BSIZE) :
    Wrote sb d f i n off src
      { d' with block := update d'.block b ((d'.block b).move (off % BSIZE) src) } ip' := by
  have hcell : cells d' (update f i ip') (i, pos (off / BSIZE)) = b := by
    rw [cells_update_self]
    exact h.new
  have hat := h.blockAt_data
  -- the blocks that were there before are others
  have hother : ∀ {x}, cells d f x ≠ 0 → x ≠ (i, pos (off / BSIZE)) → cells d f x ≠ b := by
    intro x hx hne he
    have hx' := h.old hx
    refine hne (h.excl.inj (p := x) ?_ ?_)
    · rwa [hx']
    · rw [hx', hcell, he]
  constructor
  case excl =>
    rw [h.cells_data]
    exact h.excl
  case addrs => exact h.addrs
  case other =>
    intro j p hj hx
    have hne : (j, p) ≠ (i, pos (off / BSIZE)) := fun he => hj (Prod.ext_iff.mp he).1
    have hne' : (j, p) ≠ (i, NDIRECT) := fun he => hj (Prod.ext_iff.mp he).1
    rw [← h.block hx hne']
    exact update_of_ne (hother hx hne) ..
  case shape =>
    intro q hq
    rw [hat]
    by_cases hqb : q = off / BSIZE
    · subst hqb
      rw [h.new]
      refine iff_of_true h.ne_zero (.inr ?_)
      lia
    · rw [h.only hqb, hshape hq]
      refine (or_iff_left_of_imp fun hlt => ?_).symm
      lia
  case inside =>
    intro hin
    refine h.found ((hshape ?_).mpr ?_)
    · lia
    · lia
  case byte =>
    intro x hx
    rw [byteAt, hat]
    by_cases hxb : x / BSIZE = off / BSIZE
    · rw [hxb, h.new]
      simp only [update_self]
      rw [move_byte hlen hxb]
      by_cases hin : off ≤ x ∧ x < off + src.length
      · rw [if_pos hin, if_pos hin]
      · -- the rest of a block that was there before
        have hlt := hx.resolve_right hin
        rw [hxb] at hlt
        have h0 : cells d f (i, pos (off / BSIZE)) ≠ 0 := (hshape (by omega)).mpr hlt
        have hsame := h.old h0
        rw [hcell] at hsame
        have hne : (i, pos (off / BSIZE)) ≠ (i, NDIRECT) :=
          fun he => pos_ne _ (Prod.ext_iff.mp he).2
        have hblock := h.block h0 hne
        rw [← hsame] at hblock
        rw [if_neg hin, if_neg hin, byteAt, hxb, hblock, hsame]
        rfl
    · have hin : ¬(off ≤ x ∧ x < off + src.length) := fun hin => hxb ((in_round hlen).mp hin).1
      have hlt := hx.resolve_right hin
      have h0 : cells d f (i, pos (x / BSIZE)) ≠ 0 := (hshape (by omega)).mpr hlt
      have hne : (i, pos (x / BSIZE)) ≠ (i, NDIRECT) := fun he => pos_ne _ (Prod.ext_iff.mp he).2
      have hne' : (i, pos (x / BSIZE)) ≠ (i, pos (off / BSIZE)) :=
        fun he => hxb (pos_inj (Prod.ext_iff.mp he).2)
      rw [if_neg hin, h.only hxb, byteAt]
      have hblock := h.block h0 hne
      have hupd : update d'.block b ((d'.block b).move (off % BSIZE) src)
          (cells d f (i, pos (x / BSIZE))) =
          d'.block (cells d f (i, pos (x / BSIZE))) := update_of_ne (hother h0 hne') ..
      rw [hblock] at hupd
      exact congrFun hupd _

theorem Wrote.cells_other (h : Wrote sb d f i n off src d' ip') {j : ℕ} (hj : j ≠ i) (p : ℕ) :
    place d' (f j) p = place d (f j) p := by
  refine place_congr (fun h0 => ?_) p
  have hcell : cells d f (j, NDIRECT) = (f j).addrs NDIRECT := place_slot le_rfl
  have := h.other (p := NDIRECT) hj (by rwa [hcell])
  rwa [hcell] at this

/-- One write after the other -/
theorem Wrote.append {n₁ off₁ : ℕ} {src₁ : List UInt8} {d₁ d₂ : Disk} {ip₁ ip₂ : Dinode}
    (h : Wrote sb d f i n off src d₁ ip₁)
    (hn₁ : ∀ q, q < n₁ ↔ q < n ∨ q * BSIZE < off + src.length)
    (hoff : off₁ = off + src.length) (h₁ : Wrote sb d₁ (update f i ip₁) i n₁ off₁ src₁ d₂ ip₂) :
    Wrote sb d f i n off (src ++ src₁) d₂ ip₂ := by
  subst hoff
  constructor
  case excl =>
    have := h₁.excl
    rwa [Function.update_idem] at this
  case addrs =>
    have := h₁.addrs
    rw [update_self, h.addrs] at this
    exact this
  case other =>
    intro j p hj hx
    have hcell : cells d₁ (update f i ip₁) (j, p) = cells d f (j, p) := by
      rw [cells, update_of_ne hj]
      exact h.cells_other hj p
    have := h₁.other (p := p) hj (by rwa [hcell])
    rw [hcell] at this
    rw [this, h.other hj hx]
  case shape =>
    intro q hq
    rw [h₁.shape hq, hn₁, List.length_append]
    lia
  case inside =>
    intro hin
    rw [List.length_append] at hin
    have hle : n ≤ n₁ := by
      refine Nat.le_of_not_lt fun hlt => ?_
      exact Nat.lt_irrefl n₁ ((hn₁ n₁).mpr (.inl hlt))
    rw [h₁.inside (by lia), update_self]
    exact h.inside (by omega)
  case byte =>
    intro x hx
    rw [List.length_append] at hx ⊢
    have hx₁ : x / BSIZE < n₁ ∨ off + src.length ≤ x ∧ x < off + src.length + src₁.length := by
      rw [hn₁]
      lia
    rw [h₁.byte hx₁, update_self]
    by_cases hin₁ : off + src.length ≤ x ∧ x < off + src.length + src₁.length
    · rw [if_pos hin₁, if_pos (by omega), List.getD_append_right _ _ _ _ (by omega), Nat.sub_add_eq]
    · rw [if_neg hin₁]
      by_cases hin : off ≤ x ∧ x < off + src.length
      · rw [h.byte (.inr hin), if_pos hin, if_pos (by omega), List.getD_append _ _ _ _ (by omega)]
      · have hlt : x / BSIZE < n := by omega
        rw [h.byte (.inl hlt), if_neg hin, if_neg (by omega)]

theorem Wrote.nil (hx : Exclusive sb.nmeta sb.size d.used (cells d f))
    (hshape : ∀ {q}, q < MAXFILE → (blockAt d (f i) q ≠ 0 ↔ q < n)) (hoff : off ≤ n * BSIZE) :
    Wrote sb d f i n off [] d (f i) := by
  refine ⟨by rwa [Function.update_eq_self], rfl, fun _ _ => rfl, fun {q} hq => ?_, fun _ => rfl,
    fun {x} _ => ?_⟩
  · rw [hshape hq, List.length_nil]
    lia
  · rw [List.length_nil, if_neg (by omega)]

theorem wp_writeLoop {fuel : ℕ} (hx : Exclusive sb.nmeta sb.size d.used (cells d f))
    (hshape : ∀ {q}, q < MAXFILE → (blockAt d (f i) q ≠ 0 ↔ q < n)) (hoff : off ≤ n * BSIZE)
    (hn : n ≤ MAXFILE) (hmax : off + src.length ≤ MAXFILE * BSIZE) (hfuel : src.length ≤ fuel) :
    wp OutOfBlocks (writeLoop sb fuel (f i) off src) (fun ip' d' => Wrote sb d f i n off src d' ip')
      d := by
  induction fuel generalizing d f n off src with
  | zero =>
    obtain rfl : src = [] := List.length_eq_zero_iff.mp (Nat.le_zero.mp hfuel)
    exact wp_pure.mpr (Wrote.nil hx hshape hoff)
  | succ fuel ih =>
    by_cases hpos : 0 < src.length
    · rw [writeLoop, if_pos hpos]
      have hbn : off / BSIZE < MAXFILE := by lia
      refine wp_bind.mpr (wp_mono (wp_bmap hx hbn) ?_)
      rintro ⟨b, ip₁⟩ d₁ hg
      have hm : min src.length (BSIZE - off % BSIZE) ≤ BSIZE - off % BSIZE := Nat.min_le_right ..
      have hml : min src.length (BSIZE - off % BSIZE) ≤ src.length := Nat.min_le_left ..
      have hm0 : 0 < min src.length (BSIZE - off % BSIZE) := by lia
      simp only
      generalize min src.length (BSIZE - off % BSIZE) = m at *
      have hlen : (src.take m).length = m := by
        rw [List.length_take]
        omega
      have hw : Wrote sb d f i n off (src.take m) _ _ :=
        hg.wrote hshape (by lia) hn (by omega) (by omega)
      refine wp_bind.mpr (wp_modify.mpr ?_)
      -- the number of blocks after this round
      let n₁ := max n (off / BSIZE + 1)
      have hn₁ (q : ℕ) : q < n₁ ↔ q < n ∨ q * BSIZE < off + (src.take m).length := by
        rw [hlen]
        lia
      have hrest : wp _ (writeLoop sb fuel _ (off + m) (src.drop m)) _ _ := ih (n := n₁) hw.excl
        (fun {q} hq => by rw [update_self, hw.shape hq, hn₁])
        (by simp only [n₁]; lia)
        (by simp only [n₁]; omega) (by rw [List.length_drop]; omega)
        (by rw [List.length_drop]; omega)
      rw [update_self] at hrest
      refine wp_mono hrest fun ip₂ d₂ hw₂ => ?_
      have := hw.append hn₁ (by rw [hlen]) hw₂
      rwa [List.take_append_drop] at this
    · obtain rfl : src = [] := List.length_eq_zero_iff.mp (by omega)
      rw [writeLoop, if_neg hpos]
      exact wp_pure.mpr (Wrote.nil hx hshape hoff)

end Contents

end Xv6Mlfq.Blocks
