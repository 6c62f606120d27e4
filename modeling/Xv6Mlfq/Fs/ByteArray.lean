import Xv6Mlfq.Fs.Owned
import Mathlib.Data.Finset.Card

/-!
# Files are byte arrays

`readi` and `writei` by the list of bytes that an inode holds.  A write that is not refused replaces
and extends this list, and changes no other inode; it fails only if `balloc` finds no block, and it
finds one as long as there is one more free than the inode is to grow by.

## Main definitions

* `contents d ip` — the bytes of an inode.
* `overwrite bs off src` — `bs` with `src` from `off` on.
* `freeBlocks sb d` — the number of free blocks.

## Main results

* `wp_writei_room` — with enough free blocks, `writei` does not fail.
* `byte_array` — `readi` and `writei` are those of a byte array.
-/

namespace Xv6Mlfq.Blocks

open Function (update update_self update_of_ne)
open Ownership (Exclusive)
open Wp (wp wp_mono wp_bind wp_pure wp_look wp_modify wp_and)

/-! ## Bytes of an inode -/

def contents (d : Disk) (ip : Dinode) : List UInt8 := (List.range ip.size).map (byteAt d ip)

theorem length_contents (d : Disk) (ip : Dinode) : (contents d ip).length = ip.size := by
  rw [contents, List.length_map, List.length_range]

/-- The bytes `bs` with `src` from `off` on -/
def overwrite (bs : List UInt8) (off : ℕ) (src : List UInt8) : List UInt8 :=
  bs.take off ++ src ++ bs.drop (off + src.length)

variable {bs src : List UInt8} {off : ℕ}

theorem length_overwrite (hoff : off ≤ bs.length) :
    (overwrite bs off src).length = max bs.length (off + src.length) := by
  rw [overwrite, List.length_append, List.length_append, List.length_take, List.length_drop]
  omega

theorem getD_overwrite {x : ℕ} (hoff : off ≤ bs.length) : (overwrite bs off src).getD x 0 =
      if off ≤ x ∧ x < off + src.length then src.getD (x - off) 0 else bs.getD x 0 := by
  have htake : (bs.take off).length = off := by
    rw [List.length_take]
    omega
  rw [overwrite, List.append_assoc]
  by_cases hlt : x < off
  · rw [if_neg (by omega), List.getD_append _ _ _ _ (by omega), List.getD_eq_getElem?_getD,
      List.getElem?_take_of_lt hlt, List.getD_eq_getElem?_getD]
  rw [List.getD_append_right _ _ _ _ (by omega), htake]
  by_cases hin : x < off + src.length
  · rw [if_pos ⟨by omega, hin⟩, List.getD_append _ _ _ _ (by omega)]
  · rw [if_neg (by omega), List.getD_append_right _ _ _ _ (by omega), List.getD_eq_getElem?_getD,
      List.getElem?_drop, List.getD_eq_getElem?_getD]
    congr 2
    omega

/-- Two lists of bytes are the same if they have the same length and the same bytes. -/
theorem eq_of_getD {as : List UInt8} (hlen : as.length = bs.length)
    (h : ∀ x < as.length, as.getD x 0 = bs.getD x 0) : as = bs := by
  apply List.ext_getElem hlen
  intro x hx hx'
  have := h x hx
  rwa [List.getD_eq_getElem _ _ hx, List.getD_eq_getElem _ _ hx'] at this

theorem getD_contents {d : Disk} {ip : Dinode} {x : ℕ} (hx : x < ip.size) :
    (contents d ip).getD x 0 = byteAt d ip x := by
  rw [List.getD_eq_getElem _ _ (by rwa [length_contents])]
  simp [contents]

/-! ## Free blocks -/

/-- The number of free blocks -/
def freeBlocks (sb : Superblock) (d : Disk) : ℕ :=
  ((Finset.range sb.size).filter fun b => d.used b = false).card

variable {F : String → Prop} {sb : Superblock} {devsw : Devsw} {d : Disk} {f : ℕ → Dinode} {i : ℕ}

/-- A block is taken. -/
theorem freeBlocks_take {b : ℕ} {block : ℕ → Bytes} (hb : b < sb.size) (hfree : d.used b = false) :
    freeBlocks sb ⟨update d.used b true, block⟩ + 1 = freeBlocks sb d := by
  have hmem : b ∈ (Finset.range sb.size).filter fun b => d.used b = false :=
    Finset.mem_filter.mpr ⟨Finset.mem_range.mpr hb, hfree⟩
  have herase : (Finset.range sb.size).filter (fun a => update d.used b true a = false) =
      ((Finset.range sb.size).filter fun b => d.used b = false).erase b := by
    ext a
    by_cases ha : a = b
    · simp [ha]
    · simp [ha]
  rw [freeBlocks, freeBlocks, herase, Finset.card_erase_add_one hmem]

/-- `balloc` finds a block if there is one. -/
theorem wp_balloc_room (hzero : d.used 0 = true) (hfree : 0 < freeBlocks sb d) :
    wp F (balloc sb) (fun b d' => b ≠ 0 ∧ d'.used 0 = true ∧ (∀ j, (d'.block b).word j = 0) ∧
      freeBlocks sb d' + 1 = freeBlocks sb d) d := by
  obtain ⟨b, hb⟩ := Finset.card_pos.mp hfree
  obtain ⟨hlt, hunused⟩ := Finset.mem_filter.mp hb
  have hsome : ((List.range sb.size).find? fun b => d.used b = false).isSome = true := by
    rw [List.find?_isSome]
    exact ⟨b, List.mem_range.mpr (Finset.mem_range.mp hlt), by simpa using hunused⟩
  obtain ⟨a, ha⟩ := Option.isSome_iff_exists.mp hsome
  have hafree : d.used a = false := by simpa using List.find?_some ha
  have halt : a < sb.size := List.mem_range.mp (List.mem_of_find?_eq_some ha)
  have hne : a ≠ 0 := by
    rintro rfl
    rw [hzero] at hafree
    cases hafree
  have hrun : balloc sb d = .ok (a, ⟨update d.used a true, update d.block a fun _ => 0⟩) := by
    rw [balloc, ha]
  rw [Wp.wp_of_ok hrun]
  refine ⟨hne, ?_, ?_, freeBlocks_take halt hafree⟩
  · exact (update_of_ne (Ne.symm hne) _ _).trans hzero
  · intro j
    dsimp only
    rw [update_self, Bytes.word_zero]

/-- The blocks that can be had: the free ones, and one if there is an indirect block already -/
def spare (sb : Superblock) (d : Disk) (ip : Dinode) : ℕ :=
  freeBlocks sb d + if ip.addrs NDIRECT = 0 then 0 else 1

/-- A new block makes one less to be had, with the indirect block or without. -/
theorem wp_bmap_room {ip : Dinode} {bn : ℕ} (hzero : d.used 0 = true) (hbn : bn < MAXFILE)
    (hroom : 2 ≤ spare sb d ip) (hnew : blockAt d ip bn = 0) :
    wp F (bmap sb ip bn) (fun r d' => spare sb d' r.2 + 1 = spare sb d ip) d := by
  rw [bmap]
  by_cases hd : bn < NDIRECT
  · rw [blockAt, pos_direct hd, place_slot hd.le] at hnew
    have hfree : 0 < freeBlocks sb d := by
      rw [spare] at hroom
      split_ifs at hroom <;> omega
    rw [if_pos hd, slot, if_pos hnew, wp_bind]
    apply wp_mono (wp_balloc_room hzero hfree)
    rintro b d' ⟨_, _, _, hcount⟩
    have hind : (ip.setAddr bn b).addrs NDIRECT = ip.addrs NDIRECT := update_of_ne (by omega) _ _
    rw [wp_pure, spare, spare, hind]
    omega
  have hj : bn - NDIRECT < NINDIRECT := by lia
  rw [if_neg hd, if_pos hj, wp_bind, slot]
  by_cases hind : ip.addrs NDIRECT = 0
  · have hspare : spare sb d ip = freeBlocks sb d := by rw [spare, if_pos hind, Nat.add_zero]
    rw [hspare] at hroom ⊢
    rw [if_pos hind, wp_bind]
    apply wp_mono (wp_balloc_room hzero (by omega))
    rintro b d₁ ⟨hb, hzero₁, hword, hcount₁⟩
    rw [wp_pure]
    rw [wp_bind, word, wp_bind, wp_look, if_pos (hword _), wp_bind]
    apply wp_mono (wp_balloc_room hzero₁ (by omega))
    rintro b' d₂ ⟨_, _, _, hcount₂⟩
    have hb' : (ip.setAddr NDIRECT b).addrs NDIRECT ≠ 0 := by
      rw [Dinode.setAddr]
      dsimp only
      rwa [update_self]
    rw [wp_bind, wp_modify, wp_pure, wp_pure, spare, if_neg hb']
    have hsame : freeBlocks sb ⟨d₂.used,
        update d₂.block b ((d₂.block b).setWord (bn - NDIRECT) b')⟩ = freeBlocks sb d₂ := rfl
    rw [hsame]
    omega
  · have hspare : spare sb d ip = freeBlocks sb d + 1 := by rw [spare, if_neg hind]
    rw [hspare] at hroom ⊢
    have hat : (d.block (ip.addrs NDIRECT)).word (bn - NDIRECT) = 0 := by
      rw [← hnew, blockAt, pos_indirect hd, place_word hind hj]
    rw [if_neg hind, wp_pure]
    rw [wp_bind, word, wp_bind, wp_look, if_pos hat, wp_bind]
    apply wp_mono (wp_balloc_room hzero (by omega))
    rintro b d' ⟨_, _, _, hcount⟩
    rw [wp_bind, wp_modify, wp_pure, wp_pure, spare, if_neg hind]
    have hsame : freeBlocks sb ⟨d'.used, update d'.block (ip.addrs NDIRECT)
        ((d'.block (ip.addrs NDIRECT)).setWord (bn - NDIRECT) b)⟩ = freeBlocks sb d' := rfl
    rw [hsame]
    omega

/-- The loop of `writei` does not fail.  By induction on the rounds: each one that needs a block
leaves enough for the others. -/
theorem wp_writeLoop_room {n fuel : ℕ} (hx : Exclusive sb.nmeta sb.size d.used (cells d f))
    (hshape : ∀ {q}, q < MAXFILE → (blockAt d (f i) q ≠ 0 ↔ q < n)) (hoff : off ≤ n * BSIZE)
    (hn : n ≤ MAXFILE) (hmax : off + src.length ≤ MAXFILE * BSIZE)
    (hroom : n < nblocks (off + src.length) → nblocks (off + src.length) - n < spare sb d (f i)) :
    wp F (writeLoop sb fuel (f i) off src) (fun _ _ => True) d := by
  induction fuel generalizing d f n off src with
  | zero => exact wp_pure.mpr trivial
  | succ fuel ih =>
    rw [writeLoop]
    by_cases hpos : 0 < src.length
    swap
    · rw [if_neg hpos]
      exact wp_pure.mpr trivial
    have hbn : off / BSIZE < MAXFILE := by lia
    have hle : off / BSIZE ≤ n := by lia
    have hused : d.used 0 = true := hx.low hx.lo_pos
    have hnb : off / BSIZE < nblocks (off + src.length) := by
      rw [lt_nblocks]
      lia
    -- what is left after this round
    have hbmap : wp F (bmap sb (f i) (off / BSIZE)) (fun r d' =>
        max n (off / BSIZE + 1) < nblocks (off + src.length) →
          nblocks (off + src.length) - max n (off / BSIZE + 1) < spare sb d' r.2) d := by
      by_cases hnew : blockAt d (f i) (off / BSIZE) = 0
      · have heq : off / BSIZE = n := by
          have := (hshape hbn).not.mp (not_not.mpr hnew)
          omega
        apply wp_mono (wp_bmap_room hused hbn (by omega) hnew)
        intro r d' hspare
        omega
      · apply wp_mono (wp_bmap_found hbn hnew)
        rintro r d' ⟨rfl, rfl⟩
        have := (hshape hbn).mp hnew
        rw [max_eq_left (by omega)]
        exact hroom
    rw [if_pos hpos, wp_bind]
    apply wp_mono (wp_and hbmap (wp_bmap hx hbn))
    rintro ⟨b, ip₁⟩ d₁ ⟨hroom₁, hg⟩
    have hm : min src.length (BSIZE - off % BSIZE) ≤ BSIZE - off % BSIZE := Nat.min_le_right ..
    have hml : min src.length (BSIZE - off % BSIZE) ≤ src.length := Nat.min_le_left ..
    have hm0 : 0 < min src.length (BSIZE - off % BSIZE) := by lia
    generalize min src.length (BSIZE - off % BSIZE) = m at *
    have hlen : (src.take m).length = m := by
      rw [List.length_take]
      omega
    have hw : Wrote sb d f i n off (src.take m) _ _ :=
      hg.wrote hshape hle hn (by omega) (by omega)
    rw [wp_bind, wp_modify]
    have hrest : wp F (writeLoop sb fuel (update f i ip₁ i) (off + m) (src.drop m)) _ _ :=
      ih (n := max n (off / BSIZE + 1)) hw.excl (fun {q} hq => ?_) ?_ ?_ ?_ ?_
    · rw [update_self] at hrest
      exact hrest
    · rw [update_self, hw.shape hq, hlen]
      lia
    · lia
    · omega
    · rw [List.length_drop]
      omega
    · rw [update_self, List.length_drop, show off + m + (src.length - m) = off +
        src.length by omega]
      exact hroom₁

/-- `writei` does not fail if the inode is not to grow, or there is one block more than it is to
grow by. -/
theorem wp_writei_room (h : Owned sb d f) (hdev : (f i).type ≠ .dev)
    (hoff : off ≤ (f i).size) (hmax : off + src.length ≤ MAXFILE * BSIZE)
    (hroom : nblocks (f i).size < nblocks (off + src.length) →
      nblocks (off + src.length) - nblocks (f i).size < freeBlocks sb d) :
    wp F (writei sb devsw (f i) src off) (fun _ _ => True) d := by
  have hsize := h.size_le i
  have hwrap : (off + src.length) % 2 ^ 32 = off + src.length := by lia
  have hn : nblocks (f i).size ≤ MAXFILE := by
    rw [nblocks]
    lia
  have hspare : nblocks (f i).size < nblocks (off + src.length) →
      nblocks (off + src.length) - nblocks (f i).size < spare sb d (f i) :=
    fun hmore => (hroom hmore).trans_le (Nat.le_add_right _ _)
  rw [writei, if_neg hdev, if_neg (by rw [hwrap]; omega), if_neg (by rw [hwrap]; omega), wp_bind]
  apply wp_mono (wp_writeLoop_room h.excl h.shape (hoff.trans (le_nblocks _)) hn hmax hspare)
  intro ip' d' _
  split_ifs
  · exact wp_pure.mpr trivial
  · exact wp_pure.mpr trivial

/-! ## The specification -/

theorem Writes.contents_self {r : ℤ × Dinode × Bool} {d' : Disk}
    (h : Writes sb d f i off src r d') (hoff : off ≤ (f i).size) :
    contents d' r.2.1 = overwrite (contents d (f i)) off src := by
  have hsize : r.2.1.size = max (f i).size (off + src.length) := by rw [h.inode]
  have hoff' : off ≤ (contents d (f i)).length := by rwa [length_contents]
  apply eq_of_getD
  · rw [length_overwrite hoff', length_contents, length_contents, hsize]
  · intro x hx
    rw [length_contents] at hx
    rw [getD_contents hx, h.byte (by omega), getD_overwrite hoff']
    by_cases hin : off ≤ x ∧ x < off + src.length
    · rw [if_pos hin, if_pos hin]
    · rw [if_neg hin, if_neg hin, getD_contents (by omega)]

theorem Writes.contents_other {r : ℤ × Dinode × Bool} {d' : Disk}
    (h : Writes sb d f i off src r d') {j : ℕ} (hj : j ≠ i) :
    contents d' (f j) = contents d (f j) := by
  apply List.map_congr_left
  intro x hx
  exact h.other hj (List.mem_range.mp hx)

theorem map_byteAt (off n : ℕ) (ip : Dinode) :
    (List.range (min n (ip.size - off))).map (fun k => byteAt d ip (off + k)) =
      ((contents d ip).drop off).take n := by
  apply List.ext_getElem
  · rw [List.length_map, List.length_range, List.length_take, List.length_drop, length_contents]
  · intro k hk hk'
    simp [contents]

/-- **Files and directories are byte arrays.**  A write that goes past the end, wraps or is too long
changes nothing; any other returns the number of bytes, and replaces and extends the contents, and
those of no other inode, or finds no free block, which it does only if there are too few.  A read
returns the bytes there are. -/
theorem byte_array (h : Owned sb d f) (htype : (f i).type = .file ∨ (f i).type = .dir) :
    (∀ src off, src.length < 2 ^ 32 → off < 2 ^ 32 →
      ((f i).size < off ∨ 2 ^ 32 ≤ off + src.length ∨ MAXFILE * BSIZE < off + src.length →
        writei sb devsw (f i) src off d = .ok ((-1, f i, false), d)) ∧
      (off ≤ (f i).size → off + src.length < 2 ^ 32 → off + src.length ≤ MAXFILE * BSIZE →
        writei sb devsw (f i) src off d = .error "balloc: out of blocks" ∧
          nblocks (f i).size < nblocks (off + src.length) ∧
          freeBlocks sb d ≤ nblocks (off + src.length) - nblocks (f i).size ∨
        ∃ ip' iupdate d', writei sb devsw (f i) src off d = .ok ((src.length, ip', iupdate), d') ∧
          contents d' ip' = overwrite (contents d (f i)) off src ∧
          ip'.size = max (f i).size (off + src.length) ∧
          (∀ j, j ≠ i → contents d' (f j) = contents d (f j)) ∧ Owned sb d' (update f i ip'))) ∧
    ∀ off n, off < 2 ^ 32 → n < 2 ^ 32 → readi sb devsw (f i) off n d =
      .ok ((if (f i).size < off ∨ 2 ^ 32 ≤ off + n then none
        else some (((contents d (f i)).drop off).take n), f i), d) := by
  have hdev : (f i).type ≠ .dev := by rcases htype with ht | ht <;> rw [ht] <;> decide
  have hfree : (f i).type ≠ .free := by rcases htype with ht | ht <;> rw [ht] <;> decide
  refine ⟨?_, ?_⟩
  · intro src off hlen ho
    refine ⟨?_, ?_⟩
    · intro hno
      have hno' : (f i).type = .dev ∨ (f i).size < off ∨ MAXFILE * BSIZE < off + src.length := by
        lia
      have hrefused : wp (fun _ => False) (writei sb devsw (f i) src off) _ d :=
        wp_writei_refused hlen hno'
      obtain ⟨⟨ret, ip', iupdate⟩, d', hrun, hsame, rfl, hret⟩ := Wp.exists_ok hrefused
      cases hsame
      obtain rfl : ret = -1 := hret hdev
      exact hrun
    · intro hoff _ hmax
      have hwrite : wp OutOfBlocks (writei sb devsw (f i) src off) (Writes sb d f i off src) d :=
        wp_writei h hdev hfree hoff hmax
      cases hrun : writei sb devsw (f i) src off d with
      | error e =>
        obtain rfl : OutOfBlocks e := Wp.wp_error hwrite hrun
        refine .inl ⟨rfl, ?_⟩
        by_contra hno
        have hroom : wp (fun _ => False) (writei sb devsw (f i) src off) (fun _ _ => True) d :=
          wp_writei_room h hdev hoff hmax fun hmore => not_le.mp fun hle => hno ⟨hmore, hle⟩
        exact Wp.wp_error hroom hrun
      | ok p =>
        obtain ⟨⟨ret, ip', iupdate⟩, d'⟩ := p
        have hw := Wp.wp_ok hwrite hrun
        obtain rfl : ret = src.length := hw.ret
        refine .inr ⟨ip', iupdate, d', rfl, hw.contents_self hoff, ?_,
          fun j hj => hw.contents_other hj, hw.owned⟩
        have hinode := hw.inode
        dsimp only at hinode
        rw [hinode]
  · intro off n ho hn
    by_cases hno : (f i).size < off ∨ 2 ^ 32 ≤ off + n
    · have htest : off > (f i).size ∨ (off + n) % 2 ^ 32 < off := by lia
      rw [if_pos hno, readi, if_neg hdev, if_pos htest]
      rfl
    · rw [if_neg hno]
      have hread : wp (fun _ => False) (readi sb devsw (f i) off n) _ d :=
        wp_readi h hdev (by omega) (by omega)
      obtain ⟨r, d', hrun, rfl, rfl⟩ := Wp.exists_ok hread
      rw [hrun, map_byteAt]

/-- An empty file gets three bytes. -/
theorem byte_array_three : ∃ ip' iupdate d', writei tinySb (fun _ => none)
    ⟨.file, 0, 0, 0, fun _ => 0⟩
      [1, 2, 3] 0 tinyDisk = .ok ((3, ip', iupdate), d') ∧ contents d' ip' = [1, 2, 3] := by
  let f : ℕ → Dinode := update tinyDinode 1 ⟨.file, 0, 0, 0, fun _ => 0⟩
  have howned : Owned tinySb tinyDisk f := tiny_owned.alloc rfl .file
  obtain ⟨hfail, -⟩ | ⟨ip', iupdate, d', hrun, hcontents, -⟩ :=
    ((byte_array (i := 1) howned (.inl rfl)).1 [1, 2, 3] 0 (by decide) (by decide)).2 (by decide)
      (by decide) (by decide)
  · cases hfail
  · exact ⟨ip', iupdate, d', hrun, hcontents⟩

end Xv6Mlfq.Blocks
