import Xv6Mlfq.Fs.Blocks
import Xv6Mlfq.Lib.Ownership
import Mathlib.Tactic.NormNum
import Mathlib.Tactic.SplitIfs

/-!
# The addresses of an inode

An inode has `NDIRECT` slots for blocks of its contents, a slot for the indirect block, and the
words of that block.  `place` numbers them all, so that the addresses of all inodes are one table,
`cells`.  What `balloc`, `bmap` and `itrunc` do to an inode is said in terms of this table.

## Main definitions

* `place`, `cells` — the addresses.
* `blockAt` — the block with a part of the contents.
* `Grows` — what `bmap` may do.

## Main results

* `wp_bmap` — an inode gets a block where it has none.
* `wp_bmap_found` — where it has one, nothing changes.
* `wp_itrunc` — all blocks of an inode are freed.
-/

namespace Xv6Mlfq.Blocks

open Function (update update_self update_of_ne)
open Ownership (Exclusive)
open Wp (wp wp_mono wp_bind wp_pure wp_look wp_modify)

/-! ## Words -/

theorem Bytes.word_zero (k : ℕ) : Bytes.word (fun _ => 0) k = 0 := rfl

theorem Bytes.word_setWord {b : Bytes} {k v : ℕ} (hv : v < 2 ^ 32) (j : ℕ) :
    (b.setWord k v).word j = if j = k then v else b.word j := by
  by_cases hj : j = k
  · subst hj
    have h0 : 4 * j / 4 = j := by omega
    have h1 : (4 * j + 1) / 4 = j := by omega
    have h2 : (4 * j + 2) / 4 = j := by omega
    have h3 : (4 * j + 3) / 4 = j := by omega
    have m0 : 4 * j % 4 = 0 := by omega
    have m1 : (4 * j + 1) % 4 = 1 := by omega
    have m2 : (4 * j + 2) % 4 = 2 := by omega
    have m3 : (4 * j + 3) % 4 = 3 := by omega
    simp only [word, setWord, h0, h1, h2, h3, m0, m1, m2, m3, if_true, UInt8.toNat_ofNat',
      Nat.toUInt8_eq]
    lia
  · have h0 : 4 * j / 4 ≠ k := by omega
    have h1 : (4 * j + 1) / 4 ≠ k := by omega
    have h2 : (4 * j + 2) / 4 ≠ k := by omega
    have h3 : (4 * j + 3) / 4 ≠ k := by omega
    simp only [word, setWord, h0, h1, h2, h3, hj, if_false]

/-! ## Places -/

@[simp] theorem Dinode.setAddr_addrs (ip : Dinode) (k addr : ℕ) :
    (ip.setAddr k addr).addrs = update ip.addrs k addr := rfl

/-- The addresses of an inode: its slots, and after them the words of the indirect block. -/
def place (d : Disk) (ip : Dinode) (p : ℕ) : ℕ :=
  if p ≤ NDIRECT then ip.addrs p
  else if ip.addrs NDIRECT = 0 ∨ MAXFILE < p then 0
  else (d.block (ip.addrs NDIRECT)).word (p - (NDIRECT + 1))

/-- Where the address of block `q` of an inode is. -/
def pos (q : ℕ) : ℕ := if q < NDIRECT then q else q + 1

theorem pos_inj {q r : ℕ} (h : pos q = pos r) : q = r := by
  unfold pos at h
  split_ifs at h <;> omega

theorem pos_ne (q : ℕ) : pos q ≠ NDIRECT := by
  unfold pos
  split_ifs <;> omega

/-- The block with the contents from `q * BSIZE` on, 0 if there is none. -/
def blockAt (d : Disk) (ip : Dinode) (q : ℕ) : ℕ := place d ip (pos q)

/-- All addresses of all inodes. -/
def cells (d : Disk) (f : ℕ → Dinode) (x : ℕ × ℕ) : ℕ := place d (f x.1) x.2

section Places

variable {sb : Superblock} {d : Disk} {f : ℕ → Dinode} {i : ℕ}

variable {ip : Dinode} {used : ℕ → Bool}

theorem place_slot {k : ℕ} (hk : k ≤ NDIRECT) : place d ip k = ip.addrs k := by
  rw [place, if_pos hk]

theorem place_word {j : ℕ} (hind : ip.addrs NDIRECT ≠ 0) (hj : j < NINDIRECT) :
    place d ip (NDIRECT + 1 + j) = (d.block (ip.addrs NDIRECT)).word j := by
  rw [place, if_neg (by omega), if_neg (by simp only [hind, false_or]; lia),
    Nat.add_sub_cancel_left]

/-- Only the indirect block matters. -/
theorem place_congr {d' : Disk}
    (h : ip.addrs NDIRECT ≠ 0 → d'.block (ip.addrs NDIRECT) = d.block (ip.addrs NDIRECT)) (p : ℕ) :
    place d' ip p = place d ip p := by
  unfold place
  split_ifs with h₁ h₂
  · rfl
  · rfl
  · rw [h fun h0 => h₂ (.inl h0)]

/-- An inode without addresses -/
theorem place_none (h : ∀ k ≤ NDIRECT, ip.addrs k = 0) (p : ℕ) : place d ip p = 0 := by
  unfold place
  split_ifs with h₁ h₂
  · exact h _ h₁
  · rfl
  · exact absurd (.inl (h NDIRECT le_rfl)) h₂

/-- A slot gets a new block. -/
theorem cells_slot {b k : ℕ} (hfresh : ∀ x, cells d f x ≠ b) (hb : b ≠ 0)
    (hk : k ≤ NDIRECT) (h0 : (f i).addrs k = 0) :
    cells ⟨used, update d.block b fun _ => 0⟩ (update f i ((f i).setAddr k b)) =
      update (cells d f) (i, k) b := by
  have hind (j : ℕ) : (f j).addrs NDIRECT ≠ b := by
    have := hfresh (j, NDIRECT)
    rwa [cells, place_slot le_rfl] at this
  funext ⟨j, p⟩
  by_cases hj : j = i
  · subst hj
    rw [cells, update_self]
    by_cases hp : p = k
    · subst hp
      rw [place_slot hk, update_self, Dinode.setAddr_addrs, update_self]
    · rw [update_of_ne (by simp [hp]), cells]
      by_cases hp' : p ≤ NDIRECT
      · rw [place_slot hp', place_slot hp', Dinode.setAddr_addrs, update_of_ne hp]
      · by_cases hk' : k = NDIRECT
        · -- the new indirect block has no addresses yet
          subst hk'
          simp [place, hp', h0, hb, Bytes.word_zero]
        · have hne : NDIRECT ≠ k := Ne.symm hk'
          simp [place, hp', update_of_ne hne, update_of_ne (hind j)]
  · rw [update_of_ne (by simp [hj]), cells, cells, update_of_ne hj]
    exact place_congr (fun _ => update_of_ne (hind j) _ _) p

/-- A word of the indirect block gets a new block. -/
theorem cells_word {b j : ℕ} (hx : Exclusive sb.nmeta sb.size d.used (cells d f))
    (hfresh : ∀ x, cells d f x ≠ b) (hlt : b < 2 ^ 32) (hj : j < NINDIRECT)
    (hind : (f i).addrs NDIRECT ≠ 0) :
    cells ⟨used, update (update d.block b fun _ => 0) ((f i).addrs NDIRECT)
        ((d.block ((f i).addrs NDIRECT)).setWord j b)⟩ f =
      update (cells d f) (i, NDIRECT + 1 + j) b := by
  have hne (i : ℕ) : (f i).addrs NDIRECT ≠ b := by
    have := hfresh (i, NDIRECT)
    rwa [cells, place_slot le_rfl] at this
  funext ⟨i', p⟩
  by_cases hi : i' = i
  · subst hi
    rw [cells]
    by_cases hp' : p ≤ NDIRECT
    · rw [update_of_ne (by simp; omega), place_slot hp', cells, place_slot hp']
    · by_cases hp : p ≤ MAXFILE
      · obtain ⟨j', rfl⟩ : ∃ j', p = NDIRECT + 1 + j' := ⟨p - (NDIRECT + 1), by omega⟩
        have hj' : j' < NINDIRECT := by lia
        rw [place_word hind hj']
        simp only [update_self]
        rw [Bytes.word_setWord hlt]
        by_cases hjj : j' = j
        · rw [if_pos hjj, hjj, update_self]
        · rw [if_neg hjj, update_of_ne (by simp [hjj]), cells, place_word hind hj']
      · rw [update_of_ne (by simp; lia), cells, place, place,
          if_neg hp', if_neg hp', if_pos (.inr (by omega)), if_pos (.inr (by omega))]
  · rw [update_of_ne (by simp [hi]), cells, cells]
    refine place_congr (fun h0 => ?_) p
    have hii : (f i').addrs NDIRECT ≠ (f i).addrs NDIRECT := by
      intro he
      have := hx.inj (p := (i', NDIRECT)) (q := (i, NDIRECT))
      simp only [cells, place_slot le_rfl] at this
      exact hi (Prod.ext_iff.mp (this h0 he)).1
    simp only [update_of_ne hii, update_of_ne (hne i')]

/-- The contents of a block do not matter, if it is not an indirect block. -/
theorem cells_data {p : ℕ} {x : Bytes}
    (hx : Exclusive sb.nmeta sb.size d.used (cells d f)) (hp : p ≠ NDIRECT)
    (h0 : cells d f (i, p) ≠ 0) :
    cells ⟨used, update d.block (cells d f (i, p)) x⟩ f = cells d f := by
  funext ⟨j, r⟩
  rw [cells, cells]
  refine place_congr (fun _ => ?_) r
  have hne : (f j).addrs NDIRECT ≠ cells d f (i, p) := by
    intro he
    have := hx.inj (p := (i, p)) (q := (j, NDIRECT)) h0
    rw [show cells d f (j, NDIRECT) = (f j).addrs NDIRECT from place_slot le_rfl] at this
    exact hp (Prod.ext_iff.mp (this he.symm)).2
  exact update_of_ne hne _ _

end Places

/-! ## Allocation -/

/-- The only way in which a write may fail -/
def OutOfBlocks (msg : String) : Prop := msg = "balloc: out of blocks"

section Allocation

variable {sb : Superblock} {d : Disk} {f : ℕ → Dinode} {i : ℕ}

theorem wp_balloc : wp OutOfBlocks (balloc sb) (fun b d' => b < sb.size ∧ d.used b = false ∧
    d' = ⟨update d.used b true, update d.block b fun _ => 0⟩) d := by
  unfold wp balloc
  cases hf : (List.range sb.size).find? fun b => d.used b = false with
  | none => exact rfl
  | some b =>
    have hused : d.used b = false := by simpa using List.find?_some hf
    exact ⟨List.mem_range.mp (List.mem_of_find?_eq_some hf), hused, rfl⟩

/-- A place gets the block `b`, which was nobody's. -/
structure Takes (sb : Superblock) (d : Disk) (f : ℕ → Dinode) (x : ℕ × ℕ) (b : ℕ) (d' : Disk)
    (f' : ℕ → Dinode) : Prop where
  excl : Exclusive sb.nmeta sb.size d'.used (cells d' f')
  cells_eq : cells d' f' = update (cells d f) x b
  fresh : ∀ y, cells d f y ≠ b
  ne_zero : b ≠ 0

theorem takes_slot {b k : ℕ} (hx : Exclusive sb.nmeta sb.size d.used (cells d f)) (hb : b < sb.size)
    (hfree : d.used b = false) (hk : k ≤ NDIRECT) (h0 : (f i).addrs k = 0) :
    Takes sb d f (i, k) b ⟨update d.used b true, update d.block b fun _ => 0⟩
      (update f i ((f i).setAddr k b)) := by
  obtain ⟨hlo, hfresh⟩ := hx.fresh hb hfree
  have hb0 : b ≠ 0 := by
    have := hx.lo_pos
    omega
  have hcells : cells ⟨update d.used b true, _⟩ _ = _ := cells_slot hfresh hb0 hk h0
  have hcell : cells d f (i, k) = 0 := by rw [cells, place_slot hk, h0]
  refine ⟨?_, hcells, hfresh, hb0⟩
  rw [hcells]
  exact hx.take hb hfree hcell

theorem takes_word {b j : ℕ} (hx : Exclusive sb.nmeta sb.size d.used (cells d f)) (hb : b < sb.size)
    (hfree : d.used b = false) (hj : j < NINDIRECT) (hind : (f i).addrs NDIRECT ≠ 0)
    (h0 : (d.block ((f i).addrs NDIRECT)).word j = 0) :
    Takes sb d f (i, NDIRECT + 1 + j) b
      ⟨update d.used b true, update (update d.block b fun _ => 0) ((f i).addrs NDIRECT)
        ((d.block ((f i).addrs NDIRECT)).setWord j b)⟩ f := by
  obtain ⟨hlo, hfresh⟩ := hx.fresh hb hfree
  have hb0 : b ≠ 0 := by
    have := hx.lo_pos
    omega
  have hcells : cells ⟨update d.used b true, _⟩ f = _ :=
    cells_word hx hfresh (hb.trans sb.size_lt) hj hind
  have hcell : cells d f (i, NDIRECT + 1 + j) = 0 := by rw [cells, place_word hind hj, h0]
  refine ⟨?_, hcells, hfresh, hb0⟩
  rw [hcells]
  exact hx.take hb hfree hcell

theorem wp_slot_new {k : ℕ} (hx : Exclusive sb.nmeta sb.size d.used (cells d f)) (hk : k ≤ NDIRECT)
    (h0 : (f i).addrs k = 0) :
    wp OutOfBlocks (slot sb (f i) k) (fun r d' => r.2 = (f i).setAddr k r.1 ∧
      Takes sb d f (i, k) r.1 d' (update f i r.2) ∧ ∀ a, a ≠ r.1 → d'.block a = d.block a) d := by
  unfold slot
  rw [if_pos h0]
  refine wp_bind.mpr (wp_mono wp_balloc ?_)
  rintro b d' ⟨hb, hfree, rfl⟩
  exact wp_pure.mpr ⟨rfl, takes_slot hx hb hfree hk h0, fun a ha => update_of_ne ha ..⟩

theorem wp_word_new {j : ℕ} (hx : Exclusive sb.nmeta sb.size d.used (cells d f))
    (hj : j < NINDIRECT) (hind : (f i).addrs NDIRECT ≠ 0)
    (h0 : (d.block ((f i).addrs NDIRECT)).word j = 0) :
    wp OutOfBlocks (word sb ((f i).addrs NDIRECT) j) (fun b d' =>
      Takes sb d f (i, NDIRECT + 1 + j) b d' f ∧
      ∀ a, a ≠ b → a ≠ (f i).addrs NDIRECT → d'.block a = d.block a) d := by
  refine wp_bind.mpr (wp_look.mpr ?_)
  rw [if_pos h0]
  refine wp_bind.mpr (wp_mono wp_balloc ?_)
  rintro b d' ⟨hb, hfree, rfl⟩
  have ht := takes_word hx hb hfree hj hind h0
  have hne : (f i).addrs NDIRECT ≠ b := by
    have := ht.fresh (i, NDIRECT)
    rwa [cells, place_slot le_rfl] at this
  refine wp_bind.mpr (wp_modify.mpr (wp_pure.mpr ?_))
  simp only [update_of_ne hne]
  refine ⟨ht, fun a ha ha' => ?_⟩
  simp only [update_of_ne ha', update_of_ne ha]

/-! ## `bmap` -/

theorem pos_direct {q : ℕ} (h : q < NDIRECT) : pos q = q := if_pos h

theorem pos_indirect {q : ℕ} (h : ¬ q < NDIRECT) : pos q = NDIRECT + 1 + (q - NDIRECT) := by
  rw [pos, if_neg h]
  omega

/-- A block that is there is found, and nothing changes. -/
theorem wp_bmap_found {F : String → Prop} {ip : Dinode} {bn : ℕ} (hbn : bn < MAXFILE)
    (h : blockAt d ip bn ≠ 0) :
    wp F (bmap sb ip bn) (fun r d' => r = (blockAt d ip bn, ip) ∧ d' = d) d := by
  unfold bmap
  by_cases hd : bn < NDIRECT
  · have hat : blockAt d ip bn = ip.addrs bn := by
      rw [blockAt, pos_direct hd, place_slot (Nat.le_of_lt hd)]
    rw [hat] at h ⊢
    rw [if_pos hd, slot, if_neg h]
    exact wp_pure.mpr ⟨rfl, rfl⟩
  · have hj : bn - NDIRECT < NINDIRECT := by lia
    have hind : ip.addrs NDIRECT ≠ 0 := by
      intro h0
      refine h ?_
      rw [blockAt, pos_indirect hd, place, if_neg (by omega), if_pos (.inl h0)]
    have hat : blockAt d ip bn = (d.block (ip.addrs NDIRECT)).word (bn - NDIRECT) := by
      rw [blockAt, pos_indirect hd, place_word hind hj]
    rw [hat] at h ⊢
    rw [if_neg hd, if_pos hj, slot, if_neg hind]
    refine wp_bind.mpr (wp_pure.mpr (wp_bind.mpr ?_))
    refine wp_bind.mpr (wp_look.mpr ?_)
    rw [if_neg h]
    exact wp_pure.mpr (wp_pure.mpr ⟨rfl, rfl⟩)

/-- Inode `i` has the block `b` for its contents from `n * BSIZE` on, which may be new. -/
structure Grows (sb : Superblock) (d : Disk) (f : ℕ → Dinode) (i n b : ℕ) (d' : Disk)
    (ip' : Dinode) : Prop where
  excl : Exclusive sb.nmeta sb.size d'.used (cells d' (update f i ip'))
  addrs : ip' = { f i with addrs := ip'.addrs }
  old : ∀ {x}, cells d f x ≠ 0 → cells d' (update f i ip') x = cells d f x
  block : ∀ {x}, cells d f x ≠ 0 → x ≠ (i, NDIRECT) → d'.block (cells d f x) = d.block (cells d f x)
  only : ∀ {q}, q ≠ n → blockAt d' ip' q = blockAt d (f i) q
  new : blockAt d' ip' n = b
  ne_zero : b ≠ 0
  found : blockAt d (f i) n ≠ 0 → ip' = f i

theorem cells_update_self (d : Disk) (f : ℕ → Dinode) (i p : ℕ) (ip : Dinode) :
    cells d (update f i ip) (i, p) = place d ip p := by
  rw [cells, update_self]

theorem Takes.grows {n b : ℕ} {d' : Disk} {ip' : Dinode}
    (hx : Exclusive sb.nmeta sb.size d.used (cells d f))
    (h : Takes sb d f (i, pos n) b d' (update f i ip'))
    (haddrs : ip' = { f i with addrs := ip'.addrs }) (h0 : blockAt d (f i) n = 0)
    (hblock : ∀ a, a ≠ b → a ≠ (f i).addrs NDIRECT → d'.block a = d.block a) :
    Grows sb d f i n b d' ip' := by
  have hnew : ∀ {x}, cells d f x ≠ 0 → x ≠ (i, pos n) := by
    rintro x hx rfl
    exact hx h0
  refine ⟨h.excl, haddrs, fun {x} hx0 => ?_, fun {x} hx0 hxi => ?_, fun {q} hq => ?_, ?_, h.ne_zero,
    fun hne => absurd h0 hne⟩
  · rw [h.cells_eq, update_of_ne (hnew hx0)]
  · refine hblock _ (h.fresh x) fun he => hxi (hx.inj hx0 ?_)
    rw [he, cells, place_slot le_rfl]
  · have hne : (i, pos q) ≠ (i, pos n) := fun he => hq (pos_inj (Prod.ext_iff.mp he).2)
    rw [blockAt, ← cells_update_self d' f i, h.cells_eq, update_of_ne hne]
    rfl
  · rw [blockAt, ← cells_update_self d' f i, h.cells_eq, update_self]

/-- A new indirect block has no addresses yet. -/
theorem Takes.blockAt_indirect {b : ℕ} {d' : Disk} {ip' : Dinode}
    (h : Takes sb d f (i, NDIRECT) b d' (update f i ip')) (q : ℕ) :
    blockAt d' ip' q = blockAt d (f i) q := by
  have hne : (i, pos q) ≠ (i, NDIRECT) := fun he => pos_ne q (Prod.ext_iff.mp he).2
  rw [blockAt, ← cells_update_self d' f i, h.cells_eq, update_of_ne hne]
  rfl

/-- First the indirect block `ind`, then the block itself -/
theorem Takes.grows_indirect {n ind b : ℕ} {d₁ d₂ : Disk} {ip₁ : Dinode}
    (h : Takes sb d f (i, NDIRECT) ind d₁ (update f i ip₁))
    (haddrs : ip₁ = { f i with addrs := ip₁.addrs }) (hind : (f i).addrs NDIRECT = 0)
    (h0 : blockAt d (f i) n = 0) (hblock : ∀ a, a ≠ ind → d₁.block a = d.block a)
    (hg : Grows sb d₁ (update f i ip₁) i n b d₂ ip₁) : Grows sb d f i n b d₂ ip₁ := by
  have hold : ∀ {x}, cells d f x ≠ 0 → cells d₁ (update f i ip₁) x = cells d f x := by
    intro x hx0
    have hne : x ≠ (i, NDIRECT) := by
      rintro rfl
      exact hx0 (by rw [cells, place_slot le_rfl, hind])
    rw [h.cells_eq, update_of_ne hne]
  have hup : update (update f i ip₁) i ip₁ = update f i ip₁ := Function.update_idem ..
  refine ⟨hup ▸ hg.excl, haddrs, fun {x} hx0 => ?_, fun {x} hx0 hxi => ?_,
    fun {q} hq => (hg.only hq).trans (by rw [update_self, h.blockAt_indirect]), hg.new, hg.ne_zero,
    fun hne => absurd h0 hne⟩
  · rw [← hup, hg.old (by rwa [hold hx0]), hold hx0]
  · have := hg.block (x := x) (by rwa [hold hx0]) hxi
    rw [hold hx0] at this
    rw [this, hblock _ (h.fresh x)]

/-- A block that is there -/
theorem grows_found {n : ℕ} (hx : Exclusive sb.nmeta sb.size d.used (cells d f))
    (h0 : blockAt d (f i) n ≠ 0) : Grows sb d f i n (blockAt d (f i) n) d (f i) := by
  refine ⟨?_, rfl, fun {x} _ => ?_, fun _ _ => rfl, fun _ => rfl, rfl, h0, fun _ => rfl⟩
  · rwa [Function.update_eq_self]
  · rw [Function.update_eq_self]

/-- The part of `bmap` after the indirect block is there -/
theorem wp_bmap_word {n : ℕ} (hx : Exclusive sb.nmeta sb.size d.used (cells d f)) (hn : n < MAXFILE)
    (hd : ¬ n < NDIRECT) (hind : (f i).addrs NDIRECT ≠ 0) (h0 : blockAt d (f i) n = 0) :
    wp OutOfBlocks (word sb ((f i).addrs NDIRECT) (n - NDIRECT))
      (fun b d' => Grows sb d f i n b d' (f i)) d := by
  have hj : n - NDIRECT < NINDIRECT := by lia
  have hword : (d.block ((f i).addrs NDIRECT)).word (n - NDIRECT) = 0 := by
    rwa [blockAt, pos_indirect hd, place_word hind hj] at h0
  refine wp_mono (wp_word_new hx hj hind hword) ?_
  rintro b d' ⟨ht, hblock⟩
  rw [← pos_indirect hd] at ht
  exact Takes.grows hx (by rwa [Function.update_eq_self]) rfl h0 hblock

theorem wp_bmap_new {n : ℕ} (hx : Exclusive sb.nmeta sb.size d.used (cells d f)) (hn : n < MAXFILE)
    (h0 : blockAt d (f i) n = 0) :
    wp OutOfBlocks (bmap sb (f i) n) (fun r d' => Grows sb d f i n r.1 d' r.2) d := by
  unfold bmap
  by_cases hd : n < NDIRECT
  · rw [if_pos hd]
    have hslot : (f i).addrs n = 0 := by
      rwa [blockAt, pos_direct hd, place_slot (Nat.le_of_lt hd)] at h0
    refine wp_mono (wp_slot_new hx (Nat.le_of_lt hd) hslot) ?_
    rintro ⟨b, ip'⟩ d' ⟨hip, ht, hblock⟩
    rw [← pos_direct hd] at ht
    refine ht.grows hx ?_ h0 fun a ha _ => hblock a ha
    rw [hip]
    rfl
  rw [if_neg hd, if_pos (by lia)]
  refine wp_bind.mpr ?_
  by_cases hind : (f i).addrs NDIRECT = 0
  · -- first the indirect block, then the block itself
    refine wp_mono (wp_slot_new hx le_rfl hind) ?_
    rintro ⟨ind, ip₁⟩ d₁ ⟨hip, ht, hblock⟩
    simp only at hip ht hblock
    have hind₁ : ip₁.addrs NDIRECT = ind := by rw [hip, Dinode.setAddr_addrs, update_self]
    have hword := wp_bmap_word (i := i) ht.excl hn hd (by rw [update_self, hind₁]; exact ht.ne_zero)
      (by rw [update_self, ht.blockAt_indirect, h0])
    rw [update_self, hind₁] at hword
    refine wp_bind.mpr (wp_mono hword fun b d₂ hg => wp_pure.mpr ?_)
    exact ht.grows_indirect (by rw [hip]; rfl) hind h0 hblock hg
  · rw [slot, if_neg hind]
    refine wp_pure.mpr (wp_bind.mpr (wp_mono (wp_bmap_word hx hn hd hind h0) ?_))
    exact fun b d' hg => wp_pure.mpr hg

theorem wp_bmap {n : ℕ} (hx : Exclusive sb.nmeta sb.size d.used (cells d f)) (hn : n < MAXFILE) :
    wp OutOfBlocks (bmap sb (f i) n) (fun r d' => Grows sb d f i n r.1 d' r.2) d := by
  by_cases h0 : blockAt d (f i) n = 0
  · exact wp_bmap_new hx hn h0
  · refine wp_mono (wp_bmap_found hn h0) ?_
    rintro r d' ⟨rfl, rfl⟩
    exact grows_found hx h0

end Allocation

/-! ## Truncation -/

section Truncation

variable {F : String → Prop} {lo hi : ℕ} {d : Disk} {i : ℕ} {c : ℕ × ℕ → ℕ}

theorem wp_bfree {x : ℕ × ℕ} (hx : Exclusive lo hi d.used c) (h0 : c x ≠ 0) :
    wp F (bfree (c x)) (fun _ d' => d'.block = d.block ∧
      Exclusive lo hi d'.used (update c x 0)) d := by
  unfold wp bfree
  rw [hx.used_cell h0, if_neg (by decide)]
  exact ⟨rfl, hx.release h0⟩

/-- The cells without those of inode `i` at the places `ps` -/
def without (c : ℕ × ℕ → ℕ) (i : ℕ) (ps : List ℕ) (x : ℕ × ℕ) : ℕ :=
  if x.1 = i ∧ x.2 ∈ ps then 0 else c x

theorem without_cons {p : ℕ} {ps : List ℕ} :
    without c i (p :: ps) = without (update c (i, p) 0) i ps := by
  funext x
  unfold without
  by_cases hx : x = (i, p)
  · subst hx
    simp
  · rw [update_of_ne hx]
    have : x.1 = i → x.2 ≠ p := fun h₁ h₂ => hx (Prod.ext h₁ h₂)
    simp only [List.mem_cons]
    split_ifs <;> tauto

theorem without_nil : without c i [] = c := by
  funext x
  simp [without]

theorem update_zero {x : ℕ × ℕ} (h : c x = 0) : update c x 0 = c := by
  rw [← h, Function.update_eq_self]

theorem wp_truncSlots {ks : List ℕ} {ip : Dinode} (hx : Exclusive lo hi d.used c)
    (hks : ks.Nodup) (hc : ∀ k ∈ ks, c (i, k) = ip.addrs k) :
    wp F (truncSlots ks ip) (fun ip' d' => d'.block = d.block ∧
      ip' = { ip with addrs := fun k => if k ∈ ks then 0 else ip.addrs k } ∧
      Exclusive lo hi d'.used (without c i ks)) d := by
  induction ks generalizing ip d c with
  | nil =>
    refine wp_pure.mpr ⟨rfl, by simp, ?_⟩
    rwa [without_nil]
  | cons k ks ih =>
    obtain ⟨hk, hks⟩ := List.nodup_cons.mp hks
    have hck := hc k List.mem_cons_self
    have haddrs : (fun k' => if k' ∈ ks then 0 else update ip.addrs k 0 k') =
        fun k' => if k' ∈ k :: ks then 0 else ip.addrs k' := by
      funext k'
      by_cases hkk : k' = k
      · simp [hkk]
      · simp [hkk]
    rw [without_cons]
    by_cases h0 : ip.addrs k = 0
    · rw [truncSlots, if_neg (not_not.mpr h0), update_zero (hck.trans h0)]
      refine wp_mono (ih hx hks fun k' hk' => hc k' (List.mem_cons_of_mem k hk')) ?_
      rintro ip' d' ⟨hblock, hip, hx'⟩
      rw [← h0, Function.update_eq_self, h0] at haddrs
      rw [haddrs] at hip
      exact ⟨hblock, hip, hx'⟩
    · rw [truncSlots, if_pos h0, ← hck]
      refine wp_bind.mpr (wp_mono (wp_bfree hx (by rwa [hck])) ?_)
      rintro - d₁ ⟨hblock₁, hx₁⟩
      refine wp_mono (ih hx₁ hks fun k' hk' => ?_) ?_
      · have hne : k' ≠ k := fun he => hk (he ▸ hk')
        rw [update_of_ne (by simp [hne]), Dinode.setAddr_addrs, update_of_ne hne]
        exact hc k' (List.mem_cons_of_mem k hk')
      · rintro ip' d' ⟨hblock, hip, hx'⟩
        rw [Dinode.setAddr_addrs, haddrs] at hip
        exact ⟨hblock.trans hblock₁, hip, hx'⟩

theorem wp_truncWords {ind : ℕ} {js : List ℕ} (hx : Exclusive lo hi d.used c) (hjs : js.Nodup)
    (hc : ∀ j ∈ js, c (i, NDIRECT + 1 + j) = (d.block ind).word j) :
    wp F (truncWords ind js) (fun _ d' => d'.block = d.block ∧
      Exclusive lo hi d'.used (without c i (js.map (NDIRECT + 1 + ·)))) d := by
  induction js generalizing d c with
  | nil =>
    refine wp_pure.mpr ⟨rfl, ?_⟩
    rwa [List.map_nil, without_nil]
  | cons j js ih =>
    obtain ⟨hj, hjs⟩ := List.nodup_cons.mp hjs
    have hcj := hc j List.mem_cons_self
    rw [List.map_cons, without_cons]
    refine wp_bind.mpr (wp_look.mpr ?_)
    rw [← hcj]
    by_cases h0 : c (i, NDIRECT + 1 + j) = 0
    · rw [if_neg (not_not.mpr h0), update_zero h0]
      exact ih hx hjs fun j' hj' => hc j' (List.mem_cons_of_mem j hj')
    · rw [if_pos h0]
      refine wp_bind.mpr (wp_mono (wp_bfree hx h0) ?_)
      rintro - d₁ ⟨hblock₁, hx₁⟩
      refine wp_mono (ih hx₁ hjs fun j' hj' => ?_) ?_
      · have hne : j' ≠ j := fun he => hj (he ▸ hj')
        rw [update_of_ne (by simp [hne]), hblock₁]
        exact hc j' (List.mem_cons_of_mem j hj')
      · rintro - d' ⟨hblock, hx'⟩
        exact ⟨hblock.trans hblock₁, hx'⟩

/-- An inode without addresses holds no cells. -/
theorem exclusive_none {f : ℕ → Dinode} {ip : Dinode} {d' : Disk} (hblock : d'.block = d.block)
    (h0 : ∀ k ≤ NDIRECT, ip.addrs k = 0) (hx : Exclusive lo hi d'.used c)
    (hnone : ∀ p, c (i, p) = 0) (hc : ∀ {j p}, j ≠ i → c (j, p) = cells d f (j, p)) :
    Exclusive lo hi d'.used (cells d' (update f i ip)) := by
  have hcells : cells d' (update f i ip) = c := by
    funext ⟨j, p⟩
    by_cases hj : j = i
    · subst hj
      rw [cells_update_self, hnone, place_none h0]
    · rw [cells, update_of_ne hj, hc hj]
      exact place_congr (fun _ => by rw [hblock]) p
  rwa [hcells]

/-- After `itrunc`, the inode has no blocks. -/
theorem wp_itrunc {f : ℕ → Dinode} (hx : Exclusive lo hi d.used (cells d f)) :
    wp F (itrunc (f i)) (fun ip' d' => d'.block = d.block ∧
      (∀ k ≤ NDIRECT, ip'.addrs k = 0) ∧ ip' = { f i with addrs := ip'.addrs, size := 0 } ∧
      Exclusive lo hi d'.used (cells d' (update f i ip'))) d := by
  have hslots : ∀ k ∈ List.range NDIRECT, cells d f (i, k) = (f i).addrs k := by
    intro k hk
    exact place_slot (Nat.le_of_lt (List.mem_range.mp hk))
  refine wp_bind.mpr (wp_mono (wp_truncSlots hx List.nodup_range hslots) ?_)
  rintro ip₁ d₁ ⟨hblock₁, hip₁, hx₁⟩
  have hind : ip₁.addrs NDIRECT = (f i).addrs NDIRECT := by rw [hip₁]; rfl
  have hzero : ∀ k < NDIRECT, ip₁.addrs k = 0 := by
    intro k hk
    rw [hip₁]
    exact if_pos (List.mem_range.mpr hk)
  refine wp_bind.mpr ?_
  unfold truncIndirect
  by_cases h0 : (f i).addrs NDIRECT = 0
  · rw [hind, if_neg (not_not.mpr h0)]
    have hnone : ∀ k ≤ NDIRECT, ip₁.addrs k = 0 := by
      intro k hk
      rcases Nat.lt_or_eq_of_le hk with hk | rfl
      · exact hzero k hk
      · exact hind.trans h0
    refine wp_pure.mpr (wp_pure.mpr ⟨hblock₁, hnone, by rw [hip₁],
      exclusive_none hblock₁ hnone hx₁ (fun p => ?_) fun hj => by simp [without, hj]⟩)
    by_cases hp : p < NDIRECT
    · simp [without, hp]
    · have hcell : cells d f (i, p) = 0 := by
        unfold cells place
        split_ifs with h₁ h₂
        · obtain rfl : p = NDIRECT := by omega
          exact h0
        · rfl
        · exact absurd (.inl h0) h₂
      simp [without, hcell]
  · rw [hind, if_pos h0]
    have hwords : ∀ j ∈ List.range NINDIRECT, without (cells d f) i (List.range NDIRECT)
        (i, NDIRECT + 1 + j) = (d₁.block ((f i).addrs NDIRECT)).word j := by
      intro j hj
      rw [without, if_neg (by simp; omega), hblock₁]
      exact place_word h0 (List.mem_range.mp hj)
    refine wp_bind.mpr (wp_mono (wp_truncWords hx₁ List.nodup_range hwords) ?_)
    rintro - d₂ ⟨hblock₂, hx₂⟩
    generalize hc₂ : without (without (cells d f) i (List.range NDIRECT)) i
      ((List.range NINDIRECT).map (NDIRECT + 1 + ·)) = c₂ at hx₂
    have hcind : c₂ (i, NDIRECT) = (f i).addrs NDIRECT := by
      rw [← hc₂, without, if_neg (by simp; omega), without, if_neg (by simp)]
      exact place_slot le_rfl
    rw [← hcind]
    refine wp_bind.mpr (wp_mono (wp_bfree hx₂ (by rwa [hcind])) ?_)
    rintro - d₃ ⟨hblock₃, hx₃⟩
    have hnone : ∀ k ≤ NDIRECT, (ip₁.setAddr NDIRECT 0).addrs k = 0 := by
      intro k hk
      rw [Dinode.setAddr_addrs]
      rcases Nat.lt_or_eq_of_le hk with hk | rfl
      · rw [update_of_ne (by omega), hzero k hk]
      · exact update_self ..
    have hblock : d₃.block = d.block := hblock₃.trans (hblock₂.trans hblock₁)
    refine wp_pure.mpr (wp_pure.mpr ⟨hblock, hnone, by rw [hip₁]; rfl,
      exclusive_none hblock hnone hx₃ (fun p => ?_) fun {j p} hj => ?_⟩)
    · by_cases hp : p = NDIRECT
      · rw [hp, update_self]
      · rw [update_of_ne (by simp [hp]), ← hc₂]
        by_cases hlt : p < NDIRECT
        · simp [without, hlt]
        · by_cases hmax : p ≤ MAXFILE
          · have hmem : p ∈ (List.range NINDIRECT).map (NDIRECT + 1 + ·) := by
              refine List.mem_map.mpr ⟨p - (NDIRECT + 1), List.mem_range.mpr ?_, by omega⟩
              lia
            rw [without, if_pos ⟨rfl, hmem⟩]
          · have hcell : cells d f (i, p) = 0 := by
              rw [cells, place, if_neg (by lia), if_pos (.inr (by omega))]
            simp [without, hcell]
    · rw [update_of_ne (by simp [hj]), ← hc₂]
      simp [without, hj]

end Truncation

end Xv6Mlfq.Blocks
