import Xv6Mlfq.Fs.Logged
import Xv6Mlfq.Lib.Allowance

/-!
# What the functions on inodes log

For each function, which blocks it may pass to `log_write`, on a disk whose bitmap is one block.
What it does otherwise is what the function of `Xv6Mlfq.Fs.Blocks` of the same name does.

## Main definitions

* `Costs` — how many blocks a function logs.
* `Erases m m'` — `m` does to the disk what `m'` does.

## Main results

* `costs_writei` — a write logs two blocks for each block of the contents that it touches, the
  bitmap and the inode.
* `costs_iput` — `iput` logs the bitmap and the inode, even if it frees all blocks of a file.
* `wp_readi` — a read logs nothing.
-/

namespace Xv6Mlfq.Blocks.Logged

open Function (update update_self update_of_ne)
open Wp (wp wp_mono wp_and wp_faults wp_bind wp_pure wp_look wp_modify)
open Allowance (Adds Trace spends_pure spends_of_wp spends_bind)

/-! ## Rules -/

def logTrace : Trace Volume (String × List ℕ) ℕ := ⟨Volume.log, Prod.snd⟩

/-- `m` logs at most `k` blocks besides those in `fixed`. -/
abbrev Costs {α : Type} (fixed : Finset ℕ) (k : ℕ) (m : VolM α) (Q : α → Volume → Prop)
    (v : Volume) : Prop :=
  logTrace.Spends fixed k m Q v

section Rules

variable {α β : Type} {F : String × List ℕ → Prop} {Q : α → Volume → Prop} {v : Volume}
  {fixed : Finset ℕ} {k : ℕ}

@[simp] theorem wp_panic {msg : String} : wp F (panic msg) Q v ↔ F (msg, v.log) := by
  unfold wp panic
  exact Iff.rfl

@[simp] theorem wp_logWrite {b : ℕ} {Q : Unit → Volume → Prop} :
    wp F (logWrite b) Q v ↔ Q () { v with log := b :: v.log } := by
  rw [logWrite, wp_modify]

theorem wp_onDisk {m : DiskM α} : wp F (onDisk m) Q v ↔
    wp (fun msg => F (msg, v.log)) m (fun a d => Q a { v with disk := d }) v.disk := by
  unfold wp onDisk
  cases m v.disk with
  | ok x => exact Iff.rfl
  | error msg => exact Iff.rfl

theorem costs_panic {msg : String} : Costs fixed k (panic msg) Q v := wp_panic.mpr Adds.refl

theorem costs_logWrite {b : ℕ} {Q : Unit → Volume → Prop} (hb : b ∈ fixed)
    (hQ : Q () { v with log := b :: v.log }) : Costs fixed k (logWrite b) Q v :=
  wp_logWrite.mpr ⟨Adds.refl.cons hb, hQ⟩

theorem costs_logWrite_bind {b : ℕ} {f : Unit → VolM α} (hb : b ∈ fixed)
    (hf : Costs fixed k (f ()) Q { v with log := b :: v.log }) :
    Costs fixed k (logWrite b >>= f) Q v := by
  have hstep : Costs fixed 0 (logWrite b) (fun _ v' => v' = { v with log := b :: v.log }) v :=
    costs_logWrite hb rfl
  exact hstep.bind_fixed fun _ _ hv => hv ▸ hf

theorem costs_look_bind {g : Volume → β} {f : β → VolM α} (hf : Costs fixed k (f (g v)) Q v) :
    Costs fixed k (Wp.look g >>= f) Q v := wp_bind.mpr (wp_look.mpr hf)

/-- A step that logs nothing -/
theorem costs_modify_bind {g : Volume → Volume} {f : Unit → VolM α} (hlog : (g v).log = v.log)
    (hf : Costs fixed k (f ()) Q (g v)) : Costs fixed k (modify g >>= f) Q v := by
  have hstep : Costs fixed 0 (modify g) (fun _ v' => v' = g v) v :=
    spends_of_wp (wp_modify.mpr ⟨hlog, rfl⟩)
  exact hstep.bind_fixed fun _ _ hv => hv ▸ hf

end Rules

/-! ## Erasure -/

/-- `m` does to the disk what `m'` does, and nothing to the inodes. -/
def Erases {α : Type} (m : VolM α) (m' : DiskM α) : Prop :=
  ∀ v (F : String → Prop) (Q : α → Disk → Prop), wp F m' Q v.disk →
    wp (fun e => F e.1) m (fun a v' => Q a v'.disk ∧ v'.inode = v.inode) v

section Erasure

variable {α β : Type} {l : Layout} {devsw : Devsw}

theorem erases_pure {a : α} : Erases (pure a) (pure a) := fun _ _ _ h => wp_pure.mpr
    ⟨wp_pure.mp h, rfl⟩

theorem erases_panic {msg : String} : Erases (panic msg : VolM α) (throw msg) :=
  fun _ _ _ h => wp_panic.mpr (Wp.wp_throw.mp h)

theorem erases_onDisk {m : DiskM α} : Erases (onDisk m) m :=
  fun _ _ _ h => wp_onDisk.mpr (wp_mono h fun _ _ hQ => ⟨hQ, rfl⟩)

theorem Erases.bind {m : VolM β} {m' : DiskM β} {f : β → VolM α} {f' : β → DiskM α}
    (h : Erases m m') (hf : ∀ b, Erases (f b) (f' b)) : Erases (m >>= f) (m' >>= f') := by
  intro v F Q hwp
  refine wp_bind.mpr (wp_mono (h v F _ (wp_bind.mp hwp)) ?_)
  rintro b v₁ ⟨hrest, hinode⟩
  refine wp_mono (hf b v₁ F Q hrest) ?_
  rintro a v₂ ⟨hQ, hinode'⟩
  exact ⟨hQ, hinode'.trans hinode⟩

/-- The log is not on the disk. -/
theorem Erases.logWrite {b : ℕ} {m : VolM α} {m' : DiskM α} (h : Erases m m') :
    Erases (logWrite b >>= fun _ => m) m' := by
  intro v F Q hwp
  exact wp_bind.mpr (wp_logWrite.mpr (h { v with log := b :: v.log } F Q hwp))

theorem Erases.ite {c : Prop} [Decidable c] {m₁ m₂ : VolM α} {m₁' m₂' : DiskM α}
    (h₁ : Erases m₁ m₁')
    (h₂ : Erases m₂ m₂') : Erases (if c then m₁ else m₂) (if c then m₁' else m₂') := by
  split
  · exact h₁
  · exact h₂

/-- What `m` returns, `m'` returns. -/
theorem Erases.eq_ok {m : VolM α} {m' : DiskM α} (h : Erases m m') (v : Volume) :
    wp (fun _ => True) m (fun a v' => m' v.disk = .ok (a, v'.disk)) v :=
  wp_mono (h v (fun _ => True) _ Wp.wp_self) fun _ _ heq => heq.1

theorem erases_balloc : Erases (balloc l) (Blocks.balloc l.sb) := by
  have h : Erases (balloc l) (Blocks.balloc l.sb >>= pure) :=
    erases_onDisk.bind fun _ => erases_pure.logWrite.logWrite
  rwa [bind_pure] at h

theorem erases_bfree {b : ℕ} : Erases (bfree l b) (Blocks.bfree b) := by
  have h : Erases (bfree l b) (Blocks.bfree b >>= pure) :=
    erases_onDisk.bind fun _ _ _ _ h => wp_logWrite.mpr ⟨wp_pure.mp h, rfl⟩
  rwa [bind_pure] at h

variable {ip : Dinode} {off : ℕ}

theorem erases_slot {k : ℕ} : Erases (slot l ip k) (Blocks.slot l.sb ip k) :=
  (erases_balloc.bind fun _ => erases_pure).ite erases_pure

theorem erases_word {ind j : ℕ} : Erases (word l ind j) (Blocks.word l.sb ind j) :=
  erases_onDisk.bind fun _ =>
    (erases_balloc.bind fun _ => erases_onDisk.bind fun _ => erases_pure.logWrite).ite erases_pure

theorem erases_bmap {bn : ℕ} : Erases (bmap l ip bn) (Blocks.bmap l.sb ip bn) :=
  erases_slot.ite ((erases_slot.bind fun _ => erases_word.bind fun _ => erases_pure).ite
    erases_panic)

theorem erases_truncSlots {ks : List ℕ} :
    Erases (truncSlots l ks ip) (Blocks.truncSlots ks ip) := by
  induction ks generalizing ip with
  | nil => exact erases_pure
  | cons k ks ih => exact (erases_bfree.bind fun _ => ih).ite ih

theorem erases_truncWords {ind : ℕ} {js : List ℕ} :
    Erases (truncWords l ind js) (Blocks.truncWords ind js) := by
  induction js with
  | nil => exact erases_pure
  | cons j js ih => exact erases_onDisk.bind fun _ => (erases_bfree.bind fun _ => ih).ite ih

theorem erases_truncBlocks : Erases (truncBlocks l ip) (Blocks.itrunc ip) := by
  refine erases_truncSlots.bind fun ip => Erases.bind ?_ fun _ => erases_pure
  exact (erases_truncWords.bind fun _ => erases_bfree.bind fun _ => erases_pure).ite erases_pure

theorem erases_readLoop {fuel n : ℕ} :
    Erases (readLoop l fuel ip off n) (Blocks.readLoop l.sb fuel ip off n) := by
  induction fuel generalizing ip off n with
  | zero => exact erases_pure
  | succ fuel ih =>
    exact (erases_bmap.bind fun _ => erases_onDisk.bind fun _ => ih.bind fun _ => erases_pure).ite
      erases_pure

theorem erases_readi {n : ℕ} : Erases (readi l devsw ip off n) (Blocks.readi l.sb devsw ip off n) :=
  (erases_pure.ite erases_pure).ite (erases_pure.ite (erases_readLoop.bind fun _ => erases_pure))

theorem erases_writeLoop {fuel : ℕ} {src : List UInt8} :
    Erases (writeLoop l fuel ip off src) (Blocks.writeLoop l.sb fuel ip off src) := by
  induction fuel generalizing ip off src with
  | zero => exact erases_pure
  | succ fuel ih =>
    exact (erases_bmap.bind fun _ => erases_onDisk.bind fun _ => ih.logWrite).ite erases_pure

theorem erases_writei {i : ℕ} {src : List UInt8} :
    Erases (writei l devsw i ip src off) (Blocks.writei l.sb devsw ip src off) := by
  refine (erases_pure.ite erases_pure).ite (erases_pure.ite (erases_pure.ite ?_))
  exact erases_writeLoop.bind fun _ => erases_pure.logWrite.ite erases_pure

theorem erases_readDirent {msg : String} :
    Erases (readDirent l devsw msg ip off) (Blocks.readDirent l.sb devsw msg ip off) := by
  refine erases_readi.bind ?_
  rintro ⟨_ | bs, ip⟩
  · exact erases_panic
  · exact erases_panic.ite erases_pure

theorem erases_writeDirent {msg : String} {i : ℕ} {de : List UInt8} :
    Erases (writeDirent l devsw msg i ip de off) (Blocks.writeDirent l.sb devsw msg ip de off) :=
  erases_writei.bind fun _ => erases_panic.ite erases_pure

theorem erases_lookupLoop {name : Bytes} {fuel : ℕ} :
    Erases (lookupLoop l devsw name fuel ip off)
      (Blocks.lookupLoop l.sb devsw name fuel ip off) := by
  induction fuel generalizing ip off with
  | zero => exact erases_pure
  | succ fuel ih =>
    exact (erases_readDirent.bind fun _ => ih.ite (erases_pure.ite ih)).ite erases_pure

theorem erases_emptyLoop {fuel : ℕ} :
    Erases (emptyLoop l devsw fuel ip off) (Blocks.emptyLoop l.sb devsw fuel ip off) := by
  induction fuel generalizing ip off with
  | zero => exact erases_pure
  | succ fuel ih => exact (erases_readDirent.bind fun _ => erases_pure.ite ih).ite erases_pure

end Erasure

/-! ## Allocation -/

section Allocation

variable {l : Layout} {devsw : Devsw} {v : Volume}

/-- The one block of the bitmap -/
theorem bblock_eq {b : ℕ} (hb : b < BPB) : l.bblock b = l.sb.bmapstart := by
  rw [Layout.bblock, Nat.div_eq_of_lt hb, Nat.zero_add]

theorem wp_balloc_log (hone : l.sb.size ≤ BPB) : wp (fun e => e.2 = v.log) (balloc l)
    (fun b v' => v'.log = b :: l.sb.bmapstart :: v.log) v := by
  rw [balloc, wp_bind, wp_onDisk]
  refine wp_faults (wp_mono Blocks.wp_balloc ?_) fun _ _ => rfl
  rintro b d ⟨hb, _, _⟩
  rw [wp_bind, wp_logWrite, wp_bind, wp_logWrite, wp_pure, bblock_eq (hb.trans_le hone)]

variable {ip : Dinode}

theorem wp_slot_log {k : ℕ} (hone : l.sb.size ≤ BPB) : wp (fun e => e.2 = v.log) (slot l ip k)
    (fun r v' => v'.log = v.log ∨ v'.log = r.1 :: l.sb.bmapstart :: v.log) v := by
  rw [slot]
  split
  · refine wp_bind.mpr (wp_mono (wp_balloc_log hone) ?_)
    intro b v' hlog
    exact wp_pure.mpr (.inr hlog)
  · exact wp_pure.mpr (.inl rfl)

theorem wp_word_log {ind j : ℕ} (hone : l.sb.size ≤ BPB) : wp (fun e => e.2 = v.log) (word l ind j)
    (fun addr v' => v'.log = v.log ∨ v'.log = ind :: addr :: l.sb.bmapstart :: v.log) v := by
  rw [word, wp_bind, wp_onDisk, wp_look]
  split
  · refine wp_bind.mpr (wp_mono (wp_balloc_log hone) ?_)
    intro b v' hlog
    rw [wp_bind, wp_onDisk, wp_modify, wp_bind, wp_logWrite, wp_pure]
    exact .inr (congrArg (ind :: ·) hlog)
  · exact wp_pure.mpr (.inl rfl)

/-- `bmap` logs the bitmap, the block that it returns, and at most one other, the indirect block. -/
theorem wp_bmap_log {bn : ℕ} (hone : l.sb.size ≤ BPB) :
    wp (fun e => Adds {l.sb.bmapstart} 1 v.log e.2) (bmap l ip bn)
      (fun r v' => Adds ({l.sb.bmapstart} ∪ {r.1}) 1 v.log v'.log) v := by
  have hmap (b : ℕ) : l.sb.bmapstart ∈ ({l.sb.bmapstart} ∪ {b} : Finset ℕ) := by simp
  have hself (b : ℕ) : b ∈ ({l.sb.bmapstart} ∪ {b} : Finset ℕ) := by simp
  rw [bmap]
  split_ifs
  · refine wp_faults (wp_mono (wp_slot_log hone) ?_) fun e he => he ▸ Adds.refl
    rintro r v' (hlog | hlog)
    · rw [hlog]
      exact Adds.refl
    · rw [hlog]
      exact (Adds.refl.cons (hmap _)).cons (hself _)
  · refine wp_bind.mpr (wp_faults (wp_mono (wp_slot_log hone) ?_) fun e he => he ▸ Adds.refl)
    rintro ⟨ind, ip'⟩ v₁ hlog₁
    -- what has been logged so far
    have hind : Adds ({l.sb.bmapstart} ∪ {ind}) 0 v.log v₁.log := by
      rcases hlog₁ with hlog₁ | hlog₁
      · rw [hlog₁]
        exact Adds.refl
      · rw [hlog₁]
        exact (Adds.refl.cons (hmap _)).cons (hself _)
    refine wp_bind.mpr (wp_faults (wp_mono (wp_word_log hone) ?_) fun e he => he ▸ hind.absorb)
    intro addr v₂ hlog₂
    rw [wp_pure]
    have hboth : Adds ({l.sb.bmapstart} ∪ {addr} ∪ {ind}) 0 v.log v₁.log :=
      hind.mono (by grind) le_rfl
    rcases hlog₂ with hlog₂ | hlog₂
    · rw [hlog₂]
      exact hboth.absorb
    · rw [hlog₂]
      exact (((hboth.cons (by simp)).cons (by simp)).cons (by simp)).absorb
  · exact wp_panic.mpr Adds.refl

/-- The loop of `writei` logs two blocks in a round.  The bytes are in `k` blocks of the
contents. -/
theorem costs_writeLoop {fuel off k : ℕ} {src : List UInt8} (hone : l.sb.size ≤ BPB)
    (hk : 0 < src.length → off % BSIZE + src.length ≤ k * BSIZE) :
    Costs {l.sb.bmapstart} (2 * k) (writeLoop l fuel ip off src) (fun _ _ => True) v := by
  induction fuel generalizing ip off src k v with
  | zero => exact spends_pure trivial
  | succ fuel ih =>
    rw [writeLoop]
    split_ifs with hpos
    swap
    · exact spends_pure trivial
    obtain ⟨k, rfl⟩ : ∃ k', k = k' + 1 := ⟨k - 1, by lia⟩
    refine spends_bind (wp_mono (wp_faults (wp_bmap_log hone) ?_) ?_)
    · intro e he
      exact he.mono (Finset.Subset.refl _) (by omega)
    · intro r v₁ hadds
      refine ⟨1, 2 * k, {r.1}, by rw [Finset.card_singleton]; omega, hadds, ?_⟩
      have hrest (v₃ : Volume) : Costs ({l.sb.bmapstart} ∪ {r.1}) (2 * k)
          (writeLoop l fuel r.2 (off + min src.length (BSIZE - off % BSIZE))
            (src.drop (min src.length (BSIZE - off % BSIZE)))) (fun _ _ => True) v₃ := by
        refine Trace.Spends.mono (ih ?_) Finset.subset_union_left le_rfl
        intro hmore
        rw [List.length_drop] at *
        lia
      have hmove (g : Disk → Disk) : Costs ({l.sb.bmapstart} ∪ {r.1}) 0 (onDisk (modify g))
          (fun _ _ => True) v₁ :=
        spends_of_wp (wp_onDisk.mpr (wp_modify.mpr ⟨rfl, trivial⟩))
      refine (hmove _).bind_fixed fun _ v₂ _ => ?_
      exact costs_logWrite_bind (by simp) (hrest _)

/-- **What a write logs**: the bitmap, the inode, and two blocks for each block of the contents -/
theorem costs_writei {i k off : ℕ} {src : List UInt8} (hone : l.sb.size ≤ BPB)
    (hk : off % BSIZE + src.length ≤ k * BSIZE) :
    Costs {l.sb.bmapstart, l.iblock i} (2 * k) (writei l devsw i ip src off)
    (fun _ _ => True) v := by
  rw [writei]
  split_ifs
  · exact spends_pure trivial
  · exact spends_pure trivial
  · exact spends_pure trivial
  · exact spends_pure trivial
  · have hloop : Costs {l.sb.bmapstart} (2 * k) (writeLoop l src.length ip off src) _ v :=
      costs_writeLoop hone fun _ => hk
    refine (hloop.mono (by simp) le_rfl).bind (k := 0) ?_
    intro ip' v₁ _
    split_ifs
    · exact costs_logWrite_bind (by simp) (spends_pure trivial)
    · exact spends_pure trivial

end Allocation

/-! ## Truncation -/

section Truncation

variable {l : Layout} {v : Volume}

/-- `bfree` logs the bitmap. -/
theorem costs_bfree {b : ℕ} (hb : b < BPB) :
    Costs {l.sb.bmapstart} 0 (bfree l b) (fun _ v' => v'.disk.block = v.disk.block) v := by
  have hfree : Costs {l.sb.bmapstart} 0 (onDisk (Blocks.bfree b))
      (fun _ v' => v'.disk.block = v.disk.block) v := by
    refine spends_of_wp (wp_onDisk.mpr ?_)
    unfold wp Blocks.bfree
    split_ifs
    · exact rfl
    · exact ⟨rfl, rfl⟩
  refine hfree.bind_fixed fun _ v₁ hblock => ?_
  rw [bblock_eq hb]
  exact costs_logWrite (Finset.mem_singleton_self _) hblock

theorem costs_truncSlots {ks : List ℕ} {ip : Dinode} (haddrs : ∀ k ∈ ks, ip.addrs k < BPB) :
    Costs {l.sb.bmapstart} 0 (truncSlots l ks ip) (fun ip' v' => v'.disk.block = v.disk.block ∧
      ∀ k, k ∉ ks → ip'.addrs k = ip.addrs k) v := by
  induction ks generalizing ip v with
  | nil => exact spends_pure ⟨rfl, fun _ _ => rfl⟩
  | cons k ks ih =>
    obtain ⟨hk, hks⟩ := List.forall_mem_cons.mp haddrs
    rw [truncSlots]
    split_ifs with h0
    · refine (costs_bfree hk).bind_fixed fun _ v₁ hblock₁ => ?_
      have hzero : ∀ k' ∈ ks, (ip.setAddr k 0).addrs k' < BPB := by
        intro k' hk'
        rw [Dinode.setAddr_addrs]
        by_cases hkk : k' = k
        · rw [hkk, update_self]
          norm_num
        · rw [update_of_ne hkk]
          exact hks k' hk'
      refine (ih hzero).imp ?_
      rintro ip' v' ⟨hblock, hsame⟩
      refine ⟨hblock.trans hblock₁, ?_⟩
      intro k' hk'
      rw [List.mem_cons, not_or] at hk'
      rw [hsame k' hk'.2, Dinode.setAddr_addrs, update_of_ne hk'.1]
    · refine (ih hks).imp ?_
      rintro ip' v' ⟨hblock, hsame⟩
      exact ⟨hblock, fun k' hk' => hsame k' fun hmem => hk' (List.mem_cons_of_mem k hmem)⟩

theorem costs_truncWords {ind : ℕ} {js : List ℕ}
    (hwords : ∀ j ∈ js, (v.disk.block ind).word j < BPB) :
    Costs {l.sb.bmapstart} 0 (truncWords l ind js) (fun _ _ => True) v := by
  induction js generalizing v with
  | nil => exact spends_pure trivial
  | cons j js ih =>
    obtain ⟨hj, hjs⟩ := List.forall_mem_cons.mp hwords
    have hlook : Costs {l.sb.bmapstart} 0 (onDisk (Wp.look fun d => (d.block ind).word j))
        (fun addr v' => addr = (v.disk.block ind).word j ∧ v' = v) v :=
      spends_of_wp (wp_onDisk.mpr (wp_look.mpr ⟨rfl, rfl, rfl⟩))
    refine hlook.bind_fixed ?_
    rintro _ v' ⟨rfl, rfl⟩
    split_ifs
    · refine (costs_bfree hj).bind_fixed fun _ v₁ hblock₁ => ih ?_
      rwa [hblock₁]
    · exact ih hjs

/-- The addresses of an inode are blocks of the disk. -/
theorem place_lt (hone : l.sb.size ≤ BPB) (h : Owned l.sb v.disk v.inode) (i p : ℕ) :
    place v.disk (v.inode i) p < BPB := by
  by_cases h0 : place v.disk (v.inode i) p = 0
  · rw [h0]
    norm_num
  · have hcell : place v.disk (v.inode i) p < l.sb.size := h.excl.cell_lt (p := (i, p)) h0
    exact hcell.trans_le hone

/-- `itrunc` logs the bitmap, apart from the inode. -/
theorem costs_truncBlocks {i : ℕ} (hone : l.sb.size ≤ BPB) (h : Owned l.sb v.disk v.inode) :
    Costs {l.sb.bmapstart} 0 (truncBlocks l (v.inode i)) (fun _ _ => True) v := by
  have hslot (k : ℕ) (hk : k ≤ NDIRECT) : (v.inode i).addrs k < BPB := by
    have := place_lt hone h i k
    rwa [place_slot hk] at this
  have hslots : ∀ k ∈ List.range NDIRECT, (v.inode i).addrs k < BPB :=
    fun k hk => hslot k (Nat.le_of_lt (List.mem_range.mp hk))
  refine (costs_truncSlots hslots).bind_fixed ?_
  rintro ip₁ v₁ ⟨hblock, hsame⟩
  have hind : ip₁.addrs NDIRECT = (v.inode i).addrs NDIRECT := hsame NDIRECT (by simp)
  have hindirect : Costs {l.sb.bmapstart} 0 (truncIndirect l ip₁) (fun _ _ => True) v₁ := by
    rw [truncIndirect, hind]
    split_ifs with h0
    · have hwords : ∀ j ∈ List.range NINDIRECT,
          (v₁.disk.block ((v.inode i).addrs NDIRECT)).word j < BPB := by
        intro j hj
        rw [hblock, ← place_word h0 (List.mem_range.mp hj)]
        exact place_lt hone h i _
      refine (costs_truncWords hwords).bind_fixed fun _ v₂ _ => ?_
      exact (costs_bfree (hslot NDIRECT le_rfl)).bind_fixed fun _ _ _ => spends_pure trivial
    · exact spends_pure trivial
  exact hindirect.bind_fixed fun _ _ _ => spends_pure trivial

/-- `itrunc`: what is left of the inode may be marked as free. -/
theorem costs_itrunc {i : ℕ} (hone : l.sb.size ≤ BPB) (h : Owned l.sb v.disk v.inode) :
    Costs {l.sb.bmapstart, l.iblock i} 0 (itrunc l i) (fun _ v' =>
      Owned l.sb v'.disk (update v'.inode i { v'.inode i with type := .free })) v := by
  have hfree : wp (fun _ => True) (truncBlocks l (v.inode i)) (fun ip' v' =>
      Owned l.sb v'.disk (update v.inode i { ip' with type := .free }) ∧ v'.inode = v.inode) v :=
    erases_truncBlocks v (fun _ => True) _ (wp_free h)
  have htrunc : Costs {l.sb.bmapstart, l.iblock i} 0 (truncBlocks l (v.inode i)) _ v :=
    ((costs_truncBlocks hone h).and hfree).mono (by simp) le_rfl
  refine costs_look_bind (htrunc.bind_fixed ?_)
  rintro ip' v₁ ⟨_, howned, hinode⟩
  refine costs_modify_bind rfl (costs_logWrite (by simp) ?_)
  dsimp only
  rwa [update_self, Function.update_idem, hinode]

/-- **What `iput` logs**: the bitmap and the inode -/
theorem costs_iput {i : ℕ} (hone : l.sb.size ≤ BPB) (h : Owned l.sb v.disk v.inode) :
    Costs {l.sb.bmapstart, l.iblock i} 0 (iput l i)
    (fun _ v' => Owned l.sb v'.disk v'.inode) v := by
  rw [iput]
  refine costs_look_bind ?_
  split_ifs
  · refine (costs_itrunc hone h).bind_fixed ?_
    intro _ v₁ howned
    refine costs_look_bind (costs_modify_bind rfl (costs_logWrite_bind (by simp) ?_))
    exact costs_modify_bind rfl (spends_of_wp (wp_modify.mpr ⟨rfl, howned⟩))
  · exact spends_of_wp (wp_modify.mpr ⟨rfl, h⟩)

/-- `iput`, if there are other references or links, or the inode has not been read -/
theorem wp_iput_kept {F : String × List ℕ → Prop} {i : ℕ}
    (h : v.valid i = true → (v.inode i).nlink = 0 → v.ref i ≠ 1) :
    wp F (iput l i) (fun _ v' => v' = { v with ref := update v.ref i (v.ref i - 1) }) v := by
  rw [iput, wp_bind, wp_look]
  split_ifs with hlast
  · simp only [Bool.and_eq_true, decide_eq_true_eq] at hlast
    exact absurd hlast.2 (h hlast.1.1 hlast.1.2)
  · exact wp_modify.mpr rfl

end Truncation

/-! ## Reading -/

section Reading

variable {F : String × List ℕ → Prop} {l : Layout} {devsw : Devsw} {v : Volume}

/-- A block that is there is found, and nothing changes. -/
theorem wp_bmap_found {ip : Dinode} {bn : ℕ} (hbn : bn < MAXFILE) (h : blockAt v.disk ip bn ≠ 0) :
    wp F (bmap l ip bn) (fun r v' => r.2 = ip ∧ v' = v) v := by
  rw [bmap]
  by_cases hd : bn < NDIRECT
  · rw [blockAt, pos_direct hd, place_slot (Nat.le_of_lt hd)] at h
    rw [if_pos hd, slot, if_neg h]
    exact wp_pure.mpr ⟨rfl, rfl⟩
  · have hj : bn - NDIRECT < NINDIRECT := by lia
    have hind : ip.addrs NDIRECT ≠ 0 := by
      intro h0
      refine h ?_
      rw [blockAt, pos_indirect hd, place, if_neg (by omega), if_pos (.inl h0)]
    rw [blockAt, pos_indirect hd, place_word hind hj] at h
    rw [if_neg hd, if_pos hj, slot, if_neg hind, wp_bind, wp_pure, wp_bind, word, wp_bind,
      wp_onDisk, wp_look, if_neg h]
    exact wp_pure.mpr (wp_pure.mpr ⟨rfl, rfl⟩)

theorem wp_readLoop {ip : Dinode} {fuel off n : ℕ} (hmax : off + n ≤ MAXFILE * BSIZE)
    (h : ∀ x, off ≤ x → x < off + n → blockAt v.disk ip (x / BSIZE) ≠ 0) :
    wp F (readLoop l fuel ip off n) (fun r v' => r.2 = ip ∧ v' = v) v := by
  induction fuel generalizing off n with
  | zero => exact wp_pure.mpr ⟨rfl, rfl⟩
  | succ fuel ih =>
    rw [readLoop]
    split_ifs with hn
    · have hbn : off / BSIZE < MAXFILE := by lia
      refine wp_bind.mpr (wp_mono (wp_bmap_found hbn (h off le_rfl (by omega))) ?_)
      rintro ⟨addr, _⟩ v' ⟨rfl, rfl⟩
      rw [wp_bind, wp_onDisk, wp_look, wp_bind]
      refine wp_mono (ih (by omega) fun x hx hx' => h x (by omega) (by omega)) ?_
      intro r v' hr
      exact wp_pure.mpr hr
    · exact wp_pure.mpr ⟨rfl, rfl⟩

/-- **A read logs nothing**, and returns the bytes that are there. -/
theorem wp_readi {i off n : ℕ} (h : Owned l.sb v.disk v.inode) (hdev : (v.inode i).type ≠ .dev)
    (ho : off ≤ (v.inode i).size) (hn : off + n < 2 ^ 32) :
    wp (fun _ => False) (readi l devsw (v.inode i) off n) (fun r v' => v' = v ∧
      r = (some ((List.range (min n ((v.inode i).size - off))).map fun k =>
        byteAt v.disk (v.inode i) (off + k)), v.inode i)) v := by
  have hquiet : wp (fun _ => False) (readi l devsw (v.inode i) off n) (fun _ v' => v' = v) v := by
    have hsize := h.size_le i
    rw [readi, if_neg hdev, if_neg (by rw [Nat.mod_eq_of_lt hn]; omega), wp_bind]
    refine wp_mono (wp_readLoop (by split_ifs <;> omega) fun x hx hx' => (h.mapped i ?_).mpr ?_) ?_
    · split_ifs at hx' <;> norm_num at * <;> omega
    · split_ifs at hx' <;> norm_num at * <;> omega
    · rintro r v' ⟨_, hv⟩
      exact wp_pure.mpr hv
  refine wp_mono (wp_and hquiet (erases_readi v (fun _ => False) _ (Blocks.wp_readi h hdev ho hn)))
    ?_
  rintro r v' ⟨hv, ⟨_, hr⟩, _⟩
  exact ⟨hv, hr⟩

end Reading

end Xv6Mlfq.Blocks.Logged
