import Xv6Mlfq.Log.Users
import Mathlib.Algebra.Order.BigOperators.Group.Finset

/-!
# The space that `begin_op` reserves

`begin_op` lets an operation in when the log has room for `MAXOPBLOCKS` more blocks for each
operation, counted against `LOGSIZE`.  But one of the `LOGSIZE` blocks that `mkfs` gives to the log
is the header, and `log_write` panics when the others are used up, before it looks whether the
block is in the log already.  Three operations that use all they may are one block too many; with
one block less for each there is always room.

## Main results

* `log_write_fits` — no panic when operations stay below `MAXOPBLOCKS` blocks.
* `log_write_panics` — the panic, with operations of `MAXOPBLOCKS` blocks.
-/

namespace Xv6Mlfq

open Function (update update_self update_of_ne)

variable {P : Type}

/-- The history variable: the block numbers that the current operation of each process has passed
to `log_write`. -/
def passed [DecidableEq P] (_ : LogSys P) (l : LogLabel P) (w : P → Finset ℕ) : P → Finset ℕ :=
  match l with
  | .beginOp p => update w p ∅
  | .logWrite p b => update w p (insert b (w p))
  | _ => w

/-- The operation passes at most `k` block numbers to `log_write`, this one included. -/
def Within (k : ℕ) (sw : LogSys P × (P → Finset ℕ)) : LogLabel P → Prop
  | .logWrite p b => (insert b (sw.2 p)).card ≤ k
  | _ => True

instance (k : ℕ) (sw : LogSys P × (P → Finset ℕ)) (l : LogLabel P) : Decidable (Within k sw l) :=
  match l with
  | .logWrite p b => inferInstanceAs (Decidable ((insert b (sw.2 p)).card ≤ k))
  | .beginOp _ | .bread _ _ | .modify _ _ _ | .logAppend _ | .brelse _ _ | .endOp _ | .commit
  | .recover | .crash => .isTrue trivial

/-! ## The reservation -/

/-- What is still set aside for the operation of `p`: the block it is about to add to the header,
and those it may still pass to `log_write`. -/
def charge (s : LogSys P) (w : P → Finset ℕ) (p : P) : ℕ :=
  (match s.op p with
    | .logging b => if b ∈ s.lh then 0 else 1
    | _ => 0) + (MAXOPBLOCKS - 1 - (w p).card)

/-- What is set aside and what is used stay below the size of the log. -/
structure Reserve (A : Finset P) (s : LogSys P) (w : P → Finset ℕ) : Prop where
  active : ∀ p, p ∈ A ↔ (s.op p).active = true
  idle : A = ∅ → s.lh = []
  logged : ∀ p ∈ A, ∀ b ∈ w p, b ∈ s.lh ∨ s.op p = .logging b
  passing : ∀ p b, s.op p = .logging b → b ∈ w p
  fits : s.lh.length + ∑ p ∈ A, charge s w p ≤ nlog - 2

/-- The invariant: the log has been emptied when it opens, and the panic has not been reached. -/
structure ReserveInv (s : LogSys P) (w : P → Finset ℕ) : Prop where
  users : Users s
  reserve : s.mode = .up → ∃ A, Reserve A s w
  finish : s.mode = .finish → s.lh = []
  panic : s.panicked ≠ some "too big a transaction"

variable {A : Finset P} {s s' : LogSys P} {w : P → Finset ℕ} {p : P}

/-- An operation sets no more aside than it may use. -/
theorem charge_le (h : Reserve A s w) (p : P) : charge s w p ≤ MAXOPBLOCKS - 1 := by
  simp only [charge]
  split
  case h_1 b hb =>
    -- the block it is about to add is one of those it has passed
    have hpos : 0 < (w p).card := Finset.card_pos.mpr ⟨b, h.passing p b hb⟩
    split_ifs
    · omega
    · simp only [MAXOPBLOCKS]
      omega
  case h_2 => omega

/-- The charges when no process is in an operation. -/
theorem reserve_empty (w : P → Finset ℕ) (hq : ∀ p, (s.op p).active = false)
    (hl : s.lh = []) : Reserve ∅ s w where
  active p := by simp [hq p]
  idle _ := hl
  logged p hp := by simp at hp
  passing p b hp := by
    have := hq p
    rw [hp] at this
    cases this
  fits := by simp [hl]

/-- A step of a process that is not about the header. -/
theorem Reserve.of_eq (h : Reserve A s w)
    (ho : s'.op = s.op) (hl : s'.lh = s.lh) : Reserve A s' w where
  active := by rw [ho]; exact h.active
  idle := by rw [hl]; exact h.idle
  logged := by rw [ho, hl]; exact h.logged
  passing := by rw [ho]; exact h.passing
  fits := by
    simp only [charge, ho, hl]
    exact h.fits

theorem ReserveInv.commit (h : ReserveInv s w) (hs : CommitStep s s') : ReserveInv s' w := by
  have hU := h.users.commit hs
  cases hs with
  | copy tail b hm hb hr => exact ⟨hU, by simp, by simp, h.panic⟩
  | head tail hm hb hr => exact ⟨hU, by simp, by simp, h.panic⟩
  | install tail b hm hb => exact ⟨hU, by simp, by simp, h.panic⟩
  | clear tail hm hb => exact ⟨hU, by simp, fun _ => rfl, h.panic⟩
  | finish hm =>
    refine ⟨hU, fun _ => ⟨∅, reserve_empty w (fun p => ?_) (h.finish hm)⟩, by simp, h.panic⟩
    by_cases hp : s.op p = .commit
    · simp [hp, Op.active]
    · simpa [hp] using h.users.quiet (by simp [hm]) p
  | panic _ =>
    refine ⟨hU, fun hm => ?_, h.finish, by simp [LogSys.panic]⟩
    obtain ⟨A, hA⟩ := h.reserve hm
    exact ⟨A, hA.of_eq rfl rfl⟩

theorem ReserveInv.recover (h : ReserveInv s w) (hs : RecoverStep s s') : ReserveInv s' w := by
  have hU := h.users.recover hs
  cases hs with
  | read lh hm hb => exact ⟨hU, by simp, by simp, h.panic⟩
  | install tail b hm hb => exact ⟨hU, by simp, by simp, h.panic⟩
  | clear tail hm hb =>
    have hq := h.users.quiet (by simp [hm])
    exact ⟨hU, fun _ => ⟨∅, reserve_empty w hq rfl⟩, by simp, h.panic⟩
  | panic =>
    refine ⟨hU, fun hm => ?_, h.finish, by simp [LogSys.panic]⟩
    obtain ⟨A, hA⟩ := h.reserve hm
    exact ⟨A, hA.of_eq rfl rfl⟩

variable [DecidableEq P]

/-- `begin_op` -/
theorem Reserve.beginOp (h : Reserve A s w) (hcard : A.card = s.outstanding) (hp : s.op p = .out)
    (hroom : s.lh.length + (s.outstanding + 1) * MAXOPBLOCKS ≤ LOGSIZE) :
    Reserve (insert p A)
      { s with outstanding := s.outstanding + 1, op := update s.op p .inOp }
      (update w p ∅) := by
  have hpA : p ∉ A := by simp [h.active, hp, Op.active]
  have hne : ∀ {q}, q ∈ A → q ≠ p := by
    rintro q hq rfl
    exact hpA hq
  constructor
  case active =>
    intro q
    by_cases hq : q = p
    · subst hq
      simp [Op.active]
    · simp [hq, h.active]
  case idle => exact fun he => absurd he (Finset.insert_ne_empty p A)
  case logged =>
    intro q hq b hb
    rcases Finset.mem_insert.mp hq with rfl | hq
    · simp at hb
    · simp only [update_of_ne (hne hq)] at hb ⊢
      exact h.logged q hq b hb
  case passing =>
    intro q b hq
    by_cases hqp : q = p
    · subst hqp
      simp at hq
    · simp only [update_of_ne hqp] at hq ⊢
      exact h.passing q b hq
  case fits =>
    have hold : ∑ q ∈ A, charge { s with
        outstanding := s.outstanding + 1, op := update s.op p .inOp } (update w p ∅) q =
        ∑ q ∈ A, charge s w q := by
      refine Finset.sum_congr rfl fun q hq => ?_
      simp only [charge, update_of_ne (hne hq)]
    have hnew : charge { s with
        outstanding := s.outstanding + 1, op := update s.op p .inOp } (update w p ∅) p =
        MAXOPBLOCKS - 1 := by
      simp [charge]
    have hsum : ∑ q ∈ A, charge s w q ≤ A.card * (MAXOPBLOCKS - 1) :=
      Finset.sum_le_card_nsmul A _ _ fun q _ => charge_le h q
    rw [Finset.sum_insert hpA, hold, hnew]
    simp only [nlog, LOGSIZE, MAXOPBLOCKS] at hroom hsum ⊢
    -- the first operation finds the log empty
    by_cases hA : A = ∅
    · simp [h.idle hA, hA]
    · have hpos : 0 < A.card := Finset.card_pos.mpr (Finset.nonempty_iff_ne_empty.mpr hA)
      omega

/-- `log_write` passes its checks with a block that leaves the operation within its limit. -/
theorem Reserve.logWrite {b : ℕ} (h : Reserve A s w) (hp : s.op p = .inOp)
    (hw : (insert b (w p)).card ≤ MAXOPBLOCKS - 1) :
    Reserve A { s with op := update s.op p (.logging b) } (update w p (insert b (w p))) := by
  have hact : ∀ q, (update s.op p (.logging b) q).active = (s.op q).active :=
    active_update (by rw [hp]; rfl)
  constructor
  case active => exact fun q => by rw [h.active, ← hact q]
  case idle => exact h.idle
  case logged =>
    intro q hq x hx
    by_cases hqp : q = p
    · subst hqp
      simp only [update_self] at hx ⊢
      rcases Finset.mem_insert.mp hx with rfl | hx
      · exact .inr rfl
      · exact .inl ((h.logged q hq x hx).resolve_right (by rw [hp]; simp))
    · simp only [update_of_ne hqp] at hx ⊢
      exact h.logged q hq x hx
  case passing =>
    intro q x hq
    by_cases hqp : q = p
    · subst hqp
      simp only [update_self] at hq ⊢
      cases hq
      exact Finset.mem_insert_self _ _
    · simp only [update_of_ne hqp] at hq ⊢
      exact h.passing q x hq
  case fits =>
    refine le_trans (Nat.add_le_add_left (Finset.sum_le_sum fun q hq => ?_) _) h.fits
    by_cases hqp : q = p
    · subst hqp
      simp only [charge, update_self, hp]
      by_cases hb : b ∈ w q
      · -- a block that was passed before is in the header
        have hlh := (h.logged q hq b hb).resolve_right (by rw [hp]; simp)
        simp [hlh, Finset.insert_eq_of_mem hb]
      · rw [Finset.card_insert_of_notMem hb] at hw ⊢
        split_ifs <;> omega
    · simp only [charge, update_of_ne hqp, le_refl]

/-- `log_write` adds the block to the header. -/
theorem Reserve.logAppend {b : ℕ} (h : Reserve A s w) (hp : s.op p = .logging b) :
    Reserve A { s with
      lh := absorb b s.lh
      dirty := insert b s.dirty
      unlogged := s.unlogged.erase b
      op := update s.op p .inOp } w := by
  have hact : ∀ q, (update s.op p .inOp q).active = (s.op q).active :=
    active_update (by rw [hp]; rfl)
  have hpA : p ∈ A := (h.active p).mpr (by rw [hp]; rfl)
  constructor
  case active => exact fun q => by rw [h.active, ← hact q]
  case idle => exact fun hA => by simp [hA] at hpA
  case logged =>
    intro q hq x hx
    rw [mem_absorb]
    by_cases hqp : q = p
    · subst hqp
      rcases h.logged q hq x hx with hl | hl
      · exact .inl (.inl hl)
      · rw [hp] at hl
        cases hl
        exact .inl (.inr rfl)
    · simp only [update_of_ne hqp]
      exact (h.logged q hq x hx).imp_left .inl
  case passing =>
    intro q x hq
    by_cases hqp : q = p
    · subst hqp
      simp at hq
    · exact h.passing q x (by simpa [hqp] using hq)
  case fits =>
    have hle : ∀ q, charge { s with
        lh := absorb b s.lh
        dirty := insert b s.dirty
        unlogged := s.unlogged.erase b
        op := update s.op p .inOp } w q ≤ charge s w q := by
      intro q
      simp only [charge]
      refine Nat.add_le_add_right ?_ _
      by_cases hqp : q = p
      · subst hqp
        simp
      · rw [update_of_ne hqp]
        split
        case h_1 x hx =>
          by_cases hxl : x ∈ s.lh
          · simp [hxl]
          · simp only [hxl, if_false]
            split_ifs <;> omega
        case h_2 => exact le_rfl
    by_cases hb : b ∈ s.lh
    · rw [absorb_of_mem hb]
      rw [absorb_of_mem hb] at hle
      exact le_trans (Nat.add_le_add_left (Finset.sum_le_sum fun q _ => hle q) _) h.fits
    · -- the block goes from what is set aside to what is used
      have hlt := Finset.sum_lt_sum (fun q _ => hle q) ⟨p, hpA, by simp [charge, hp, hb]⟩
      have hlen : (absorb b s.lh).length = s.lh.length + 1 := by simp [absorb_of_notMem hb]
      have hfits := h.fits
      simp only [hlen]
      omega

/-- `end_op` of an operation that is not the last. -/
theorem Reserve.endOp (h : Reserve A s w) (hcard : A.card = s.outstanding) (hp : s.op p = .inOp)
    (hn : s.outstanding - 1 ≠ 0) :
    Reserve (A.erase p) { s with
      outstanding := s.outstanding - 1, op := update s.op p .out } w := by
  have hpA : p ∈ A := (h.active p).mpr (by rw [hp]; rfl)
  constructor
  case active =>
    intro q
    by_cases hq : q = p
    · subst hq
      simp [Op.active]
    · simp [hq, h.active]
  case idle =>
    intro hA
    have hzero := Finset.card_erase_of_mem hpA
    rw [hA, hcard] at hzero
    exact absurd hzero.symm hn
  case logged =>
    intro q hq x hx
    obtain ⟨hqp, hqA⟩ := Finset.mem_erase.mp hq
    simp only [update_of_ne hqp]
    exact h.logged q hqA x hx
  case passing =>
    intro q x hq
    by_cases hqp : q = p
    · subst hqp
      simp at hq
    · exact h.passing q x (by simpa [hqp] using hq)
  case fits =>
    refine le_trans (Nat.add_le_add_left ?_ _) h.fits
    calc ∑ q ∈ A.erase p, charge { s with
          outstanding := s.outstanding - 1, op := update s.op p .out } w q
        = ∑ q ∈ A.erase p, charge s w q := by
          refine Finset.sum_congr rfl fun q hq => ?_
          simp only [charge, update_of_ne (Finset.ne_of_mem_erase hq)]
      _ ≤ ∑ q ∈ A, charge s w q := Finset.sum_le_sum_of_subset (Finset.erase_subset p A)

/-! ## Runs -/

/-- **Every step within the limit keeps the reservation.** -/
theorem reserveInv_step {l : LogLabel P}
    (h : ReserveInv s w) (hw : Within (MAXOPBLOCKS - 1) (s, w) l) (hs : logStep l s = some s') :
    ReserveInv s' (passed s l w) := by
  have hU := users_step h.users hs
  -- a step that touches neither the header nor an operation
  have keep : ∀ {t : LogSys P}, Users t → t.op = s.op → t.lh = s.lh → t.mode = s.mode →
      t.panicked ≠ some "too big a transaction" → ReserveInv t w := by
    intro t hUt ho hl hm hp
    refine ⟨hUt, fun h' => ?_, fun h' => by rw [hl]; exact h.finish (hm ▸ h'), hp⟩
    obtain ⟨A, hA⟩ := h.reserve (hm ▸ h')
    exact ⟨A, hA.of_eq ho hl⟩
  cases l with
  | beginOp p =>
    obtain ⟨hb, hp, hc, hroom, rfl⟩ := step_beginOp hs
    have hm : s.mode = .up := by
      by_contra hm
      rw [h.users.committing.mpr ⟨hb, hm⟩] at hc
      cases hc
    obtain ⟨A, hA⟩ := h.reserve hm
    have hA' := hA.beginOp (h.users.card_eq hA.active) hp hroom
    exact ⟨hU, fun _ => ⟨_, hA'⟩, fun h' => absurd (hm.symm.trans h') (by simp), h.panic⟩
  | bread p b =>
    obtain ⟨-, -, ⟨-, rfl⟩ | rfl⟩ := step_bread hs
    · exact keep hU rfl rfl rfl h.panic
    · exact keep hU rfl rfl rfl (by simp [LogSys.panic])
  | modify p b d =>
    obtain ⟨-, -, -, rfl⟩ := step_modify hs
    exact keep hU rfl rfl rfl h.panic
  | logWrite p b =>
    obtain ⟨hp, -, -, hcases⟩ := step_logWrite hs
    have hm := h.users.mode_eq_up (p := p) (by rw [hp]; rfl)
    obtain ⟨A, hA⟩ := h.reserve hm
    have hlen : s.lh.length ≤ nlog - 2 := (Nat.le_add_right _ _).trans hA.fits
    rcases hcases with ⟨hbig, -⟩ | ⟨-, hout, -⟩ | ⟨-, rfl⟩
    · simp only [nlog, LOGSIZE, MAXOPBLOCKS] at hbig hlen
      omega
    · have hpA : p ∈ A := (hA.active p).mpr (by rw [hp]; rfl)
      have hpos := Finset.card_pos.mpr ⟨p, hpA⟩
      rw [h.users.card_eq hA.active] at hpos
      omega
    · exact ⟨hU, fun _ => ⟨A, hA.logWrite hp hw⟩,
        fun h' => absurd (hm.symm.trans h') (by simp), h.panic⟩
  | logAppend p =>
    obtain ⟨b, hp, rfl⟩ := step_logAppend hs
    have hm := h.users.mode_eq_up (p := p) (by rw [hp]; rfl)
    obtain ⟨A, hA⟩ := h.reserve hm
    exact ⟨hU, fun _ => ⟨A, hA.logAppend hp⟩,
      fun h' => absurd (hm.symm.trans h') (by simp), h.panic⟩
  | brelse p b =>
    obtain ⟨-, -, -, rfl⟩ := step_brelse hs
    exact keep hU rfl rfl rfl h.panic
  | endOp p =>
    obtain ⟨hp, -, hcases⟩ := step_endOp hs
    have hm := h.users.mode_eq_up (p := p) (by rw [hp]; rfl)
    rcases hcases with ⟨hc, -⟩ | ⟨-, rfl⟩ | ⟨hz, rfl⟩
    · exact absurd hm (h.users.committing.mp hc).2
    · refine ⟨hU, fun h' => ?_, fun h' => ?_, h.panic⟩
      · simp only at h'
        split_ifs at h'
      · simp only at h' ⊢
        split_ifs at h' with hl
        exact List.length_eq_zero_iff.mp (Nat.eq_zero_of_not_pos hl)
    · obtain ⟨A, hA⟩ := h.reserve hm
      exact ⟨hU, fun _ => ⟨_, hA.endOp (h.users.card_eq hA.active) hp hz⟩,
        fun h' => absurd (hm.symm.trans h') (by simp), h.panic⟩
  | commit => exact h.commit (step_commit hs)
  | recover => exact h.recover (step_recover hs)
  | crash =>
    rw [step_crash hs]
    exact ⟨users_boot _, by simp [LogSys.boot], by simp [LogSys.boot], by simp [LogSys.boot]⟩

/-- **There is room in the log** when every operation passes fewer than `MAXOPBLOCKS` distinct
block numbers to `log_write`: for any number of processes, any interleaving and any crashes the
check in `log_write` does not fail. -/
theorem log_write_fits (disk₀ : Disk) (ls : List (LogLabel P)) (s : LogSys P)
    (w : P → Finset ℕ)
    (hx : Transition.exec (Transition.observed logStep passed) ls (.boot disk₀, fun _ => ∅) =
      some (s, w))
    (hw : Transition.Along (Transition.observed logStep passed) (Within (MAXOPBLOCKS - 1)) ls
      (.boot disk₀, fun _ => ∅)) :
    s.panicked ≠ some "too big a transaction" := by
  have hI := Transition.along_invariant
    (I := fun sw : LogSys P × (P → Finset ℕ) => ReserveInv sw.1 sw.2) hx hw
    ⟨users_boot _, by simp [LogSys.boot], by simp [LogSys.boot], by simp [LogSys.boot]⟩ ?_
  · exact hI.panic
  · rintro ⟨s, w⟩ l ⟨s', w'⟩ hI hw hs
    obtain ⟨hstep, rfl⟩ := Transition.observed_some.mp hs
    exact reserveInv_step hI hw hstep

/-- One operation with one block. -/
theorem log_write_fits_once : ∃ s : LogSys Unit,
    s.lh = [40] ∧ s.panicked ≠ some "too big a transaction" := by
  have hrun : ∃ sw : LogSys Unit × (Unit → Finset ℕ),
      Transition.exec (Transition.observed logStep passed)
        [.recover, .recover, .beginOp (), .bread () 40, .logWrite () 40, .logAppend ()]
        (.boot fun _ _ => 0, fun _ => ∅) = some sw ∧ sw.1.lh = [40] :=
    Transition.exists_exec _ _ (by decide +kernel)
  obtain ⟨⟨s, w⟩, hx, hl⟩ := hrun
  exact ⟨s, hl, log_write_fits _ _ s w hx (by decide +kernel)⟩

-- the processes are numbers
local instance neZero_three : NeZero 3 := Nat.instNeZeroSucc

/-- A process passes a block to `log_write`. -/
def logsBlock (p : Fin 3) (b : ℕ) : List (LogLabel (Fin 3)) :=
  [.bread p b, .logWrite p b, .logAppend p, .brelse p b]

/-- Three operations pass ten blocks each to `log_write`. -/
def tenEach : List (LogLabel (Fin 3)) :=
  [.recover, .recover, .beginOp 0, .beginOp 1, .beginOp 2] ++
    (List.range 10).flatMap (fun j => logsBlock 0 (100 + j)) ++
    (List.range 10).flatMap (fun j => logsBlock 1 (110 + j)) ++
    (List.range 9).flatMap (fun j => logsBlock 2 (120 + j)) ++
    [.bread 2 129, .logWrite 2 129]

set_option maxRecDepth 10000 in
/-- No operation passes more than `MAXOPBLOCKS` block numbers, and the last call panics. -/
theorem log_write_panics : ∃ sw : LogSys (Fin 3) × (Fin 3 → Finset ℕ),
    Transition.exec (Transition.observed logStep passed) tenEach
      (.boot fun _ _ => 0, fun _ => ∅) = some sw ∧
    (sw.1.panicked = some "too big a transaction" ∧
    Transition.Along (Transition.observed logStep passed) (Within MAXOPBLOCKS) tenEach
      (.boot fun _ _ => 0, fun _ => ∅)) :=
  Transition.exists_exec _ _ (by decide +kernel)

end Xv6Mlfq
