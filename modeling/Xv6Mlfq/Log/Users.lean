import Xv6Mlfq.Log.System
import Mathlib.Data.Finset.Insert

/-!
# The operations of the log

`log.outstanding` is the number of operations between `begin_op` and `end_op`, and none of them
runs while the log commits or recovers: `begin_op` waits for `log.committing`, and `end_op`
commits when it was the last.

## Main results

* `users_step` — every step keeps `Users`.
-/

namespace Xv6Mlfq

open Function (update update_self update_of_ne)

variable {P : Type}

/-- The process is between `begin_op` and `end_op`. -/
def Op.active : Op → Bool
  | .inOp | .logging _ => true
  | _ => false

/-- Operations run only while the log is open, and `log.outstanding` counts them; a block that has
been changed and not yet logged is locked by one of them. -/
structure Users (s : LogSys P) : Prop where
  count : ∃ A : Finset P, A.card = s.outstanding ∧ ∀ p, p ∈ A ↔ (s.op p).active = true
  quiet : s.mode ≠ .up → ∀ p, (s.op p).active = false
  committing : s.committing = true ↔ s.booted = true ∧ s.mode ≠ .up
  unlogged : ∀ b ∈ s.unlogged, ∃ p, (p, b) ∈ s.held ∧ (s.op p).active = true

variable {s s' : LogSys P} {p : P}

theorem Users.mode_eq_up (h : Users s) (hp : (s.op p).active = true) : s.mode = .up := by
  by_contra hm
  rw [h.quiet hm p] at hp
  cases hp

/-- Nothing is unlogged while the log commits. -/
theorem Users.unlogged_eq_empty (h : Users s) (hm : s.mode ≠ .up) : s.unlogged = ∅ := by
  refine Finset.eq_empty_of_forall_notMem fun b hb => ?_
  obtain ⟨p, -, hp⟩ := h.unlogged b hb
  exact hm (h.mode_eq_up hp)

theorem Users.card_eq (h : Users s) {A : Finset P}
    (hA : ∀ p, p ∈ A ↔ (s.op p).active = true) : A.card = s.outstanding := by
  obtain ⟨B, hB, hmem⟩ := h.count
  rw [← hB]
  congr 1
  ext p
  rw [hA, hmem]

theorem users_boot (disk : Disk) : Users (LogSys.boot disk : LogSys P) where
  count := ⟨∅, rfl, fun p => by simp [LogSys.boot, Op.active]⟩
  quiet _ _ := rfl
  committing := by simp [LogSys.boot, LogSys.booted]
  unlogged b hb := by simp [LogSys.boot] at hb

/-- A step of the log itself: no operation is running, before and after. -/
theorem Users.of_quiet (h : Users s) (hm : s.mode ≠ .up)
    (ho : ∀ p, (s'.op p).active = (s.op p).active) (hn : s'.outstanding = s.outstanding)
    (hu : s'.unlogged = s.unlogged)
    (hc : s'.committing = true ↔ s'.booted = true ∧ s'.mode ≠ .up) : Users s' where
  count := by
    obtain ⟨A, hA, hmem⟩ := h.count
    exact ⟨A, by rw [hA, hn], fun p => by rw [hmem, ho]⟩
  quiet _ p := by rw [ho, h.quiet hm p]
  committing := hc
  unlogged b hb := by
    rw [hu, h.unlogged_eq_empty hm] at hb
    cases hb

/-- A step of a process that neither begins nor ends an operation. -/
theorem Users.of_active (h : Users s) (hm : s'.mode = s.mode)
    (ho : ∀ p, (s'.op p).active = (s.op p).active) (hn : s'.outstanding = s.outstanding)
    (hc : s'.committing = s.committing)
    (hu : ∀ b ∈ s'.unlogged, ∃ p, (p, b) ∈ s'.held ∧ (s.op p).active = true) : Users s' where
  count := by
    obtain ⟨A, hA, hmem⟩ := h.count
    exact ⟨A, by rw [hA, hn], fun p => by rw [hmem, ho]⟩
  quiet h' p := by rw [ho, h.quiet (hm ▸ h') p]
  committing := by
    simp only [LogSys.booted, hm, hc]
    exact h.committing
  unlogged b hb := by
    obtain ⟨p, hp, ha⟩ := hu b hb
    exact ⟨p, hp, by rw [ho, ha]⟩

theorem Users.panic (h : Users s) (msg : String) : Users (s.panic msg) :=
  h.of_active rfl (fun _ => rfl) rfl rfl h.unlogged

theorem Users.commit (h : Users s) (hs : CommitStep s s') : Users s' := by
  cases hs with
  | copy tail b hm hb hr =>
    have hc := h.committing.mpr ⟨by simp [LogSys.booted, hm], by simp [hm]⟩
    exact h.of_quiet (by simp [hm]) (fun _ => rfl) rfl rfl
      (by simp [LogSys.bwrite, LogSys.booted, hc])
  | head tail hm hb hr =>
    have hc := h.committing.mpr ⟨by simp [LogSys.booted, hm], by simp [hm]⟩
    exact h.of_quiet (by simp [hm]) (fun _ => rfl) rfl rfl
      (by simp [LogSys.writeHeadBlock, LogSys.bwrite, LogSys.booted, hc])
  | install tail b hm hb =>
    have hc := h.committing.mpr ⟨by simp [LogSys.booted, hm], by simp [hm]⟩
    exact h.of_quiet (by simp [hm]) (fun _ => rfl) rfl rfl
      (by simp [LogSys.bwrite, LogSys.booted, hc])
  | clear tail hm hb =>
    have hc := h.committing.mpr ⟨by simp [LogSys.booted, hm], by simp [hm]⟩
    exact h.of_quiet (by simp [hm]) (fun _ => rfl) rfl rfl
      (by simp [LogSys.writeHeadBlock, LogSys.bwrite, LogSys.booted, hc])
  | finish hm =>
    refine h.of_quiet (by simp [hm]) (fun p => ?_) rfl rfl (by simp)
    by_cases hp : s.op p = .commit
    · simp [hp, Op.active]
    · simp [hp]
  | panic _ => exact h.panic _

theorem Users.recover (h : Users s) (hs : RecoverStep s s') : Users s' := by
  have hc : s.booted = false → s.committing = false := by
    intro hb
    refine Bool.eq_false_iff.mpr fun ht => ?_
    rw [(h.committing.mp ht).1] at hb
    cases hb
  cases hs with
  | read lh hm hb =>
    have hc' := hc (by simp [LogSys.booted, hm])
    exact h.of_quiet (by simp [hm]) (fun _ => rfl) rfl rfl (by simp [LogSys.booted, hc'])
  | install tail b hm hb =>
    have hc' := hc (by simp [LogSys.booted, hm])
    exact h.of_quiet (by simp [hm]) (fun _ => rfl) rfl rfl
      (by simp [LogSys.bwrite, LogSys.booted, hc'])
  | clear tail hm hb =>
    have hc' := hc (by simp [LogSys.booted, hm])
    exact h.of_quiet (by simp [hm]) (fun _ => rfl) rfl rfl
      (by simp [LogSys.writeHeadBlock, LogSys.bwrite, hc'])
  | panic => exact h.panic _

variable [DecidableEq P]

/-- A process goes on from one place in an operation to another. -/
theorem active_update {op : P → Op} {x : Op} (h : x.active = (op p).active) (q : P) :
    (update op p x q).active = (op q).active := by
  by_cases hq : q = p
  · subst hq
    rw [update_self, h]
  · rw [update_of_ne hq]

theorem Users.beginOp (h : Users s) (hb : s.booted = true)
    (hp : s.op p = .out) (hc : s.committing = false) :
    Users { s with outstanding := s.outstanding + 1, op := update s.op p .inOp } := by
  have hm : s.mode = .up := by
    by_contra hm
    rw [h.committing.mpr ⟨hb, hm⟩] at hc
    cases hc
  constructor
  case count =>
    obtain ⟨A, hA, hmem⟩ := h.count
    have hpA : p ∉ A := by simp [hmem, hp, Op.active]
    refine ⟨insert p A, by rw [Finset.card_insert_of_notMem hpA, hA], fun q => ?_⟩
    by_cases hq : q = p
    · subst hq
      simp [Op.active]
    · simp [hq, hmem]
  case quiet => exact fun hn => absurd hm hn
  case committing => exact h.committing
  case unlogged =>
    intro b hb
    obtain ⟨q, hq, ha⟩ := h.unlogged b hb
    have hqp : q ≠ p := by
      rintro rfl
      simp [hp, Op.active] at ha
    exact ⟨q, hq, by simpa [hqp] using ha⟩

/-- An operation ends. -/
theorem Users.endOp {x : Op} (h : Users s) (hp : s.op p = .inOp)
    (hx : x.active = false) (hlogged : ∀ y ∈ s.held, y.1 = p → y.2 ∉ s.unlogged)
    (hop : s'.op = update s.op p x) (hn : s'.outstanding = s.outstanding - 1)
    (hu : s'.unlogged = s.unlogged) (hh : s'.held = s.held)
    (hm : s'.mode ≠ .up → s.outstanding - 1 = 0)
    (hc : s'.committing = true ↔ s'.booted = true ∧ s'.mode ≠ .up) : Users s' := by
  obtain ⟨A, hA, hmem⟩ := h.count
  have hpA : p ∈ A := by simp [hmem, hp, Op.active]
  have herase : ∀ q, q ∈ A.erase p ↔ (s'.op q).active = true := by
    intro q
    by_cases hq : q = p
    · subst hq
      simp [hop, hx]
    · simp [hop, hq, hmem]
  have hcard : (A.erase p).card = s'.outstanding := by
    rw [Finset.card_erase_of_mem hpA, hA, hn]
  constructor
  case count => exact ⟨A.erase p, hcard, herase⟩
  case quiet =>
    intro hne q
    have hempty : A.erase p = ∅ := Finset.card_eq_zero.mp (by rw [hcard, hn, hm hne])
    exact Bool.eq_false_iff.mpr fun hq => by simp [← herase q, hempty] at hq
  case committing => exact hc
  case unlogged =>
    intro b hb
    rw [hu] at hb
    obtain ⟨q, hq, ha⟩ := h.unlogged b hb
    have hqp : q ≠ p := fun he => hlogged (q, b) hq he hb
    exact ⟨q, hh ▸ hq, by rwa [hop, update_of_ne hqp]⟩

/-- **Every step keeps the count of the operations.** -/
theorem users_step {l : LogLabel P} (h : Users s) (hs : logStep l s = some s') : Users s' := by
  cases l with
  | beginOp p =>
    obtain ⟨hb, hp, hc, -, rfl⟩ := step_beginOp hs
    exact h.beginOp hb hp hc
  | bread p b =>
    obtain ⟨-, -, ⟨-, rfl⟩ | rfl⟩ := step_bread hs
    · refine h.of_active rfl (fun _ => rfl) rfl rfl fun b' hb' => ?_
      obtain ⟨q, hq, ha⟩ := h.unlogged b' hb'
      exact ⟨q, List.mem_cons_of_mem _ hq, ha⟩
    · exact h.panic _
  | modify p b d =>
    obtain ⟨hp, hh, -, rfl⟩ := step_modify hs
    refine h.of_active rfl (fun _ => rfl) rfl rfl fun b' hb' => ?_
    rcases Finset.mem_insert.mp hb' with rfl | hb'
    · exact ⟨p, hh, by rw [hp]; rfl⟩
    · exact h.unlogged b' hb'
  | logWrite p b =>
    obtain ⟨hp, -, -, ⟨-, rfl⟩ | ⟨-, -, rfl⟩ | ⟨-, rfl⟩⟩ := step_logWrite hs
    · exact h.panic _
    · exact h.panic _
    · exact h.of_active rfl (active_update (by rw [hp]; rfl)) rfl rfl h.unlogged
  | logAppend p =>
    obtain ⟨b, hp, rfl⟩ := step_logAppend hs
    refine h.of_active rfl (active_update (by rw [hp]; rfl)) rfl rfl fun b' hb' => ?_
    exact h.unlogged b' (Finset.mem_of_mem_erase hb')
  | brelse p b =>
    obtain ⟨-, -, hb, rfl⟩ := step_brelse hs
    refine h.of_active rfl (fun _ => rfl) rfl rfl fun b' hb' => ?_
    obtain ⟨q, hq, ha⟩ := h.unlogged b' hb'
    have hne : (q, b') ≠ (p, b) := by
      rintro ⟨⟩
      exact hb hb'
    exact ⟨q, (List.mem_erase_of_ne hne).mpr hq, ha⟩
  | endOp p =>
    obtain ⟨hp, hlogged, ⟨hc, -⟩ | ⟨hz, rfl⟩ | ⟨hz, rfl⟩⟩ := step_endOp hs
    · -- the log does not commit while `p` is in an operation
      exact absurd (h.mode_eq_up (by rw [hp]; rfl)) (h.committing.mp hc).2
    · refine h.endOp hp rfl hlogged rfl rfl rfl rfl (fun _ => hz) ?_
      split_ifs
      · simp [LogSys.booted]
      · simp [LogSys.booted]
    · have hm := h.mode_eq_up (p := p) (by rw [hp]; rfl)
      refine h.endOp hp rfl hlogged rfl rfl rfl rfl (fun hn => absurd hm hn) ?_
      simpa [LogSys.booted, hm] using h.committing
  | commit => exact h.commit (step_commit hs)
  | recover => exact h.recover (step_recover hs)
  | crash =>
    rw [step_crash hs]
    exact users_boot _

end Xv6Mlfq
