import Mathlib.Data.Option.Basic
import Mathlib.Logic.Basic

/-!
# Runs of a partial labelled step function

A system is a step function `ι → σ → Option σ`: a label either is not enabled in a
state (`none`) or leads to exactly one next state.  All nondeterminism — which CPU
moves, what the environment answers — is in the choice of the labels, so a run is a
list of labels and reachability is an existential over lists.

Two constructions recur in every result about whole runs.  `Along C ls s` says that
each step of the run meets a condition `C` *in the state the step is taken from*;
`along_invariant` is the induction rule for results that hold only of such runs.
`observed` adds a history variable to a system: it is updated at every step, never
read by the step function, and so changes no run.

## Main definitions

* `exec step ls s` — run the labels `ls` from `s`.
* `Reachable step s₀ s` — some run leads from `s₀` to `s`.
* `Along step C ls s` — every step of the run meets `C`.
* `observed step obs` — the system with a history variable.
* `trace step out ls s` — what the steps of the run put out.
-/

namespace Transition

universe u v w
variable {σ : Type u} {ι : Type v} {ω : Type w} (step : ι → σ → Option σ)

/-- Run a list of labels; `none` when one of them is not enabled. -/
def exec : List ι → σ → Option σ
  | [], s => some s
  | l :: ls, s => (step l s).bind (exec ls)

@[simp] theorem exec_nil (s : σ) : exec step [] s = some s := rfl

theorem exec_cons (l : ι) (ls : List ι) (s : σ) :
    exec step (l :: ls) s = (step l s).bind (exec step ls) := rfl

variable {step}

variable {l : ι} {ls : List ι} {s t s₀ : σ} {C : σ → ι → Prop}

theorem exec_cons_some :
    exec step (l :: ls) s = some t ↔ ∃ s', step l s = some s' ∧ exec step ls s' = some t := by
  rw [exec_cons, Option.bind_eq_some_iff]

theorem exec_append {ls₁ ls₂ : List ι} :
    exec step (ls₁ ++ ls₂) s = (exec step ls₁ s).bind (exec step ls₂) := by
  induction ls₁ generalizing s with
  | nil => rfl
  | cons l ls₁ ih =>
    rw [List.cons_append, exec_cons, exec_cons]
    cases step l s with
    | none => rfl
    | some s' => exact ih

theorem exec_append_some {ls₁ ls₂ : List ι} : exec step (ls₁ ++ ls₂) s = some t ↔
      ∃ r, exec step ls₁ s = some r ∧ exec step ls₂ r = some t := by
  rw [exec_append, Option.bind_eq_some_iff]

variable (step)

/-- Some run leads from `s₀` to `s`. -/
def Reachable (s₀ s : σ) : Prop := ∃ ls, exec step ls s₀ = some s

/-- Every step of the run meets `C` in the state it is taken from. -/
def Along (C : σ → ι → Prop) : List ι → σ → Prop
  | [], _ => True
  | l :: ls, s => C s l ∧ ∀ s', step l s = some s' → Along C ls s'

variable {step}

theorem Reachable.refl (s : σ) : Reachable step s s := ⟨[], rfl⟩

theorem Reachable.of_exec (h : Reachable step s₀ s)
    (hx : exec step ls s = some t) : Reachable step s₀ t := by
  obtain ⟨ls₀, h₀⟩ := h
  exact ⟨ls₀ ++ ls, exec_append_some.mpr ⟨s, h₀, hx⟩⟩

theorem Reachable.next (h : Reachable step s₀ s)
    (hx : step l s = some t) : Reachable step s₀ t := by
  have hl : Transition.exec step [l] s = some t := exec_cons_some.mpr ⟨t, hx, rfl⟩
  exact h.of_exec hl

/-- **The invariant rule.**  What holds at the start and is preserved by every step
holds in every reachable state. -/
theorem Reachable.invariant {I : σ → Prop} (h : Reachable step s₀ s)
    (h₀ : I s₀) (hstep : ∀ s l s', I s → step l s = some s' → I s') : I s := by
  obtain ⟨ls, hx⟩ := h
  induction ls generalizing s₀ with
  | nil => rw [exec_nil] at hx; rwa [← Option.some.inj hx]
  | cons l ls ih =>
    obtain ⟨s', hl, hls⟩ := exec_cons_some.mp hx
    exact ih (hstep s₀ l s' h₀ hl) hls

/-- What holds at the end and not at the beginning was brought about by some step. -/
theorem exists_change {P : σ → Prop} (hx : exec step ls s = some t)
    (hs : ¬ P s) (ht : P t) : ∃ ls₁ l ls₂ r r', ls = ls₁ ++ l :: ls₂ ∧
      exec step ls₁ s = some r ∧ step l r = some r' ∧ ¬ P r ∧ P r' := by
  induction ls generalizing s with
  | nil =>
    rw [exec_nil] at hx
    exact absurd (Option.some.inj hx ▸ ht) hs
  | cons l ls ih =>
    obtain ⟨s', hl, hls⟩ := exec_cons_some.mp hx
    by_cases hs' : P s'
    · exact ⟨[], l, ls, s, s', rfl, rfl, hl, hs, hs'⟩
    · obtain ⟨ls₁, l', ls₂, r, r', rfl, hr, hstep, hn, hp⟩ := ih hls hs'
      exact ⟨l :: ls₁, l', ls₂, r, r', rfl, exec_cons_some.mpr ⟨s', hl, hr⟩, hstep, hn, hp⟩

/-- A run is found, and its last state checked, by evaluation. -/
theorem exists_exec (ls : List ι) (P : σ → Prop) [DecidablePred P]
    (h : (exec step ls s₀).any (fun s => decide (P s)) = true) :
    ∃ s, exec step ls s₀ = some s ∧ P s := by
  cases hx : exec step ls s₀ with
  | none => rw [hx] at h; cases h
  | some s => rw [hx] at h; exact ⟨s, rfl, of_decide_eq_true h⟩

instance decidableAlong (C : σ → ι → Prop) [∀ s l, Decidable (C s l)] :
    (ls : List ι) → (s : σ) → Decidable (Along step C ls s)
  | [], _ => .isTrue trivial
  | l :: ls, s =>
    match h : step l s with
    | some s' =>
      have := decidableAlong C ls s'
      decidable_of_iff (C s l ∧ Along step C ls s') (by simp [Along, h])
    | none => decidable_of_iff (C s l) (by simp [Along, h])

/-- A condition on labels. -/
theorem along_of_forall {C : ι → Prop} (s : σ) (h : ∀ l ∈ ls, C l) :
    Along step (fun _ l => C l) ls s := by
  induction ls generalizing s with
  | nil => trivial
  | cons l ls ih =>
    exact ⟨h l List.mem_cons_self, fun s' _ => ih s' fun l' hl' => h l'
      (List.mem_cons_of_mem l hl')⟩

theorem Along.and {D : σ → ι → Prop} (h : Along step C ls s)
    (h' : Along step D ls s) : Along step (fun s l => C s l ∧ D s l) ls s := by
  induction ls generalizing s with
  | nil => trivial
  | cons l ls ih => exact ⟨⟨h.1, h'.1⟩, fun s' hs' => ih (h.2 s' hs') (h'.2 s' hs')⟩

theorem along_append {ls₁ ls₂ : List ι} {r : σ} (hx : exec step ls₁ s = some r) :
    Along step C (ls₁ ++ ls₂) s ↔ Along step C ls₁ s ∧ Along step C ls₂ r := by
  induction ls₁ generalizing s with
  | nil =>
    rw [exec_nil] at hx
    rw [← Option.some.inj hx]
    exact ⟨fun h => ⟨trivial, h⟩, fun h => h.2⟩
  | cons l ls₁ ih =>
    obtain ⟨s', hl, hls⟩ := exec_cons_some.mp hx
    constructor
    · intro h
      have h' := (ih hls).mp (h.2 s' hl)
      refine ⟨⟨h.1, fun t ht => ?_⟩, h'.2⟩
      rw [← Option.some.inj (hl.symm.trans ht)]
      exact h'.1
    · intro h
      refine ⟨h.1.1, fun t ht => ?_⟩
      rw [← Option.some.inj (hl.symm.trans ht)]
      exact (ih hls).mpr ⟨h.1.2 s' hl, h.2⟩

/-- **The invariant rule for conditioned runs.**  The step obligation may use the
condition, which is read in the state before the step. -/
theorem along_invariant {I : σ → Prop}
    (hx : exec step ls s = some t) (hC : Along step C ls s) (h₀ : I s)
    (hstep : ∀ s l s', I s → C s l → step l s = some s' → I s') : I t := by
  induction ls generalizing s with
  | nil => rw [exec_nil] at hx; rwa [← Option.some.inj hx]
  | cons l ls ih =>
    obtain ⟨s', hl, hls⟩ := exec_cons_some.mp hx
    exact ih hls (hC.2 s' hl) (hstep s l s' h₀ hC.1 hl)

/-- What follows from an invariant of conditioned runs holds of each of their steps. -/
theorem along_of_invariant {D : σ → ι → Prop} {I : σ → Prop} (hC : Along step C ls s) (h₀ : I s)
    (hstep : ∀ s l s', I s → C s l → step l s = some s' → I s')
    (hD : ∀ s l, I s → C s l → D s l) : Along step D ls s := by
  induction ls generalizing s with
  | nil => trivial
  | cons l ls ih =>
    exact ⟨hD s l h₀ hC.1, fun s' hs' => ih (hC.2 s' hs') (hstep s l s' h₀ hC.1 hs')⟩

/-! ## History variables -/

variable (step)

/-- The system with a history variable: `obs s l w` is its value after the step `l`
taken from `s` when it was `w` before. -/
def observed (obs : σ → ι → ω → ω) : ι → σ × ω → Option (σ × ω) :=
  fun l sw => (step l sw.1).map fun s' => (s', obs sw.1 l sw.2)

variable {step}

theorem observed_some {obs : σ → ι → ω → ω} {w w' : ω} :
    observed step obs l (s, w) = some (t, w') ↔ step l s = some t ∧ w' = obs s l w := by
  simp only [observed, Option.map_eq_some_iff, Prod.mk.injEq]
  constructor
  · rintro ⟨s', hs, rfl, rfl⟩
    exact ⟨hs, rfl⟩
  · rintro ⟨hs, rfl⟩
    exact ⟨t, hs, rfl, rfl⟩

/-- A history variable changes no run. -/
theorem exec_of_observed {obs : σ → ι → ω → ω} {w w' : ω}
    (hx : exec (observed step obs) ls (s, w) = some (t, w')) : exec step ls s = some t := by
  induction ls generalizing s w with
  | nil =>
    rw [exec_nil] at hx
    cases hx
    rfl
  | cons l ls ih =>
    obtain ⟨⟨s', v⟩, hl, hls⟩ := exec_cons_some.mp hx
    exact exec_cons_some.mpr ⟨s', (observed_some.mp hl).1, ih hls⟩

/-- A condition on the system is a condition on the observed system. -/
theorem along_observed (obs : σ → ι → ω → ω) (w : ω)
    (h : Along step C ls s) : Along (observed step obs) (fun sw l => C sw.1 l) ls (s, w) := by
  induction ls generalizing s w with
  | nil => trivial
  | cons l ls ih =>
    refine ⟨h.1, fun sw hsw => ?_⟩
    obtain ⟨hs, -⟩ := observed_some.mp hsw
    exact ih sw.2 (h.2 sw.1 hs)

/-! ## Traces -/

variable (step)

/-- What the steps of a run put out. -/
def trace (out : σ → ι → Option ω) : List ι → σ → List ω
  | [], _ => []
  | l :: ls, s => (out s l).toList ++ (step l s).elim [] (trace out ls)

variable {step}

theorem trace_cons {out : σ → ι → Option ω} {s' : σ} (h : step l s = some s')
    (ls : List ι) : trace step out (l :: ls) s = (out s l).toList ++ trace step out ls s' := by
  rw [trace, h]
  rfl

end Transition
