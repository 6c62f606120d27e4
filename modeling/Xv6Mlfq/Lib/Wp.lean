import Mathlib.Order.Defs.Unbundled
import Mathlib.Tactic.Common

/-!
# Programs with state and faults

A program is a function of a state that returns a value and a new state, or stops with a fault.
`wp F m Q s` says that `m`, run from `s`, either returns and `Q` holds of the value and the new
state, or stops with a fault in `F`.

## Main results

* `wp_mono`, `wp_faults` — a weaker postcondition, and more faults.
* `wp_pure`, `wp_bind`, `wp_throw`, `wp_modify`, `wp_look` — one rule for each construct.
* `wp_ok`, `wp_of_ok`, `wp_error`, `exists_ok` — from a precondition to a run.
* `Moves` — what every run of a program only increases or keeps, with a rule for each construct.
-/

namespace Wp

universe u
variable {σ ε : Type u} {α β : Type u}

/-- A program over the state `σ` with faults in `ε`. -/
abbrev Prog (σ ε : Type u) (α : Type u) := StateT σ (Except ε) α

/-- The value of a function at the state. -/
def look (f : σ → α) : Prog σ ε α := fun s => .ok (f s, s)

def wp (F : ε → Prop) (m : Prog σ ε α) (Q : α → σ → Prop) (s : σ) : Prop :=
  match m s with
  | .ok (a, s') => Q a s'
  | .error e => F e

variable {F : ε → Prop} {Q R : α → σ → Prop} {s : σ}

variable {m : Prog σ ε α}

theorem wp_mono (h : wp F m Q s) (hQ : ∀ a s', Q a s' → R a s') : wp F m R s := by
  unfold wp at h ⊢
  split at h
  · exact hQ _ _ h
  · exact h

/-- Two facts about one run; one of them bounds the faults. -/
theorem wp_and {G : ε → Prop} (h : wp F m Q s) (h' : wp G m R s) :
    wp F m (fun a s' => Q a s' ∧ R a s') s := by
  unfold wp at h h' ⊢
  cases hm : m s with
  | ok x =>
    rw [hm] at h h'
    exact ⟨h, h'⟩
  | error e =>
    rw [hm] at h
    exact h

/-- More faults are allowed. -/
theorem wp_faults {G : ε → Prop} (h : wp F m Q s) (hF : ∀ e, F e → G e) : wp G m Q s := by
  unfold wp at h ⊢
  split at h
  · exact h
  · exact hF _ h

@[simp] theorem wp_pure {a : α} : wp F (pure a) Q s ↔ Q a s := Iff.rfl

@[simp] theorem wp_throw {e : ε} : wp F (throw e : Prog σ ε α) Q s ↔ F e := Iff.rfl

@[simp] theorem wp_modify {f : σ → σ} {Q : PUnit → σ → Prop} :
    wp F (modify f : Prog σ ε PUnit) Q s ↔ Q ⟨⟩ (f s) := Iff.rfl

@[simp] theorem wp_look {f : σ → α} : wp F (look f : Prog σ ε α) Q s ↔ Q (f s) s := Iff.rfl

@[simp] theorem wp_bind {m : Prog σ ε β} {f : β → Prog σ ε α} :
    wp F (m >>= f) Q s ↔ wp F m (fun b s' => wp F (f b) Q s') s := by
  have hrun : (m >>= f) s = (m s).bind fun x => f x.1 x.2 := rfl
  unfold wp
  rw [hrun]
  cases m s with
  | ok x => exact Iff.rfl
  | error e => exact Iff.rfl

theorem wp_ok {a : α} {s' : σ} (h : wp F m Q s) (hm : m s = .ok (a, s')) : Q a s' := by
  simpa only [wp, hm] using h

theorem wp_of_ok {a : α} {s' : σ} (hm : m s = .ok (a, s')) : wp F m Q s ↔ Q a s' := by
  simp only [wp, hm]

/-- What a run returns, it returns. -/
theorem wp_self : wp (fun _ => True) m (fun a s' => m s = .ok (a, s')) s := by
  unfold wp
  cases m s with
  | ok p => rfl
  | error e => trivial

theorem bind_of_ok {f : α → Prog σ ε β} {a : α} {s' : σ} (hm : m s = .ok (a, s')) :
    (m >>= f) s = f a s' := by
  change (m s).bind _ = _
  rw [hm]
  rfl

/-- A program that has no fault returns. -/
theorem exists_ok (h : wp (fun _ => False) m Q s) :
    ∃ a s', m s = .ok (a, s') ∧ Q a s' := by
  unfold wp at h
  split at h
  · exact ⟨_, _, ‹_›, h⟩
  · exact h.elim

theorem wp_error {e : ε} (h : wp F m Q s) (hm : m s = .error e) : F e := by
  simpa only [wp, hm] using h

-- programs are taken apart by the rules above, never by evaluation
attribute [irreducible] wp

/-! ## What no run undoes -/

/-- If `m` returns, `f` of the state has moved along `r`. -/
def Moves {τ : Type*} (r : τ → τ → Prop) (f : σ → τ) (m : Prog σ ε α) : Prop :=
  ∀ s, wp (fun _ => True) m (fun _ s' => r (f s) (f s')) s

namespace Moves

variable {τ : Type*} {r : τ → τ → Prop} [IsPreorder τ r] {f : σ → τ}

theorem pure (a : α) : Moves r f (Pure.pure a : Prog σ ε α) :=
  fun s => wp_pure.mpr (refl_of r (f s))

theorem look (g : σ → α) : Moves r f (Wp.look g : Prog σ ε α) := fun s =>
  wp_look.mpr (refl_of r (f s))

theorem bind {m : Prog σ ε α} {k : α → Prog σ ε β} (hm : Moves r f m)
    (hk : ∀ a, Moves r f (k a)) : Moves r f (m >>= k) := fun s =>
  wp_bind.mpr (wp_mono (hm s) fun a s' h => wp_mono (hk a s') fun _ _ h' => trans_of r h h')

omit [IsPreorder τ r]

theorem throw (e : ε) : Moves r f (throw e : Prog σ ε α) := fun _ => wp_throw.mpr trivial

theorem modify {g : σ → σ} (h : ∀ s, r (f s) (f (g s))) :
    Moves r f (modify g : Prog σ ε PUnit) := fun s => wp_modify.mpr (h s)

theorem ite {p : Prop} [Decidable p] {m m' : Prog σ ε α} (h : Moves r f m) (h' : Moves r f m') :
    Moves r f (if p then m else m') := by
  split_ifs
  · exact h
  · exact h'

end Moves

end Wp
