import Xv6Mlfq.Lib.Wp
import Mathlib.Data.Finset.Card

/-!
# How many keys a program touches

A program keeps a list of the keys that it has touched, in its state and in its faults.  Its cost is
the number of different keys that it adds to the list.  Some keys are known beforehand and may be
touched again and again; they are counted once, at the end.

## Main definitions

* `Adds fixed k t t'` — `t'` has at most `k` keys that are neither in `t` nor in `fixed`.
* `Trace.Spends T fixed k m Q s` — so it is when `m` ends, in whatever way; if it returns, `Q`
  holds.

## Main results

* `Spends.bind` — costs add up.
* `spends_of_known` — the keys known beforehand are counted.
* `Adds.card_le` — the number of keys in the end.
-/

namespace Allowance

open Wp (Prog wp wp_mono wp_and wp_faults wp_bind wp_pure)

universe u v

/-! ## Lists of keys -/

section Keys

variable {κ : Type v} {fixed fixed' : Finset κ} {j k : ℕ} {t t' t'' : List κ} {b : κ}

/-- At most `k` keys are new. -/
def Adds (fixed : Finset κ) (k : ℕ) (t t' : List κ) : Prop :=
  ∃ S : Finset κ, S.card ≤ k ∧ ∀ b ∈ t', b ∈ t ∨ b ∈ fixed ∨ b ∈ S

theorem Adds.refl : Adds fixed k t t := ⟨∅, Nat.zero_le k, fun _ hb => .inl hb⟩

theorem Adds.mono (h : Adds fixed j t t') (hfixed : fixed ⊆ fixed') (hk : j ≤ k) :
    Adds fixed' k t t' := by
  obtain ⟨S, hS, hmem⟩ := h
  refine ⟨S, hS.trans hk, ?_⟩
  intro b hb
  rcases hmem b hb with hb | hb | hb
  · exact .inl hb
  · exact .inr (.inl (hfixed hb))
  · exact .inr (.inr hb)

/-- A key that is known -/
theorem Adds.cons (h : Adds fixed k t t') (hb : b ∈ fixed) : Adds fixed k t (b :: t') := by
  obtain ⟨S, hS, hmem⟩ := h
  refine ⟨S, hS, ?_⟩
  intro c hc
  rcases List.mem_cons.mp hc with rfl | hc
  · exact .inr (.inl hb)
  · exact hmem c hc

variable [DecidableEq κ]

theorem Adds.trans (h : Adds fixed j t t') (h' : Adds fixed k t' t'') :
    Adds fixed (j + k) t t'' := by
  obtain ⟨S, hS, hmem⟩ := h
  obtain ⟨S', hS', hmem'⟩ := h'
  refine ⟨S ∪ S', (Finset.card_union_le S S').trans (Nat.add_le_add hS hS'), ?_⟩
  intro b hb
  rcases hmem' b hb with hb | hb | hb
  · rcases hmem b hb with hb | hb | hb
    · exact .inl hb
    · exact .inr (.inl hb)
    · exact .inr (.inr (Finset.mem_union_left S' hb))
  · exact .inr (.inl hb)
  · exact .inr (.inr (Finset.mem_union_right S hb))

/-- The known keys are counted like the others. -/
theorem Adds.absorb (h : Adds (fixed ∪ fixed') k t t') : Adds fixed (fixed'.card + k) t t' := by
  obtain ⟨S, hS, hmem⟩ := h
  refine ⟨fixed' ∪ S, (Finset.card_union_le fixed' S).trans (Nat.add_le_add_left hS _), ?_⟩
  intro b hb
  rw [Finset.mem_union]
  rcases hmem b hb with hb | hb | hb
  · exact .inl hb
  · rcases Finset.mem_union.mp hb with hb | hb
    · exact .inr (.inl hb)
    · exact .inr (.inr (.inl hb))
  · exact .inr (.inr (.inr hb))

theorem Adds.card_le (h : Adds ∅ k [] t) : t.toFinset.card ≤ k := by
  obtain ⟨S, hS, hmem⟩ := h
  refine (Finset.card_le_card ?_).trans hS
  intro b hb
  have := hmem b (List.mem_toFinset.mp hb)
  simpa using this

end Keys

/-! ## Programs -/

/-- Where a program keeps the keys that it has touched -/
structure Trace (σ ε : Type u) (κ : Type v) where
  ofState : σ → List κ
  ofFault : ε → List κ

section Programs

variable {σ ε α β : Type u} {κ : Type v} {T : Trace σ ε κ} {fixed fixed' : Finset κ} {j k : ℕ}
  {Q R : α → σ → Prop} {s : σ}

/-- `m` adds at most `k` keys, and if it returns, `Q` holds. -/
def Trace.Spends (T : Trace σ ε κ) (fixed : Finset κ) (k : ℕ) (m : Prog σ ε α)
    (Q : α → σ → Prop) (s : σ) :
    Prop :=
  wp (fun e => Adds fixed k (T.ofState s) (T.ofFault e)) m
    (fun a s' => Adds fixed k (T.ofState s) (T.ofState s') ∧ Q a s') s

theorem spends_pure {a : α} (h : Q a s) :
    T.Spends fixed k (pure a) Q s := wp_pure.mpr ⟨Adds.refl, h⟩

/-- A program that touches nothing -/
theorem spends_of_wp {m : Prog σ ε α} (h : wp (fun e => T.ofFault e = T.ofState s) m
    (fun a s' => T.ofState s' = T.ofState s ∧ Q a s') s) : T.Spends fixed k m Q s := by
  refine wp_faults (wp_mono h ?_) ?_
  · rintro a s' ⟨htrace, hQ⟩
    rw [htrace]
    exact ⟨Adds.refl, hQ⟩
  · intro e he
    rw [he]
    exact Adds.refl

variable {m : Prog σ ε α}

/-- Another bound, which may count from an earlier state `s₀` -/
theorem Trace.Spends.rebase {s₀ : σ} (h : T.Spends fixed j m Q s)
    (hadds : ∀ t, Adds fixed j (T.ofState s) t → Adds fixed' k (T.ofState s₀) t) :
    wp (fun e => Adds fixed' k (T.ofState s₀) (T.ofFault e)) m
      (fun a s' => Adds fixed' k (T.ofState s₀) (T.ofState s') ∧ Q a s') s := by
  refine wp_faults (wp_mono h ?_) fun e he => hadds _ he
  rintro a s' ⟨ht, hQ⟩
  exact ⟨hadds _ ht, hQ⟩

theorem Trace.Spends.mono (h : T.Spends fixed j m Q s) (hfixed : fixed ⊆ fixed')
    (hk : j ≤ k) : T.Spends fixed' k m Q s := h.rebase fun _ ht => ht.mono hfixed hk

theorem Trace.Spends.imp (h : T.Spends fixed k m Q s) (hQ : ∀ a s', Q a s' → R a s') :
    T.Spends fixed k m R s := wp_mono h fun a s' hs => ⟨hs.1, hQ a s' hs.2⟩

/-- What is known of the result from elsewhere -/
theorem Trace.Spends.and {F : ε → Prop} (h : T.Spends fixed k m Q s)
    (h' : wp F m R s) : T.Spends fixed k m (fun a s' => Q a s' ∧ R a s') s :=
  wp_mono (wp_and h h') fun _ _ hs => ⟨hs.1.1, hs.1.2, hs.2⟩

variable [DecidableEq κ]

/-- One program after the other: the second may go on with keys that only the first makes known. -/
theorem spends_bind {m : Prog σ ε β} {f : β → Prog σ ε α}
    (h : wp (fun e => Adds fixed k (T.ofState s) (T.ofFault e)) m (fun b s' => ∃ i j fixed',
      fixed'.card + (i + j) ≤ k ∧ Adds (fixed ∪ fixed') i (T.ofState s) (T.ofState s') ∧
        T.Spends (fixed ∪ fixed') j (f b) R s') s) : T.Spends fixed k (m >>= f) R s := by
  refine wp_bind.mpr (wp_mono h ?_)
  rintro b s' ⟨i, j, fixed', hcard, hadds, hrest⟩
  refine hrest.rebase fun t ht => ?_
  exact (hadds.trans ht).absorb.mono (Finset.Subset.refl fixed) hcard

/-- **Costs add up.** -/
theorem Trace.Spends.bind {m : Prog σ ε β} {f : β → Prog σ ε α} {Q : β → σ → Prop}
    (h : T.Spends fixed j m Q s)
    (hf : ∀ b s', Q b s' → T.Spends fixed k (f b) R s') : T.Spends fixed (j + k) (m >>= f) R s := by
  refine wp_bind.mpr (wp_mono (wp_faults h ?_) ?_)
  · intro e hadds
    exact hadds.mono (Finset.Subset.refl fixed) (Nat.le_add_right j k)
  · rintro b s' ⟨hadds, hQ⟩
    exact (hf b s' hQ).rebase fun t ht => hadds.trans ht

/-- The first program adds no key of its own. -/
theorem Trace.Spends.bind_fixed {m : Prog σ ε β} {f : β → Prog σ ε α} {Q : β → σ → Prop}
    (h : T.Spends fixed 0 m Q s) (hf : ∀ b s', Q b s' → T.Spends fixed k (f b) R s') :
    T.Spends fixed k (m >>= f) R s := by
  have hsum := h.bind hf
  rwa [Nat.zero_add] at hsum

/-- All known keys are counted like the others. -/
theorem spends_of_known (known : Finset κ) (hcard : known.card + j ≤ k)
    (h : T.Spends known j m Q s) : T.Spends ∅ k m Q s := by
  refine h.rebase fun t ht => ?_
  have hnew : Adds ∅ (known.card + j) (T.ofState s) t := (ht.mono (by simp) le_rfl).absorb
  exact hnew.mono (Finset.Subset.refl ∅) hcard

/-- One of the known keys is counted like the others. -/
theorem Trace.Spends.absorb {b : κ} (h : T.Spends (insert b fixed) k m Q s) :
    T.Spends fixed (k + 1) m Q s := by
  refine h.rebase fun t ht => ?_
  have hnew : Adds fixed (Finset.card {b} + k) (T.ofState s) t :=
    (ht.mono (by rw [Finset.insert_eq, Finset.union_comm]) le_rfl).absorb
  rwa [Finset.card_singleton, Nat.add_comm] at hnew

end Programs

end Allowance
