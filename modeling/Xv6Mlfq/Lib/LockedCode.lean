import Xv6Mlfq.Lib.Transition
import Mathlib.Logic.Function.Basic
import Mathlib.Tactic.Common
import Mathlib.Tactic.SplitIfs

/-!
# Code that runs under one lock

Processes call functions that all take the same lock.  Inside, a function computes, wakes the
processes that sleep on a channel, or sleeps on one itself; a sleeper gives the lock up and takes
it again when it has been woken.  As in `Monitor`, going to sleep takes a second lock, on the table
of sleepers, before the first is given up, and a wakeup needs that lock too.  A process may be
killed at any time, which wakes it.

`Code` is the code of the functions, as a function from where a process is to what it does next.
A call may also change the data, or be over, before it takes the lock (`start`), and the
environment may change the data (`env`).

## Main definitions

* `Code`, `State`, `Code.step` — the code and how it runs.
* `Outline` — assertions: of the data at all times and while the lock is free, of a process with the
  lock, and of one without.
* `Covered` — whoever sleeps has a reason to, or will be woken.

## Main results

* `Slept.step` — what the code says of sleepers on a channel.
* `Outline.step` — the assertions hold along every run.
* `Covered.step` — no wakeup is lost, if the code owes one whenever it takes the reason away.
-/

namespace LockedCode

open Function (update update_self update_of_ne forall_update_iff)

/-- What a process with the lock does next. -/
inductive Act (κ χ δ ρ : Type*)
  | goto (k : κ) (d : δ)
  | wake (c : χ) (k : κ)
  | sleep (c : χ) (k : κ)
  | ret (r : ρ) (d : δ)

/-- Where a process is: in no call; waiting for the lock; inside; it has given up the lock and has
the lock on the table; asleep. -/
inductive Place (κ χ : Type*)
  | idle
  | entering (k : κ)
  | inside (k : κ)
  | dozing (c : χ) (k : κ)
  | asleep (c : χ) (k : κ)
  deriving DecidableEq

structure Code (P Λ ε κ χ δ ρ : Type*) where
  start : P → Λ → δ → Option (Option κ × δ)
  act : P → κ → Bool → δ → Act κ χ δ ρ
  env : ε → δ → Option δ

structure State (P κ χ δ : Type*) where
  data : δ
  lock : Option P
  table : Option P
  place : P → Place κ χ
  killed : P → Bool

inductive Label (P Λ ε : Type*)
  | call (p : P) (l : Λ)
  | enter (p : P)
  | step (p : P)
  | doze (p : P)
  | kill (p : P)
  | env (e : ε)

variable {P Λ ε κ χ δ ρ : Type*}

/-- A wakeup on the channel `c`. -/
def Place.wake [DecidableEq χ] (c : χ) : Place κ χ → Place κ χ
  | .asleep c' k => if c' = c then .entering k else .asleep c' k
  | x => x

/-- A killed process does not sleep on. -/
def Place.rouse : Place κ χ → Place κ χ
  | .asleep _ k => .entering k
  | x => x

/-- A call that is over before it takes the lock leaves the process where it was. -/
def Place.begin : Option κ → Place κ χ
  | none => .idle
  | some k => .entering k

variable [DecidableEq P] [DecidableEq χ]

def Code.step (m : Code P Λ ε κ χ δ ρ) : Label P Λ ε → State P κ χ δ → Option (State P κ χ δ)
  | .call p l, s =>
    match s.place p with
    | .idle => (m.start p l s.data).map fun x =>
      { s with data := x.2, place := update s.place p (.begin x.1) }
    | _ => none
  | .enter p, s =>
    match s.place p, s.lock with
    | .entering k, none =>
      some { s with lock := some p, place := update s.place p (.inside k) }
    | _, _ => none
  | .step p, s =>
    match s.place p with
    | .inside k =>
      match m.act p k (s.killed p) s.data, s.table with
      | .goto k d, _ => some { s with data := d, place := update s.place p (.inside k) }
      | .wake c k, none =>
        some { s with place := update (fun q => (s.place q).wake c) p (.inside k) }
      | .sleep c k, none =>
        some { s with
          lock := none
          table := some p
          place := update s.place p (.dozing c k) }
      | .ret _ d, _ =>
        some { s with data := d, lock := none, place := update s.place p .idle }
      | _, _ => none
    | _ => none
  | .doze p, s =>
    match s.place p with
    | .dozing c k => some { s with table := none, place := update s.place p (.asleep c k) }
    | _ => none
  | .kill p, s =>
    if s.table.isNone then
      some { s with
        place := update s.place p (s.place p).rouse
        killed := update s.killed p true }
    else none
  | .env e, s => (m.env e s.data).map fun d => { s with data := d }

/-- What a step can be. -/
inductive Code.Steps (m : Code P Λ ε κ χ δ ρ) (s : State P κ χ δ) :
    Label P Λ ε → State P κ χ δ → Prop
  | call {p l o d} : s.place p = .idle → m.start p l s.data = some (o, d) →
      m.Steps s (.call p l) { s with data := d, place := update s.place p (.begin o) }
  | enter {p k} : s.place p = .entering k → s.lock = none →
      m.Steps s (.enter p) { s with lock := some p, place := update s.place p (.inside k) }
  | goto {p k k' d} : s.place p = .inside k →
      m.act p k (s.killed p) s.data = .goto k' d →
      m.Steps s (.step p) { s with data := d, place := update s.place p (.inside k') }
  | wake {p k c k'} : s.place p = .inside k →
      m.act p k (s.killed p) s.data = .wake c k' → s.table = none →
      m.Steps s (.step p) { s with place := update (fun q => (s.place q).wake c) p (.inside k') }
  | sleep {p k c k'} : s.place p = .inside k →
      m.act p k (s.killed p) s.data = .sleep c k' → s.table = none →
      m.Steps s (.step p)
        { s with lock := none, table := some p, place := update s.place p (.dozing c k') }
  | ret {p k r d} : s.place p = .inside k →
      m.act p k (s.killed p) s.data = .ret r d →
      m.Steps s (.step p) { s with data := d, lock := none, place := update s.place p .idle }
  | doze {p c k} : s.place p = .dozing c k →
      m.Steps s (.doze p) { s with table := none, place := update s.place p (.asleep c k) }
  | kill {p} : s.table = none →
      m.Steps s (.kill p)
        { s with place := update s.place p (s.place p).rouse, killed := update s.killed p true }
  | env {e d} : m.env e s.data = some d → m.Steps s (.env e) { s with data := d }

variable {m : Code P Λ ε κ χ δ ρ} {lab : Label P Λ ε} {s s' : State P κ χ δ} {p : P}

theorem Code.step_some (h : m.step lab s = some s') : m.Steps s lab s' := by
  cases lab with
  | call p l =>
    simp only [Code.step] at h
    split at h
    next hp =>
      obtain ⟨⟨o, d⟩, hd, rfl⟩ := Option.map_eq_some_iff.mp h
      exact .call hp hd
    next => cases h
  | enter p =>
    simp only [Code.step] at h
    split at h
    next k hp hl =>
      cases h
      exact .enter hp hl
    next => cases h
  | step p =>
    simp only [Code.step] at h
    split at h
    next k hp =>
      split at h
      next k' d ha =>
        cases h
        exact .goto hp ha
      next c k' ha ht =>
        cases h
        exact .wake hp ha ht
      next c k' ha ht =>
        cases h
        exact .sleep hp ha ht
      next r d ha =>
        cases h
        exact .ret hp ha
      next => cases h
    next => cases h
  | doze p =>
    simp only [Code.step] at h
    split at h
    next c k hp =>
      cases h
      exact .doze hp
    next => cases h
  | kill p =>
    simp only [Code.step] at h
    split_ifs at h with ht
    cases h
    exact .kill (Option.isNone_iff_eq_none.mp ht)
  | env e =>
    obtain ⟨d, hd, rfl⟩ := Option.map_eq_some_iff.mp h
    exact .env hd

/-! ## Who has the locks -/

/-- The process is outside: in no call, or it waits for the lock or sleeps, and goes on at `k`. -/
def Place.Outside (x : Place κ χ) (o : Option κ) : Prop :=
  x = .begin o ∨ ∃ c k, o = some k ∧ (x = .dozing c k ∨ x = .asleep c k)

/-- The process sleeps on `c`, or is about to. -/
def Place.SleepsOn (x : Place κ χ) (c : χ) : Prop := ∃ k, x = .dozing c k ∨ x = .asleep c k

/-- The process is asleep on `c`. -/
def Place.AsleepOn (x : Place κ χ) (c : χ) : Prop := ∃ k, x = .asleep c k

instance (x : Place κ χ) (c : χ) : Decidable (x.AsleepOn c) :=
  match x with
  | .asleep c' k => decidable_of_iff (c' = c) (by simp [Place.AsleepOn])
  | .idle | .entering _ | .inside _ | .dozing _ _ => .isFalse (by simp [Place.AsleepOn])

instance (x : Place κ χ) (c : χ) : Decidable (x.SleepsOn c) :=
  match x with
  | .dozing c' k => decidable_of_iff (c' = c) (by simp [Place.SleepsOn])
  | .asleep c' k => decidable_of_iff (c' = c) (by simp [Place.SleepsOn])
  | .idle | .entering _ | .inside _ => .isFalse (by simp [Place.SleepsOn])

/-- The locks are held by those inside and by those going to sleep. -/
structure Owned (s : State P κ χ δ) : Prop where
  inside : ∀ {p k}, s.place p = .inside k → s.lock = some p
  dozing : ∀ {p c k}, s.place p = .dozing c k → s.table = some p

section Places

omit [DecidableEq P]

variable {x : Place κ χ} {c : χ} {k : κ}

@[simp] theorem wake_eq_inside : x.wake c = .inside k ↔ x = .inside k := by
  cases x <;> simp [Place.wake]
  split_ifs <;> simp

@[simp] theorem wake_eq_dozing {c' : χ} : x.wake c = .dozing c' k ↔ x = .dozing c' k := by
  cases x <;> simp [Place.wake]
  split_ifs <;> simp

theorem wake_eq_asleep {c' : χ} : x.wake c = .asleep c' k ↔ x = .asleep c' k ∧ c' ≠ c := by
  cases x with
  | asleep c'' k' =>
    by_cases h : c'' = c
    · simp only [Place.wake, if_pos h, reduceCtorEq, Place.asleep.injEq, false_iff]
      rintro ⟨⟨rfl, -⟩, hne⟩
      exact hne h
    · simp only [Place.wake, if_neg h, Place.asleep.injEq, iff_self_and]
      rintro ⟨rfl, -⟩
      exact h
  | idle => simp [Place.wake]
  | entering k' => simp [Place.wake]
  | inside k' => simp [Place.wake]
  | dozing c'' k' => simp [Place.wake]

variable {o : Option κ}

theorem outside_of_wake (h : (x.wake c).Outside o) : x.Outside o := by
  cases x with
  | asleep c' k' =>
    by_cases hc : c' = c
    · rw [Place.wake, if_pos hc] at h
      rcases h with h | ⟨_, _, -, h | h⟩
      · cases o with
        | none => cases h
        | some k'' =>
          cases h
          exact .inr ⟨c', k', rfl, .inr rfl⟩
      · cases h
      · cases h
    · rwa [Place.wake, if_neg hc] at h
  | idle => exact h
  | entering k' => exact h
  | inside k' => exact h
  | dozing c' k' => exact h

omit [DecidableEq χ] in
@[simp] theorem rouse_eq_inside : x.rouse = .inside k ↔ x = .inside k := by
  cases x <;> simp [Place.rouse]

omit [DecidableEq χ] in
@[simp] theorem rouse_eq_dozing : x.rouse = .dozing c k ↔ x = .dozing c k := by
  cases x <;> simp [Place.rouse]

omit [DecidableEq χ] in
theorem rouse_ne_asleep : x.rouse ≠ .asleep c k := by
  cases x <;> simp [Place.rouse]

omit [DecidableEq χ] in
theorem outside_of_rouse (h : x.rouse.Outside o) : x.Outside o := by
  cases x with
  | asleep c' k' =>
    rcases h with h | ⟨_, _, -, h | h⟩
    · cases o with
      | none => cases h
      | some k'' =>
        cases h
        exact .inr ⟨c', k', rfl, .inr rfl⟩
    · cases h
    · cases h
  | idle => exact h
  | entering k' => exact h
  | inside k' => exact h
  | dozing c' k' => exact h

omit [DecidableEq χ] in
theorem begin_ne_inside : (Place.begin o : Place κ χ) ≠ .inside k := by
  cases o <;> nofun

omit [DecidableEq χ] in
theorem outside_begin {o' : Option κ} (h : (Place.begin o : Place κ χ).Outside o') : o = o' := by
  rcases h with h | ⟨_, _, -, h | h⟩
  · cases o <;> cases o' <;> cases h <;> rfl
  · cases o <;> cases h
  · cases o <;> cases h

omit [DecidableEq χ] in
theorem not_outside_inside : ¬ (Place.inside k : Place κ χ).Outside o := by
  rintro (h | ⟨_, _, -, h | h⟩)
  · cases o <;> cases h
  · cases h
  · cases h

omit [DecidableEq χ] in
theorem outside_dozing (h : (Place.dozing c k).Outside o) : o = some k := by
  rcases h with h | ⟨_, _, ho, h | h⟩
  · cases o <;> cases h
  · cases h
    exact ho
  · cases h

omit [DecidableEq χ] in
theorem outside_asleep (h : (Place.asleep c k).Outside o) : o = some k := by
  rcases h with h | ⟨_, _, ho, h | h⟩
  · cases o <;> cases h
  · cases h
  · cases h
    exact ho

omit [DecidableEq χ] in
theorem not_sleepsOn_idle : ¬ (Place.idle : Place κ χ).SleepsOn c := by
  rintro ⟨_, h | h⟩ <;> cases h

omit [DecidableEq χ] in
theorem not_sleepsOn_inside : ¬ (Place.inside k : Place κ χ).SleepsOn c := by
  rintro ⟨_, h | h⟩ <;> cases h

omit [DecidableEq χ] in
theorem not_sleepsOn_begin : ¬ (Place.begin o : Place κ χ).SleepsOn c := by
  cases o <;> rintro ⟨_, h | h⟩ <;> cases h

end Places

omit [DecidableEq χ] in
theorem sleepsOn_of_update (place : P → Place κ χ) {q : P} {x : Place κ χ} {c : χ}
    (hx : ¬ x.SleepsOn c) (hq : (update place p x q).SleepsOn c) : (place q).SleepsOn c := by
  by_cases hqp : q = p
  · subst hqp
    rw [update_self] at hq
    exact absurd hq hx
  · rwa [update_of_ne hqp] at hq

omit [DecidableEq P] [DecidableEq χ] in
theorem Owned.eq_of_inside (h : Owned s) {q : P} {k k' : κ}
    (hp : s.place p = .inside k) (hq : s.place q = .inside k') : q = p :=
  Option.some.inj ((h.inside hq).symm.trans (h.inside hp))

omit [DecidableEq χ] in
/-- One process goes to another place, and the locks may change hands. -/
theorem owned_update {place : P → Place κ χ} {x : Place κ χ} {d : δ} {lock table : Option P}
    {killed : P → Bool} (hx : (∀ j, x = .inside j → lock = some p) ∧
      ∀ c j, x = .dozing c j → table = some p)
    (h : ∀ q, q ≠ p → (∀ j, place q = .inside j → lock = some q) ∧
      ∀ c j, place q = .dozing c j → table = some q) :
    Owned ⟨d, lock, table, update place p x, killed⟩ := by
  have hall := (forall_update_iff place fun q x => (∀ j, x = .inside j → lock = some q) ∧
    ∀ c j, x = .dozing c j → table = some q).mpr ⟨hx, h⟩
  exact ⟨(hall _).1 _, (hall _).2 _ _⟩

/-- Every step keeps the locks with those inside and those going to sleep. -/
theorem Owned.step (h : Owned s) (hs : m.Steps s lab s') : Owned s' := by
  have hkept : ∀ q, (∀ j, s.place q = .inside j → s.lock = some q) ∧
      ∀ c j, s.place q = .dozing c j → s.table = some q :=
    fun q => ⟨fun _ => h.inside, fun _ _ => h.dozing⟩
  cases hs with
  | @call p l o d hp hd =>
    refine owned_update ⟨fun _ hx => absurd hx begin_ne_inside, ?_⟩ fun q _ => hkept q
    cases o <;> nofun
  | @enter p k hp hl =>
    refine owned_update ⟨fun _ _ => rfl, nofun⟩ fun q _ => ⟨?_, (hkept q).2⟩
    intro j hq
    have := h.inside hq
    rw [hl] at this
    cases this
  | @goto p k k' d hp ha => exact owned_update ⟨fun _ _ => h.inside hp, nofun⟩ fun q _ => hkept q
  | @wake p k c k' hp ha ht =>
    refine owned_update ⟨fun _ _ => h.inside hp, nofun⟩ fun q _ => ⟨?_, ?_⟩
    · exact fun _ hx => h.inside (wake_eq_inside.mp hx)
    · exact fun _ _ hx => h.dozing (wake_eq_dozing.mp hx)
  | @sleep p k c k' hp ha ht =>
    refine owned_update ⟨nofun, fun _ _ _ => rfl⟩ fun q hq => ⟨?_, ?_⟩
    · exact fun _ hx => absurd (h.eq_of_inside hp hx) hq
    · intro c' j hx
      have := h.dozing hx
      rw [ht] at this
      cases this
  | @ret p k r d hp ha =>
    refine owned_update ⟨nofun, nofun⟩ fun q hq => ⟨?_, (hkept q).2⟩
    exact fun _ hx => absurd (h.eq_of_inside hp hx) hq
  | @doze p c k hp =>
    refine owned_update ⟨nofun, nofun⟩ fun q hq => ⟨(hkept q).1, fun _ _ hx => ?_⟩
    -- only one process has the lock on the table
    exact absurd (Option.some.inj ((h.dozing hx).symm.trans (h.dozing hp))) hq
  | @kill p ht =>
    refine owned_update ⟨?_, ?_⟩ fun q _ => hkept q
    · exact fun _ hx => h.inside (rouse_eq_inside.mp hx)
    · exact fun _ _ hx => h.dozing (rouse_eq_dozing.mp hx)
  | @env e d hd => exact ⟨h.inside, h.dozing⟩

/-! ## Assertions -/

/-- The rules for assertions: `G` of the data at all times, `J` of the data while the lock is free,
`A` of a process inside, and `E` of one outside, which the others must not break. -/
structure Outline (m : Code P Λ ε κ χ δ ρ) (G J : δ → Prop) (A : P → κ → δ → Prop)
    (E : P → Option κ → δ → Prop) : Prop where
  start : ∀ {p l d o d'}, G d → E p none d → m.start p l d = some (o, d') →
    G d' ∧ (J d → J d') ∧ E p o d' ∧
      ∀ q, q ≠ p → (∀ k, A q k d → A q k d') ∧ ∀ o, E q o d → E q o d'
  env : ∀ {e d d'}, G d → m.env e d = some d' →
    G d' ∧ (J d → J d') ∧ ∀ q, (∀ k, A q k d → A q k d') ∧ ∀ o, E q o d → E q o d'
  enter : ∀ {p k d}, G d → J d → E p (some k) d → A p k d
  goto : ∀ {p k b d k' d'}, G d → A p k d → m.act p k b d = .goto k' d' →
    G d' ∧ A p k' d' ∧ ∀ q, q ≠ p → ∀ o, E q o d → E q o d'
  wake : ∀ {p k b d c k'}, G d → A p k d → m.act p k b d = .wake c k' → A p k' d
  sleep : ∀ {p k b d c k'}, G d → A p k d → m.act p k b d = .sleep c k' →
    J d ∧ E p (some k') d
  ret : ∀ {p k b d r d'}, G d → A p k d → m.act p k b d = .ret r d' →
    G d' ∧ J d' ∧ E p none d' ∧ ∀ q, q ≠ p → ∀ o, E q o d → E q o d'

/-- The assertions hold in a state. -/
structure Holds (G J : δ → Prop) (A : P → κ → δ → Prop) (E : P → Option κ → δ → Prop)
    (s : State P κ χ δ) : Prop extends Owned s where
  steady : G s.data
  free : s.lock = none → J s.data
  asserts : ∀ {p k}, s.place p = .inside k → A p k s.data
  expects : ∀ {p o}, (s.place p).Outside o → E p o s.data

section Outline

variable {m : Code P Λ ε κ χ δ ρ} {G J : δ → Prop} {A : P → κ → δ → Prop}
  {E : P → Option κ → δ → Prop} {s s' : State P κ χ δ} {lab : Label P Λ ε}

omit [DecidableEq P] [DecidableEq χ] in
/-- A state in which all processes are in no call. -/
theorem holds_of_idle (hp : ∀ p, s.place p = .idle) (hG : G s.data)
    (hJ : J s.data) (hE : ∀ p, E p none s.data) : Holds G J A E s where
  inside h := by rw [hp] at h; cases h
  dozing h := by rw [hp] at h; cases h
  steady := hG
  free _ := hJ
  asserts h := by rw [hp] at h; cases h
  expects {p o} h := by
    rw [hp] at h
    rw [← outside_begin (o := none) h]
    exact hE p

omit [DecidableEq χ] in
/-- One process goes to another place, where its assertion holds. -/
theorem holds_update {place : P → Place κ χ} {p : P} {x : Place κ χ} {d : δ}
    {lock table : Option P} {killed : P → Bool}
    (hO : Owned ⟨d, lock, table, update place p x, killed⟩) (hG : G d) (hJ : lock = none → J d)
    (hx : (∀ j, x = .inside j → A p j d) ∧ ∀ o, x.Outside o → E p o d)
    (h : ∀ q, q ≠ p → (∀ j, place q = .inside j → A q j d) ∧
      ∀ o, (place q).Outside o → E q o d) :
    Holds G J A E ⟨d, lock, table, update place p x, killed⟩ := by
  have hall := (forall_update_iff place fun q x => (∀ j, x = .inside j → A q j d) ∧
    ∀ o, x.Outside o → E q o d).mpr ⟨hx, h⟩
  exact ⟨hO, hG, hJ, (hall _).1 _, (hall _).2 _⟩

/-- **The assertions hold along every run.** -/
theorem Outline.step (ho : Outline m G J A E) (h : Holds G J A E s) (hs : m.Steps s lab s') :
    Holds G J A E s' := by
  have hO := h.toOwned.step hs
  have hlock : ∀ {p k}, s.place p = .inside k → s.lock ≠ none := by
    intro p k hp
    rw [h.inside hp]
    exact Option.some_ne_none p
  cases hs with
  | @call p l o d hp hd =>
    obtain ⟨hG, hJ, hE, hothers⟩ := ho.start h.steady (h.expects (.inl hp)) hd
    refine holds_update hO hG (fun hl => hJ (h.free hl)) ⟨?_, ?_⟩ fun q hq => ⟨?_, ?_⟩
    · exact fun _ hx => absurd hx begin_ne_inside
    · exact fun _ hx => outside_begin hx ▸ hE
    · exact fun j hx => (hothers q hq).1 j (h.asserts hx)
    · exact fun o hx => (hothers q hq).2 o (h.expects hx)
  | @enter p k hp hl =>
    refine holds_update hO h.steady nofun ⟨?_, ?_⟩ fun q _ => ⟨?_, fun _ => h.expects⟩
    · intro j hx
      cases hx
      exact ho.enter h.steady (h.free hl) (h.expects (.inl hp))
    · exact fun _ hx => absurd hx not_outside_inside
    · exact fun _ hx => absurd hl (hlock hx)
  | @goto p k k' d hp ha =>
    obtain ⟨hG, hA, hothers⟩ := ho.goto h.steady (h.asserts hp) ha
    refine holds_update hO hG (fun hl => absurd hl (hlock hp)) ⟨?_, ?_⟩ fun q hq => ⟨?_, ?_⟩
    · intro j hx
      cases hx
      exact hA
    · exact fun _ hx => absurd hx not_outside_inside
    · exact fun _ hx => absurd (h.eq_of_inside hp hx) hq
    · exact fun o hx => hothers q hq o (h.expects hx)
  | @wake p k c k' hp ha ht =>
    refine holds_update hO h.steady (fun hl => absurd hl (hlock hp)) ⟨?_, ?_⟩ fun q hq => ⟨?_, ?_⟩
    · intro j hx
      cases hx
      exact ho.wake h.steady (h.asserts hp) ha
    · exact fun _ hx => absurd hx not_outside_inside
    · exact fun _ hx => absurd (h.eq_of_inside hp (wake_eq_inside.mp hx)) hq
    · exact fun _ hx => h.expects (outside_of_wake hx)
  | @sleep p k c k' hp ha ht =>
    obtain ⟨hJ, hE⟩ := ho.sleep h.steady (h.asserts hp) ha
    refine holds_update hO h.steady (fun _ => hJ) ⟨nofun, ?_⟩ fun q hq => ⟨?_, fun _ => h.expects⟩
    · exact fun _ hx => outside_dozing hx ▸ hE
    · exact fun _ hx => absurd (h.eq_of_inside hp hx) hq
  | @ret p k r d hp ha =>
    obtain ⟨hG, hJ, hE, hothers⟩ := ho.ret h.steady (h.asserts hp) ha
    refine holds_update hO hG (fun _ => hJ) ⟨nofun, ?_⟩ fun q hq => ⟨?_, ?_⟩
    · intro o hx
      rw [← outside_begin (o := none) hx]
      exact hE
    · exact fun _ hx => absurd (h.eq_of_inside hp hx) hq
    · exact fun o hx => hothers q hq o (h.expects hx)
  | @doze p c k hp =>
    refine holds_update hO h.steady h.free ⟨nofun, ?_⟩ fun q _ =>
      ⟨fun _ => h.asserts, fun _ => h.expects⟩
    exact fun _ hx => h.expects (.inr ⟨c, k, outside_asleep hx, .inl hp⟩)
  | @kill p ht =>
    refine holds_update hO h.steady h.free ⟨?_, ?_⟩ fun q _ =>
      ⟨fun _ => h.asserts, fun _ => h.expects⟩
    · exact fun _ hx => h.asserts (rouse_eq_inside.mp hx)
    · exact fun _ hx => h.expects (outside_of_rouse hx)
  | @env e d hd =>
    obtain ⟨hG, hJ, hothers⟩ := ho.env h.steady hd
    exact ⟨hO, hG, fun hl => hJ (h.free hl), fun {p k} hx => (hothers p).1 k (h.asserts hx),
      fun {p o} hx => (hothers p).2 o (h.expects hx)⟩

end Outline

/-! ## No wakeup is lost -/

/-- What is known of a sleeper from the channel it sleeps on. -/
def Slept (S : χ → κ → Prop) (s : State P κ χ δ) : Prop :=
  ∀ q c k, s.place q = .dozing c k ∨ s.place q = .asleep c k → S c k

omit [DecidableEq χ] in
theorem slept_update {S : χ → κ → Prop} {place : P → Place κ χ} {x : Place κ χ} {d : δ}
    {lock table : Option P} {killed : P → Bool}
    (hx : ∀ c k, x = .dozing c k ∨ x = .asleep c k → S c k)
    (h : ∀ q c k, place q = .dozing c k ∨ place q = .asleep c k → S c k) :
    Slept S ⟨d, lock, table, update place p x, killed⟩ :=
  (forall_update_iff place fun _ x => ∀ c k, x = .dozing c k ∨ x = .asleep c k → S c k).mpr
    ⟨hx, fun q _ => h q⟩

theorem Slept.step {S : χ → κ → Prop} (hS : ∀ {p k b d c k'}, m.act p k b d = .sleep c k' → S c k')
    (h : Slept S s) (hs : m.Steps s lab s') : Slept S s' := by
  cases hs with
  | @call p l o d hp hd => exact slept_update (fun _ j hx => absurd ⟨j, hx⟩ not_sleepsOn_begin) h
  | @enter p k hp hl => exact slept_update (fun _ j hx => absurd ⟨j, hx⟩ not_sleepsOn_inside) h
  | @goto p k k' d hp ha => exact slept_update (fun _ j hx => absurd ⟨j, hx⟩ not_sleepsOn_inside) h
  | @wake p k c' k' hp ha ht =>
    refine slept_update (fun _ j hx => absurd ⟨j, hx⟩ not_sleepsOn_inside) fun q c j hx => ?_
    exact h q c j (hx.imp wake_eq_dozing.mp fun hx => (wake_eq_asleep.mp hx).1)
  | @sleep p k c' k' hp ha ht =>
    refine slept_update ?_ h
    rintro c j (hx | hx) <;> cases hx
    exact hS ha
  | @ret p k r d hp ha => exact slept_update (fun _ j hx => absurd ⟨j, hx⟩ not_sleepsOn_idle) h
  | @doze p c' k hp =>
    refine slept_update ?_ h
    rintro c j (hx | hx) <;> cases hx
    exact h p c' k (.inl hp)
  | @kill p ht =>
    refine slept_update ?_ h
    rintro c j (hx | hx)
    · exact h p c j (.inl (rouse_eq_dozing.mp hx))
    · exact absurd hx rouse_ne_asleep
  | @env e d hd => exact h

/-- Whoever sleeps on `c` has the reason `W c` to, or the process inside owes a wakeup on `c`. -/
def Covered (W : χ → δ → Prop) (owes : κ → χ → Prop) (s : State P κ χ δ) : Prop :=
  ∀ q c, (s.place q).SleepsOn c → W c s.data ∨ ∃ p k, s.place p = .inside k ∧ owes k c

/-- The rules for a code that owes a wakeup whenever it takes the reason to sleep away. -/
structure Signals (m : Code P Λ ε κ χ δ ρ) (A : P → κ → δ → Prop) (W : χ → δ → Prop)
    (owes : κ → χ → Prop) : Prop where
  start : ∀ {p l d o d'}, m.start p l d = some (o, d') → ∀ c, W c d → W c d'
  env : ∀ {e d d'}, m.env e d = some d' → ∀ c, W c d → W c d'
  goto : ∀ {p k b d k' d'}, A p k d → m.act p k b d = .goto k' d' →
    ∀ c, W c d ∨ owes k c → W c d' ∨ owes k' c
  wake : ∀ {p k b d c k'}, A p k d → m.act p k b d = .wake c k' →
    ∀ c', c' ≠ c → owes k c' → owes k' c'
  sleep : ∀ {p k b d c k'}, A p k d → m.act p k b d = .sleep c k' →
    W c d ∧ ∀ c', ¬ owes k c'

omit [DecidableEq P] [DecidableEq χ] in
theorem Covered.inside {W : χ → δ → Prop} {owes : κ → χ → Prop} {q : P}
    {k : κ} {c : χ} (h : Covered W owes s) (ho : Owned s) (hp : s.place p = .inside k)
    (hq : (s.place q).SleepsOn c) : W c s.data ∨ owes k c := by
  rcases h q c hq with hW | ⟨p', k', hp', hk'⟩
  · exact .inl hW
  · obtain rfl := ho.eq_of_inside hp hp'
    rw [hp] at hp'
    cases hp'
    exact .inr hk'

/-- **No wakeup is lost**, if a process that leaves owes none to anybody. -/
theorem Covered.step {G J : δ → Prop} {A : P → κ → δ → Prop} {E : P → Option κ → δ → Prop}
    {W : χ → δ → Prop} {owes : κ → χ → Prop}
    (hr : Signals m A W owes) (h : Holds G J A E s) (hc : Covered W owes s)
    (hret : ∀ p k r d, lab = .step p → s.place p = .inside k →
      m.act p k (s.killed p) s.data = .ret r d →
      ∀ q c, (s.place q).SleepsOn c → W c s.data ∨ owes k c → W c d)
    (hs : m.Steps s lab s') : Covered W owes s' := by
  cases hs with
  | @call p l o d hp hd =>
    intro q c hq
    have hq' := sleepsOn_of_update s.place not_sleepsOn_begin hq
    rcases hc q c hq' with hW | ⟨p', k', hp', hk'⟩
    · exact .inl (hr.start hd c hW)
    · refine .inr ⟨p', k', ?_, hk'⟩
      rw [← hp']
      refine update_of_ne ?_ _ _
      rintro rfl
      rw [hp] at hp'
      cases hp'
  | @enter p k hp hl =>
    intro q c hq
    have hq' := sleepsOn_of_update s.place not_sleepsOn_inside hq
    rcases hc q c hq' with hW | ⟨p', k', hp', -⟩
    · exact .inl hW
    · -- the lock is free
      have := h.inside hp'
      rw [hl] at this
      cases this
  | @goto p k k' d hp ha =>
    intro q c hq
    have hq' := sleepsOn_of_update s.place not_sleepsOn_inside hq
    rcases hr.goto (h.asserts hp) ha c (hc.inside h.toOwned hp hq') with hW | hk
    · exact .inl hW
    · exact .inr ⟨p, k', update_self .., hk⟩
  | @wake p k c k' hp ha ht =>
    intro q c' hq
    have hq' : (s.place q).SleepsOn c' ∧ c' ≠ c := by
      obtain ⟨j, hj | hj⟩ :=
        sleepsOn_of_update (fun q => (s.place q).wake c) not_sleepsOn_inside hq
      · -- nobody is on the way to sleep
        have := h.dozing (wake_eq_dozing.mp hj)
        rw [ht] at this
        cases this
      · obtain ⟨hj, hne⟩ := wake_eq_asleep.mp hj
        exact ⟨⟨j, .inr hj⟩, hne⟩
    rcases hc.inside h.toOwned hp hq'.1 with hW | hk
    · exact .inl hW
    · exact .inr ⟨p, k', by simp, hr.wake (h.asserts hp) ha c' hq'.2 hk⟩
  | @sleep p k c k' hp ha ht =>
    obtain ⟨hW, hnot⟩ := hr.sleep (h.asserts hp) ha
    intro q c' hq
    by_cases hqp : q = p
    · subst hqp
      have hq' : (Place.dozing c k' : Place κ χ).SleepsOn c' := by
        simpa only [update_self] using hq
      obtain ⟨_, hk | hk⟩ := hq' <;> cases hk
      exact .inl hW
    · have hq' : (s.place q).SleepsOn c' := by simpa only [update_of_ne hqp] using hq
      exact .inl ((hc.inside h.toOwned hp hq').resolve_right (hnot c'))
  | @ret p k r d hp ha =>
    intro q c hq
    have hq' := sleepsOn_of_update s.place not_sleepsOn_idle hq
    exact .inl (hret p k r d rfl hp ha q c hq' (hc.inside h.toOwned hp hq'))
  | @doze p c k hp =>
    intro q c' hq
    have hq' : (s.place q).SleepsOn c' := by
      by_cases hqp : q = p
      · subst hqp
        have hq' : (Place.asleep c k : Place κ χ).SleepsOn c' := by
          simpa only [update_self] using hq
        obtain ⟨_, hk | hk⟩ := hq' <;> cases hk
        exact ⟨k, .inl hp⟩
      · simpa only [update_of_ne hqp] using hq
    rcases hc q c' hq' with hW | ⟨p', k', hp', hk'⟩
    · exact .inl hW
    · refine .inr ⟨p', k', ?_, hk'⟩
      rw [← hp']
      refine update_of_ne ?_ _ _
      rintro rfl
      rw [hp] at hp'
      cases hp'
  | @kill p ht =>
    intro q c hq
    have hq' : (s.place q).SleepsOn c := by
      by_cases hqp : q = p
      · subst hqp
        have hq' : (s.place q).rouse.SleepsOn c := by simpa only [update_self] using hq
        obtain ⟨j, hj | hj⟩ := hq'
        · exact ⟨j, .inl (rouse_eq_dozing.mp hj)⟩
        · exact absurd hj rouse_ne_asleep
      · simpa only [update_of_ne hqp] using hq
    rcases hc q c hq' with hW | ⟨p', k', hp', hk'⟩
    · exact .inl hW
    · refine .inr ⟨p', k', ?_, hk'⟩
      by_cases hpp : p' = p
      · subst hpp
        exact (update_self ..).trans (rouse_eq_inside.mpr hp')
      · exact (update_of_ne hpp _ _).trans hp'
  | @env e d hd => exact fun q c hq => (hc q c hq).imp_left (hr.env hd c)

end LockedCode
