import Mathlib.Logic.Function.Basic
import Mathlib.Tactic.Common

/-!
# Waiting for a condition under a lock

Sleepers test a condition under a lock and go to sleep when it does not hold; wakers make it hold
under the same lock and wake all sleepers.  A sleeper gives the lock up *before* it is asleep, so
a waker can get in between.  What saves the wakeup is a second lock, on the table of sleepers:
the sleeper takes it before it gives the first one up, and a waker cannot wake anybody while a
sleeper holds it.

`State` is this protocol for an arbitrary set `ι` of sleepers and `ω` of wakers, and data `δ` of
which the condition is a function.  The sleepers may change the data as they like once they have
found the condition to hold, and may be woken for no reason at any time.

## Main results

* `Inv.not_asleep` — nobody sleeps while the condition holds, unless a waker is about to wake.
* `Exclusive.step` — a lock whose data says whether it is free is held by one process at a time.
-/

namespace Monitor

open Function (update)

/-- Where a sleeper is: not in the code; about to test the condition; it found that it does not
hold; it has both locks; it has only the lock on the table; asleep; woken, without a lock; or
past the loop. -/
inductive Phase
  | out | test | found | both | going | asleep | roused | body
  deriving DecidableEq

/-- Where a waker is: not in the code; it has the lock; it has made the condition hold; it has
woken the sleepers. -/
inductive Signal
  | idle | locked | set | done
  deriving DecidableEq

/-- The state of the protocol. -/
@[ext] structure State (ι ω δ : Type*) where
  lock : Option (ι ⊕ ω)
  data : δ
  phase : ι → Phase
  waker : ω → Signal

variable {ι ω δ : Type*}

/-- Some sleepers are woken. -/
def Rouses (a b : ι → Phase) : Prop := ∀ p, b p = a p ∨ a p = .asleep ∧ b p = .roused

/-- Nobody sleeps or is about to. -/
def Quiet (phase : ι → Phase) : Prop := ∀ p, phase p ≠ .going ∧ phase p ≠ .asleep

/-- The sleeper has the lock. -/
def Phase.locked : Phase → Bool
  | .test | .found | .both | .body => true
  | _ => false

variable [DecidableEq ι] [DecidableEq ω]

/-- The moves. -/
inductive Step (cond : δ → Bool) (s : State ι ω δ) : State ι ω δ → Prop
  | enter (p : ι) (hp : s.phase p = .out) (hl : s.lock = none) :
      Step cond s { s with lock := some (.inl p), phase := update s.phase p .test }
  | find (p : ι) (hp : s.phase p = .test) (hc : cond s.data = false) :
      Step cond s { s with phase := update s.phase p .found }
  | pass (p : ι) (hp : s.phase p = .test) (hc : cond s.data = true) :
      Step cond s { s with phase := update s.phase p .body }
  | claim (p : ι) (hp : s.phase p = .found) :
      Step cond s { s with phase := update s.phase p .both }
  | drop (p : ι) (hp : s.phase p = .both) :
      Step cond s { s with lock := none, phase := update s.phase p .going }
  | doze (p : ι) (hp : s.phase p = .going) :
      Step cond s { s with phase := update s.phase p .asleep }
  | rouse (a : ι → Phase) (h : Rouses s.phase a) : Step cond s { s with phase := a }
  | relock (p : ι) (hp : s.phase p = .roused) (hl : s.lock = none) :
      Step cond s { s with lock := some (.inl p), phase := update s.phase p .test }
  | work (p : ι) (d : δ) (hp : s.phase p = .body) : Step cond s { s with data := d }
  | leave (p : ι) (hp : s.phase p = .body) :
      Step cond s { s with lock := none, phase := update s.phase p .out }
  | acquire (w : ω) (hw : s.waker w = .idle) (hl : s.lock = none) :
      Step cond s { s with lock := some (.inr w), waker := update s.waker w .locked }
  | set (w : ω) (d : δ) (hw : s.waker w = .locked) (hc : cond d = true) :
      Step cond s { s with data := d, waker := update s.waker w .set }
  | signal (w : ω) (a : ι → Phase) (hw : s.waker w = .set)
      (hfree : ∀ p, s.phase p ≠ .both ∧ s.phase p ≠ .going) (h : Rouses s.phase a)
      (hall : ∀ p, a p ≠ .asleep) :
      Step cond s { s with phase := a, waker := update s.waker w .done }
  | release (w : ω) (hw : s.waker w = .done) :
      Step cond s { s with lock := none, waker := update s.waker w .idle }

/-! ## No wakeup is lost -/

/-- The invariant: who has the lock, that the condition does not hold for a sleeper that is going
to sleep with the lock, and when nobody sleeps. -/
structure Inv (cond : δ → Bool) (s : State ι ω δ) : Prop where
  sleeper : ∀ p, (s.phase p).locked = true → s.lock = some (.inl p)
  waker : ∀ w, s.waker w ≠ .idle → s.lock = some (.inr w)
  unmet : ∀ p, s.phase p = .found ∨ s.phase p = .both → cond s.data = false
  body : ∀ p, s.phase p = .body → Quiet s.phase
  done : ∀ w, s.waker w = .done → Quiet s.phase
  met : cond s.data = true → (∃ w, s.waker w = .set) ∨ Quiet s.phase

section

omit [DecidableEq ι] [DecidableEq ω]

variable {cond : δ → Bool} {s : State ι ω δ}

/-- **Nobody sleeps while the condition holds**, unless a waker is about to wake. -/
theorem Inv.not_asleep (h : Inv cond s) (hc : cond s.data = true) (hw : ∀ w, s.waker w ≠ .set)
    (p : ι) : s.phase p ≠ .asleep := by
  rcases h.met hc with ⟨w, hset⟩ | hq
  · exact absurd hset (hw w)
  · exact (hq p).2

theorem Inv.eq_of_locked (h : Inv cond s) {p q : ι} (hp : (s.phase p).locked = true)
    (hq : (s.phase q).locked = true) : q = p :=
  Sum.inl.inj (Option.some.inj ((h.sleeper q hq).symm.trans (h.sleeper p hp)))

theorem Inv.idle_of_locked (h : Inv cond s) {p : ι} (hp : (s.phase p).locked = true) (w : ω) :
    s.waker w = .idle := by
  by_contra hw
  have hlock := (h.sleeper p hp).symm.trans (h.waker w hw)
  cases hlock

theorem Inv.eq_of_waker (h : Inv cond s) {w v : ω} (hw : s.waker w ≠ .idle)
    (hv : s.waker v ≠ .idle) : v = w :=
  Sum.inr.inj (Option.some.inj ((h.waker v hv).symm.trans (h.waker w hw)))

theorem Inv.unlocked_of_waker (h : Inv cond s) {w : ω} (hw : s.waker w ≠ .idle) (p : ι) :
    (s.phase p).locked = false := by
  by_contra hp
  exact hw (h.idle_of_locked (Bool.not_eq_false _ ▸ hp) w)

theorem unlocked_of_free (h : Inv cond s) (hl : s.lock = none) (p : ι) :
    (s.phase p).locked = false := by
  by_contra hp
  rw [h.sleeper p (Bool.not_eq_false _ ▸ hp)] at hl
  cases hl

theorem idle_of_free (h : Inv cond s) (hl : s.lock = none) (w : ω) : s.waker w = .idle := by
  by_contra hw
  rw [h.waker w hw] at hl
  cases hl

/-- Some sleepers are woken: no other phase changes. -/
theorem Rouses.eq_of_ne {a b : ι → Phase} (h : Rouses a b) {p : ι} (hp : b p ≠ .roused) :
    b p = a p :=
  (h p).resolve_right fun he => hp he.2

theorem Rouses.quiet {a b : ι → Phase} (h : Rouses a b) (ha : Quiet a) : Quiet b := by
  intro p
  rcases h p with he | ⟨-, he⟩
  · rw [he]
    exact ha p
  · simp [he]

theorem Inv.rouse {a : ι → Phase} (h : Inv cond s) (ha : Rouses s.phase a) :
    Inv cond { s with phase := a } where
  sleeper p hp := by
    have he := ha.eq_of_ne (p := p) fun he => by simp [he, Phase.locked] at hp
    exact h.sleeper p (he ▸ hp)
  waker := h.waker
  unmet p hp := by
    have he := ha.eq_of_ne (p := p) fun he => by simp [he] at hp
    exact h.unmet p (he ▸ hp)
  body p hp := by
    have he := ha.eq_of_ne (p := p) fun he => by simp [he] at hp
    exact ha.quiet (h.body p (he ▸ hp))
  done w hw := ha.quiet (h.done w hw)
  met hc := (h.met hc).imp_right ha.quiet

/-- A sleeper past the loop changes the data. -/
theorem Inv.work {p : ι} (h : Inv cond s) (hp : s.phase p = .body) (d : δ) :
    Inv cond { s with data := d } where
  sleeper := h.sleeper
  waker := h.waker
  unmet q hq := by
    -- nobody else has the lock
    have hlocked : (s.phase q).locked = true := by
      rcases hq with hq | hq <;> rw [hq] <;> rfl
    rw [h.eq_of_locked (p := p) (by rw [hp]; rfl) hlocked, hp] at hq
    simp at hq
  body := h.body
  done := h.done
  met _ := .inr (h.body p hp)

end

section

omit [DecidableEq ω]

variable {cond : δ → Bool} {s : State ι ω δ}

/-- The sleeper `p` moves to `x`.  When that is on the way to sleep, nobody may be past the loop
or have woken the sleepers. -/
theorem Inv.move (h : Inv cond s) {p : ι} {x : Phase}
    {lk : Option (ι ⊕ ω)} (hself : x.locked = true → lk = some (.inl p))
    (hrest : ∀ q, q ≠ p → (s.phase q).locked = true → lk = some (.inl q))
    (hwaker : ∀ w, s.waker w ≠ .idle → lk = some (.inr w))
    (hunmet : x = .found ∨ x = .both → cond s.data = false) (hbody : x = .body → Quiet s.phase)
    (hsleep : x = .going ∨ x = .asleep → (∀ q, q ≠ p → s.phase q ≠ .body) ∧
      (∀ w, s.waker w ≠ .done) ∧ (cond s.data = true → ∃ w, s.waker w = .set)) :
    Inv cond { s with lock := lk, phase := update s.phase p x } := by
  -- a move that is not on the way to sleep leaves the others in peace
  have hquiet : ¬ (x = .going ∨ x = .asleep) → Quiet s.phase → Quiet (update s.phase p x) := by
    intro hx hq q
    obtain ⟨hx₁, hx₂⟩ := not_or.mp hx
    by_cases hqp : q = p
    · subst hqp
      simpa using ⟨hx₁, hx₂⟩
    · simpa [hqp] using hq q
  constructor
  case sleeper =>
    intro q hq
    by_cases hqp : q = p
    · subst hqp
      exact hself (by simpa using hq)
    · exact hrest q hqp (by simpa [hqp] using hq)
  case waker => exact hwaker
  case unmet =>
    intro q hq
    by_cases hqp : q = p
    · subst hqp
      exact hunmet (by simpa using hq)
    · exact h.unmet q (by simpa [hqp] using hq)
  case body =>
    intro q hq
    by_cases hqp : q = p
    · subst hqp
      have hx : x = .body := by simpa using hq
      exact hquiet (by simp [hx]) (hbody hx)
    · have hq' : s.phase q = .body := by simpa [hqp] using hq
      exact hquiet (fun hx => (hsleep hx).1 q hqp hq') (h.body q hq')
  case done => exact fun w hw => hquiet (fun hx => (hsleep hx).2.1 w hw) (h.done w hw)
  case met =>
    intro hc
    by_cases hx : x = .going ∨ x = .asleep
    · exact .inl ((hsleep hx).2.2 hc)
    · exact (h.met hc).imp_right (hquiet hx)

/-- A sleeper that has the lock moves and keeps it. -/
theorem Inv.keep (h : Inv cond s) {p : ι} {x : Phase}
    (hp : (s.phase p).locked = true) (hx : x.locked = true)
    (hunmet : x = .found ∨ x = .both → cond s.data = false) (hbody : x = .body → Quiet s.phase) :
    Inv cond { s with phase := update s.phase p x } := by
  refine h.move (fun _ => h.sleeper p hp) (fun q hq hl => absurd (h.eq_of_locked hp hl) hq)
    h.waker hunmet hbody ?_
  rintro (rfl | rfl) <;> cases hx

/-- A sleeper takes the lock. -/
theorem Inv.take (h : Inv cond s) (p : ι) (hl : s.lock = none) :
    Inv cond { s with lock := some (.inl p), phase := update s.phase p .test } :=
  h.move (fun _ => rfl) (fun q _ hq => by simp [unlocked_of_free h hl q] at hq)
    (fun w hw => absurd (idle_of_free h hl w) hw) (by simp) (by simp) (by simp)

/-- A sleeper that has the lock moves and gives it up. -/
theorem Inv.drop (h : Inv cond s) {p : ι} {x : Phase}
    (hp : (s.phase p).locked = true) (hx : x.locked = false)
    (hsleep : x = .going ∨ x = .asleep → cond s.data = false) :
    Inv cond { s with lock := none, phase := update s.phase p x } := by
  refine h.move (fun hl => by simp [hx] at hl) (fun q hq hl => absurd (h.eq_of_locked hp hl) hq)
    (fun w hw => absurd (h.idle_of_locked hp w) hw) ?_ ?_
    fun hs => ⟨fun q hq hb => ?_, fun w hw => ?_, fun hc => ?_⟩
  · rintro (rfl | rfl) <;> cases hx
  · rintro rfl
    cases hx
  · exact hq (h.eq_of_locked hp (by rw [hb]; rfl))
  · rw [h.idle_of_locked hp w] at hw
    cases hw
  · rw [hsleep hs] at hc
    cases hc

end

variable {cond : δ → Bool}

omit [DecidableEq ι] in
/-- A waker that has the lock moves. -/
theorem Inv.signal {s : State ι ω δ} (h : Inv cond s) {w : ω} {x : Signal}
    {a : ι → Phase} {d : δ} (hw : s.waker w ≠ .idle) (ha : Rouses s.phase a)
    (hdone : x = .done → Quiet a) (hset : cond d = true → x = .set ∨ Quiet a) :
    Inv cond { s with data := d, phase := a, waker := update s.waker w x } := by
  have hfree : ∀ q, (a q).locked = false := by
    intro q
    rcases ha q with he | ⟨-, he⟩
    · rw [he]
      exact h.unlocked_of_waker hw q
    · rw [he]
      rfl
  constructor
  case sleeper => exact fun q hq => by simp [hfree q] at hq
  case waker =>
    intro v hv
    by_cases hvw : v = w
    · subst hvw
      exact h.waker v hw
    · exact h.waker v (by simpa [hvw] using hv)
  case unmet =>
    intro q hq
    have hlocked := hfree q
    rcases hq with hq | hq
    · rw [show a q = .found from hq] at hlocked
      cases hlocked
    · rw [show a q = .both from hq] at hlocked
      cases hlocked
  case body =>
    intro q hq
    have hlocked := hfree q
    rw [show a q = .body from hq] at hlocked
    cases hlocked
  case done =>
    intro v hv
    by_cases hvw : v = w
    · subst hvw
      exact hdone (by simpa using hv)
    · have hv' : s.waker v = .done := by simpa [hvw] using hv
      exact ha.quiet (h.done v hv')
  case met =>
    intro hc
    rcases hset hc with rfl | hq
    · exact .inl ⟨w, Function.update_self _ _ _⟩
    · exact .inr hq

/-- **Every move keeps the invariant.** -/
theorem Inv.step {s s' : State ι ω δ} (h : Inv cond s) (hs : Step cond s s') : Inv cond s' := by
  cases hs with
  | enter p hp hl => exact h.take p hl
  | find p hp hc => exact h.keep (by rw [hp]; rfl) rfl (fun _ => hc) (by simp)
  | pass p hp hc =>
    -- the sleeper has the lock, so no waker is about to wake: nobody sleeps
    refine h.keep (by rw [hp]; rfl) rfl (by simp) fun _ => (h.met hc).resolve_left ?_
    rintro ⟨w, hw⟩
    rw [h.idle_of_locked (p := p) (by rw [hp]; rfl) w] at hw
    cases hw
  | claim p hp => exact h.keep (by rw [hp]; rfl) rfl (fun _ => h.unmet p (.inl hp)) (by simp)
  | drop p hp => exact h.drop (by rw [hp]; rfl) rfl fun _ => h.unmet p (.inr hp)
  | doze p hp =>
    -- somebody is about to sleep already
    have hnot : ¬ Quiet s.phase := fun hq => (hq p).1 hp
    refine h.move (by simp [Phase.locked]) (fun q _ hq => h.sleeper q hq) h.waker (by simp)
      (by simp) fun _ => ⟨fun q _ hb => hnot (h.body q hb), fun w hw => hnot (h.done w hw), ?_⟩
    exact fun hc => (h.met hc).resolve_right hnot
  | rouse a ha => exact h.rouse ha
  | relock p hp hl => exact h.take p hl
  | work p d hp => exact h.work hp d
  | leave p hp => exact h.drop (by rw [hp]; rfl) rfl (by simp)
  | acquire w hw hl =>
    constructor
    case sleeper => exact fun q hq => by simp [unlocked_of_free h hl q] at hq
    case waker =>
      intro v hv
      by_cases hvw : v = w
      · rw [hvw]
      · exact absurd (idle_of_free h hl v) (by simpa [hvw] using hv)
    case unmet => exact h.unmet
    case body => exact h.body
    case done =>
      intro v hv
      by_cases hvw : v = w
      · subst hvw
        simp at hv
      · exact h.done v (by simpa [hvw] using hv)
    case met =>
      intro hc
      refine .inr ((h.met hc).resolve_left ?_)
      rintro ⟨v, hv⟩
      rw [idle_of_free h hl v] at hv
      cases hv
  | set w d hw hc =>
    exact h.signal (by rw [hw]; simp) (fun _ => .inl rfl) (by simp) fun _ => .inl rfl
  | signal w a hw hfree ha hall =>
    -- nobody is on the way to sleep, and whoever was asleep has been woken
    have hq : Quiet a := by
      intro q
      refine ⟨fun hg => ?_, hall q⟩
      rw [ha.eq_of_ne (by rw [hg]; simp)] at hg
      exact (hfree q).2 hg
    exact h.signal (by rw [hw]; simp) ha (fun _ => hq) fun _ => .inr hq
  | release w hw =>
    have hq := h.done w hw
    have hw' : s.waker w ≠ .idle := by rw [hw]; simp
    have hv : ∀ v, update s.waker w .idle v = .idle := by
      intro v
      by_cases hvw : v = w
      · simp [hvw]
      · rw [Function.update_of_ne hvw]
        by_contra hv
        exact hvw (h.eq_of_waker hw' hv)
    constructor
    case sleeper => exact fun q hl => by simp [h.unlocked_of_waker hw' q] at hl
    case waker => exact fun v hne => absurd (hv v) hne
    case unmet => exact h.unmet
    case body => exact h.body
    case done => exact fun _ _ => hq
    case met => exact fun _ => .inr hq

/-! ## A lock made of a condition

The condition says that the lock is free.  A process takes it past the loop, by data for which
the condition does not hold, and only a process that holds it makes the condition hold again. -/

/-- The moves of such a lock, with who holds it. -/
inductive Use (cond : δ → Bool) (s : State ι ι δ) (holds : ι → Bool) :
    State ι ι δ → (ι → Bool) → Prop
  | take (p : ι) (d : δ) (hp : s.phase p = .body) (hh : holds p = false) (hc : cond d = false) :
      Use cond s holds { s with data := d } (update holds p true)
  | begin (p : ι) (hp : s.waker p = .idle) (hl : s.lock = none) (hh : holds p = true) :
      Use cond s holds { s with lock := some (.inr p), waker := update s.waker p .locked } holds
  | clear (p : ι) (d : δ) (hp : s.waker p = .locked) (hc : cond d = true) :
      Use cond s holds { s with data := d, waker := update s.waker p .set } (update holds p false)
  | keep (s' : State ι ι δ) (h : Step cond s s') (hd : s'.data = s.data)
      (hw : ∀ p, s'.waker p = .locked → s.waker p = .locked) : Use cond s holds s' holds

omit [DecidableEq ω] in
/-- Every use of the lock is a move of the protocol. -/
theorem Use.step {s s' : State ι ι δ} {holds holds' : ι → Bool}
    (h : Use cond s holds s' holds') : Step cond s s' := by
  cases h with
  | take p d hp hh hc => exact .work p d hp
  | begin p hp hl hh => exact .acquire p hp hl
  | clear p d hp hc => exact .set p d hp hc
  | keep s' h hd hw => exact h

/-- Who holds the lock, and that nobody else does. -/
structure Exclusive (cond : δ → Bool) (s : State ι ι δ) (holds : ι → Bool) : Prop where
  free : cond s.data = true → ∀ p, holds p = false
  one : ∀ p q, holds p = true → holds q = true → p = q
  entering : ∀ p, s.phase p = .body → holds p = false → cond s.data = true
  caller : ∀ p, s.waker p = .locked → holds p = true

omit [DecidableEq ω] in
/-- A move that does not lead past the loop. -/
theorem body_of_update {phase : ι → Phase} {p q : ι} {x : Phase}
    (h : update phase p x q = .body) (hx : x ≠ .body) : phase q = .body := by
  by_cases hq : q = p
  · subst hq
    exact absurd (by simpa using h) hx
  · simpa [hq] using h

/-- Nobody comes past the loop unless the condition holds. -/
theorem Step.body {s s' : State ι ω δ} (h : Step cond s s') {p : ι}
    (hp : s'.phase p = .body) : s.phase p = .body ∨ cond s.data = true := by
  cases h with
  | enter q _ _ => exact .inl (body_of_update hp nofun)
  | find q _ _ => exact .inl (body_of_update hp nofun)
  | pass q _ hc => exact .inr hc
  | claim q _ => exact .inl (body_of_update hp nofun)
  | drop q _ => exact .inl (body_of_update hp nofun)
  | doze q _ => exact .inl (body_of_update hp nofun)
  | rouse a ha =>
    have hp' : a p = .body := hp
    exact .inl (ha.eq_of_ne (by rw [hp']; simp) ▸ hp')
  | relock q _ _ => exact .inl (body_of_update hp nofun)
  | work q d _ => exact .inl hp
  | leave q _ => exact .inl (body_of_update hp nofun)
  | acquire w _ _ => exact .inl hp
  | set w d _ _ => exact .inl hp
  | signal w a _ _ ha _ =>
    have hp' : a p = .body := hp
    exact .inl (ha.eq_of_ne (by rw [hp']; simp) ▸ hp')
  | release w _ => exact .inl hp

/-- **One process at a time.** -/
theorem Exclusive.step {s s' : State ι ι δ} {holds holds' : ι → Bool}
    (hI : Inv cond s) (hE : Exclusive cond s holds) (h : Use cond s holds s' holds') :
    Exclusive cond s' holds' := by
  cases h with
  | take p d hp hh hc =>
    have hnone := hE.free (hE.entering p hp hh)
    have hlocked : (s.phase p).locked = true := by rw [hp]; rfl
    have honly : ∀ q, update holds p true q = true → q = p := by
      intro q hq
      by_contra hqp
      rw [Function.update_of_ne hqp, hnone q] at hq
      cases hq
    constructor
    case free => exact fun hd => by simp [hc] at hd
    case one => exact fun q r hq hr => (honly q hq).trans (honly r hr).symm
    case entering =>
      intro q hq hqh
      have hq' : s.phase q = .body := hq
      rw [hI.eq_of_locked (q := q) hlocked (by rw [hq']; rfl), Function.update_self] at hqh
      cases hqh
    case caller =>
      intro q hq
      rw [hI.idle_of_locked hlocked q] at hq
      cases hq
  | begin p hp hl hh =>
    refine ⟨hE.free, hE.one, hE.entering, fun q hq => ?_⟩
    by_cases hqp : q = p
    · rw [hqp, hh]
    · exact hE.caller q (by simpa [hqp] using hq)
  | clear p d hp hc =>
    have hh := hE.caller p hp
    have hidle : s.waker p ≠ .idle := by rw [hp]; simp
    have hnone : ∀ q, update holds p false q = false := by
      intro q
      by_cases hqp : q = p
      · simp [hqp]
      · rw [Function.update_of_ne hqp]
        exact Bool.eq_false_iff.mpr fun hq => hqp (hE.one q p hq hh)
    constructor
    case free => exact fun _ => hnone
    case one => exact fun q r hq _ => by rw [hnone q] at hq; cases hq
    case entering => exact fun _ _ _ => hc
    case caller =>
      intro q hq
      by_cases hqp : q = p
      · subst hqp
        simp at hq
      · have hq' : s.waker q = .locked := by simpa [hqp] using hq
        exact absurd (hI.eq_of_waker hidle (by rw [hq']; simp)) hqp
  | keep s' h hd hw =>
    refine ⟨hd ▸ hE.free, hE.one, fun p hp hh => ?_, fun p hp => hE.caller p (hw p hp)⟩
    rw [hd]
    rcases h.body hp with hb | hc
    · exact hE.entering p hb hh
    · exact hc

end Monitor
