import Mathlib.Algebra.Order.Group.Int
import Mathlib.Logic.Function.Basic

/-!
# Families of processes

A table of processes, each of which has a parent.  A process is made in two moves: a slot is
claimed for it, and it is given its maker as parent before it is born; a process that exits
passes its children to the root of the family and stays in the table until its parent reaps
it.  A parent that has nothing to reap may go to sleep; whoever makes a child of it dead
wakes it.

`Table` is the state of this protocol for an arbitrary set `ι` of slots, and `Step` its moves.
Every invariant is an invariant of single moves, so it holds under every interleaving of the
processes.

## Main definitions

* `Table.Closed` — every process has a living parent, and no parent sleeps on a dead child.
* `Table.Named` — no two slots have the same positive pid.
* `Table.Descended w` — the parent of a process is the one that made it, or the root.

## Main results

* `closed_step`, `named_step`, `descended_step` — the moves keep the three invariants.
* `marked_step` — how a process comes to be marked.
-/

namespace Family

open Function (update update_apply update_of_ne update_self)

universe u

/-- What a slot is used for: nothing, a process that is being made, a process, one that sleeps
until a child of it is dead, or one that has exited. -/
inductive Status
  | free | unborn | live | waiting | dead
  deriving DecidableEq

/-- The table.  `making q` is the slot that `q` has claimed, with `true` when the slot has been
given its parent; `next` is the pid of the next process, and `root` adopts orphans. -/
@[ext] structure Table (ι : Type u) where
  status : ι → Status
  parent : ι → Option ι
  pid : ι → ℤ
  marked : ι → Bool
  making : ι → Option (Bool × ι)
  next : ℤ
  root : ι

/-- The moves. -/
inductive Act (ι : Type u)
  | rest
  | wait (p : ι)
  | claim (q p : ι)
  | adopt (q p : ι)
  | bear (q p : ι)
  | fail (q p : ι)
  | exit (q : ι)
  | reap (q p : ι)
  | mark (p : ι)
  deriving DecidableEq

variable {ι : Type u}

/-- The slot holds a process that has not exited. -/
@[grind] def Table.alive (T : Table ι) (p : ι) : Prop :=
  T.status p = .live ∨ T.status p = .waiting

/-- `T'` is `T` with some processes woken. -/
structure Roused (T T' : Table ι) : Prop where
  status : ∀ p, T'.status p = T.status p ∨ T.status p = .waiting ∧ T'.status p = .live
  parent : ∀ p, T'.parent p = T.parent p
  pid : ∀ p, T'.pid p = T.pid p
  marked : ∀ p, T'.marked p = T.marked p
  making : ∀ p, T'.making p = T.making p
  next : T'.next = T.next
  root : T'.root = T.root

theorem Roused.refl (T : Table ι) : Roused T T :=
  ⟨fun _ => .inl rfl, fun _ => rfl, fun _ => rfl, fun _ => rfl, fun _ => rfl, rfl, rfl⟩

variable {T T' : Table ι}

theorem Roused.alive (h : Roused T T') (p : ι) : T'.alive p ↔ T.alive p := by
  rcases h.status p with hs | ⟨hw, hl⟩
  · rw [Table.alive, Table.alive, hs]
  · exact ⟨fun _ => .inr hw, fun _ => .inl hl⟩

/-- Only a process that waits is changed. -/
theorem Roused.of_status {p : ι} {x : Status} (h : Roused T T') (hp : T'.status p = x)
    (hx : x ≠ .live) : T.status p = x := by
  rcases h.status p with hs | ⟨-, hl⟩
  · exact hs ▸ hp
  · exact absurd (hp.symm.trans hl) hx

/-- Every process but the root has a living parent, a slot that is not in use has none, and no
process sleeps while it has a dead child. -/
structure Table.Closed (T : Table ι) : Prop where
  root_alive : T.alive T.root
  root_parent : T.parent T.root = none
  parent_alive : ∀ p q, T.parent p = some q → T.alive q
  has_parent : ∀ p, p ≠ T.root → T.alive p ∨ T.status p = .dead → T.parent p ≠ none
  no_parent : ∀ p, T.status p = .free → T.parent p = none
  maker : ∀ q b p, T.making q = some (b, p) → T.alive q ∧ T.status p = .unborn ∧
    T.parent p = if b then some q else none
  maker_unique : ∀ q q' b b' p, T.making q = some (b, p) → T.making q' = some (b', p) → q = q'
  irrefl : ∀ p, T.parent p ≠ some p
  served : ∀ p q, T.status q = .waiting → T.parent p = some q → T.status p ≠ .dead

/-- A slot without a living process is nobody's parent. -/
theorem Table.Closed.childless {p r s : ι} (hT : T.Closed) (hp : ¬ T.alive p)
    (hs : T.parent r = some s) : s ≠ p :=
  fun h => hp (h ▸ hT.parent_alive r s hs)

/-- Only an unborn process is being made. -/
theorem Table.Closed.unmade {p q r : ι} {b : Bool} (hT : T.Closed) (hp : T.status p ≠ .unborn)
    (hm : T.making q = some (b, r)) : r ≠ p :=
  fun h => hp (h ▸ (hT.maker q b r hm).2.1)

/-! ## The moves -/

variable [DecidableEq ι]

/-- `q` is dead and its children are the root's. -/
def Table.bury (T : Table ι) (q : ι) : Table ι :=
  { T with
    status := update T.status q .dead
    parent := fun p => if T.parent p = some q then some T.root else T.parent p }

@[grind =] theorem Table.bury_status (T : Table ι) (q p : ι) :
    (T.bury q).status p = if p = q then .dead else T.status p :=
  update_apply _ _ _ _

@[grind =] theorem Table.bury_parent (T : Table ι) (q p : ι) :
    (T.bury q).parent p = if T.parent p = some q then some T.root else T.parent p := rfl

@[grind =] theorem Table.bury_pid (T : Table ι) (q p : ι) : (T.bury q).pid p = T.pid p := rfl

@[grind =] theorem Table.bury_marked (T : Table ι) (q p : ι) :
    (T.bury q).marked p = T.marked p := rfl

@[grind =] theorem Table.bury_making (T : Table ι) (q p : ι) :
    (T.bury q).making p = T.making p := rfl

@[grind =] theorem Table.bury_next (T : Table ι) (q : ι) : (T.bury q).next = T.next := rfl

@[grind =] theorem Table.bury_root (T : Table ι) (q : ι) : (T.bury q).root = T.root := rfl

/-- What the moves do.  `exit` wakes the parent, and the root if it gets a dead child. -/
inductive Step (T : Table ι) : Act ι → Table ι → Prop
  | rest {T' : Table ι} (h : Roused T T') : Step T .rest T'
  | wait {p : ι} (hp : T.status p = .live)
      (hc : ∀ r, T.parent r = some p → T.status r ≠ .dead) :
      Step T (.wait p) { T with status := update T.status p .waiting }
  | claim {q p : ι} (hq : T.status q = .live) (hm : T.making q = none) (hp : T.status p = .free) :
      Step T (.claim q p) { T with
        status := update T.status p .unborn
        pid := update T.pid p T.next
        making := update T.making q (some (false, p))
        next := T.next + 1 }
  | adopt {q p : ι} (hm : T.making q = some (false, p)) :
      Step T (.adopt q p) { T with
        parent := update T.parent p (some q)
        making := update T.making q (some (true, p)) }
  | bear {q p : ι} (hm : T.making q = some (true, p)) :
      Step T (.bear q p) { T with
        status := update T.status p .live
        making := update T.making q none }
  | fail {q p : ι} (hm : T.making q = some (false, p)) :
      Step T (.fail q p) { T with
        status := update T.status p .free
        making := update T.making q none }
  | exit {q : ι} {T' : Table ι} (hq : T.status q = .live) (hroot : q ≠ T.root)
      (hm : T.making q = none) (hr : Roused T T')
      (hpar : ∀ r, T.parent q = some r → T'.status r ≠ .waiting)
      (hdead : (∃ p, T.parent p = some q ∧ T.status p = .dead) →
        T'.status T.root ≠ .waiting) :
      Step T (.exit q) (T'.bury q)
  | reap {q p : ι} (hq : T.status q = .live) (hp : T.parent p = some q)
      (hd : T.status p = .dead) :
      Step T (.reap q p) { T with
        status := update T.status p .free
        pid := update T.pid p 0
        parent := update T.parent p none
        marked := update T.marked p false }
  | mark (p : ι) :
      Step T (.mark p) { T with
        status := update T.status p (if T.status p = .waiting then .live else T.status p)
        marked := update T.marked p true }

/-! ## The family is closed -/

variable {a : Act ι}

attribute [local grind =] update_apply

attribute [local grind cases] Roused Table.Closed

/-- The slot that is claimed was free, so it is nobody's parent and nobody makes it. -/
theorem Table.Closed.claim {q p : ι} (hT : T.Closed) (h : Step T (.claim q p) T') :
    T'.Closed := by
  cases h with
  | claim hq hm hp =>
    have hunborn : T.status p ≠ .unborn := by simp [hp]
    have hnot : ¬ T.alive p := by simp [Table.alive, hp]
    have hold : ∀ {r b x}, r ≠ q → update T.making q (some (false, p)) r = some (b, x) →
        T.making r = some (b, x) := fun hr hx => update_of_ne hr _ T.making ▸ hx
    constructor
    case maker =>
      intro r b x hx
      by_cases hr : r = q
      · obtain ⟨rfl, rfl⟩ : false = b ∧ p = x := by simpa [hr] using hx
        exact ⟨by grind, update_self .., hT.no_parent p hp⟩
      · obtain ⟨ha, hs, hpar⟩ := hT.maker r b x (hold hr hx)
        exact ⟨by grind, (update_of_ne (hT.unmade hunborn (hold hr hx)) _ _).trans hs, hpar⟩
    case maker_unique =>
      -- the new slot is made by `q` alone
      intro r r' b b' x hx hx'
      by_cases hr : r = q <;> by_cases hr' : r' = q
      · exact hr.trans hr'.symm
      · obtain ⟨-, rfl⟩ : false = b ∧ p = x := by simpa [hr] using hx
        exact absurd rfl (hT.unmade hunborn (hold hr' hx'))
      · obtain ⟨-, rfl⟩ : false = b' ∧ p = x := by simpa [hr'] using hx'
        exact absurd rfl (hT.unmade hunborn (hold hr hx))
      · exact hT.maker_unique r r' b b' x (hold hr hx) (hold hr' hx')
    case served =>
      intro r s hs hr
      have hs : T.status s = .waiting := update_of_ne (hT.childless hnot hr) _ T.status ▸ hs
      have := hT.served r s hs hr
      grind
    all_goals grind

/-- The root takes the children over, and is awake if one of them is dead; the parent of the process
is awake. -/
theorem Table.Closed.exit {q : ι} (hT : T.Closed) (h : Step T (.exit q) T') : T'.Closed := by
  cases h with
  | @exit q T' hq hroot hm hr hpar hdead =>
    have hparent : ∀ p, (T'.bury q).parent p =
        if T.parent p = some q then some T.root else T.parent p := by
      intro p
      rw [bury_parent, hr.parent, hr.root]
    have halive : ∀ {p}, p ≠ q → T.alive p → (T'.bury q).alive p := by
      intro p hp ha
      rw [Table.alive, bury_status, if_neg hp]
      exact (hr.alive p).mpr ha
    have hrooteq : (T'.bury q).root = T.root := hr.root
    constructor
    case root_alive => exact hrooteq ▸ halive hroot.symm hT.root_alive
    case parent_alive =>
      intro p s hs
      rw [hparent] at hs
      split_ifs at hs with hp
      · cases hs
        exact halive hroot.symm hT.root_alive
      · exact halive (fun h => hp (h ▸ hs)) (hT.parent_alive p s hs)
    case maker =>
      intro r b x hx
      rw [bury_making, hr.making] at hx
      obtain ⟨ha, hs, hpx⟩ := hT.maker r b x hx
      have hrq : r ≠ q := fun h => by simp [h, hm] at hx
      have hstatus := hr.status x
      refine ⟨halive hrq ha, by grind, ?_⟩
      rw [hparent, hpx]
      grind
    case maker_unique => simpa only [bury_making, hr.making] using hT.maker_unique
    case served =>
      intro p s hs hp hd
      have hkeep : ∀ {p}, p ≠ q → (T'.bury q).status p = T'.status p := fun hp => by
        rw [bury_status, if_neg hp]
      have hsq : s ≠ q := fun h => by simp [bury_status, h] at hs
      rw [hkeep hsq] at hs
      rw [hparent] at hp
      split_ifs at hp with hpq
      · -- a dead child of the process: the root does not wait
        cases hp
        have hne : p ≠ q := fun h => hT.irrefl q (h ▸ hpq)
        exact hdead ⟨p, hpq, hr.of_status (hkeep hne ▸ hd) (by decide)⟩ hs
      · by_cases hne : p = q
        · exact hpar s (hne ▸ hp) hs
        · exact hT.served p s (hr.of_status hs (by decide)) hp
            (hr.of_status (hkeep hne ▸ hd) (by decide))
    all_goals grind

/-- The slot that becomes free was dead, so it is nobody's parent and nobody makes it. -/
theorem Table.Closed.reap {q p : ι} (hT : T.Closed) (h : Step T (.reap q p) T') :
    T'.Closed := by
  cases h with
  | reap hq hp hd =>
    have hnot : ¬ T.alive p := by simp [Table.alive, hd]
    have hold : ∀ {r s}, update T.parent p none r = some s → r ≠ p ∧ T.parent r = some s := by
      intro r s hs
      have hrp : r ≠ p := fun h => by simp [h] at hs
      exact ⟨hrp, update_of_ne hrp _ T.parent ▸ hs⟩
    constructor
    case maker =>
      intro r b x hx
      obtain ⟨ha, hs, hpar⟩ := hT.maker r b x hx
      have hxp : x ≠ p := hT.unmade (by simp [hd]) hx
      exact ⟨by grind, (update_of_ne hxp _ _).trans hs, (update_of_ne hxp _ _).trans hpar⟩
    case maker_unique => exact hT.maker_unique
    case served =>
      intro r s hs hr
      obtain ⟨hrp, hr⟩ := hold hr
      have hs : T.status s = .waiting := update_of_ne (hT.childless hnot hr) _ T.status ▸ hs
      exact (update_of_ne hrp _ _).trans_ne (hT.served r s hs hr)
    all_goals grind

/-- **Every move keeps the family closed.** -/
theorem closed_step (hT : T.Closed) (h : Step T a T') : T'.Closed := by
  cases a with
  | claim q p => exact hT.claim h
  | exit q => exact hT.exit h
  | reap q p => exact hT.reap h
  | rest | wait | adopt | bear | fail | mark =>
    cases h
    constructor
    all_goals grind

/-! ## Pids -/

/-- Pids are handed out in increasing order, each to one process. -/
structure Table.Named (T : Table ι) : Prop where
  next_pos : 0 < T.next
  pid_lt : ∀ p, T.pid p < T.next
  pid_pos : ∀ p, T.status p ≠ .free → 0 < T.pid p
  pid_inj : ∀ p p', 0 < T.pid p → T.pid p = T.pid p' → p = p'

attribute [local grind cases] Table.Named

theorem named_step (hT : T.Named) (hC : T.Closed) (h : Step T a T') : T'.Named := by
  cases h with
  | @claim q p hq hm hp =>
    -- the new pid is greater than those that were handed out
    have hnew : ∀ {r}, r ≠ p → update T.pid p T.next r < T.next := fun {r} hr =>
      update_of_ne hr T.next T.pid ▸ hT.pid_lt r
    constructor
    case pid_inj =>
      intro r r' hpos he
      by_cases hr : r = p <;> by_cases hr' : r' = p
      · exact hr.trans hr'.symm
      · exact absurd (he.symm.trans (hr ▸ update_self ..)) (hnew hr').ne
      · exact absurd (he.trans (hr' ▸ update_self ..)) (hnew hr).ne
      · simp only [update_of_ne hr, update_of_ne hr'] at hpos he
        exact hT.pid_inj r r' hpos he
    all_goals grind
  | @reap q p hq hp hd =>
    -- only the slot that becomes free has lost its pid
    have hne : ∀ {r}, 0 < update T.pid p 0 r → r ≠ p := fun hpos h => by simp [h] at hpos
    constructor
    case pid_inj =>
      intro r r' hpos he
      have hr := hne hpos
      have hr' := hne (hpos.trans_eq he)
      simp only [update_of_ne hr, update_of_ne hr'] at hpos he
      exact hT.pid_inj r r' hpos he
    all_goals grind
  | bear hm =>
    have := hC.maker _ _ _ hm
    constructor
    all_goals grind
  | rest | wait | adopt | fail | exit | mark =>
    constructor
    all_goals grind

/-- A pid changes when its process is reaped or its slot is claimed. -/
theorem pid_step (h : Step T a T') (p : ι) :
    T'.pid p = T.pid p ∨ (∃ q, a = .reap q p ∧ T'.pid p = 0) ∨
      ∃ q, a = .claim q p ∧ T.status p = .free ∧ T'.pid p = T.next := by
  cases h with
  | rest hr => exact .inl (hr.pid p)
  | exit hq hroot hm hr hpar hdead => exact .inl (hr.pid p)
  | @claim q r hq hm hr =>
    by_cases hp : p = r
    · subst hp
      exact .inr (.inr ⟨q, rfl, hr, update_self _ _ _⟩)
    · exact .inl (update_of_ne hp _ _)
  | @reap q r hq hr hd =>
    by_cases hp : p = r
    · subst hp
      exact .inr (.inl ⟨q, rfl, update_self _ _ _⟩)
    · exact .inl (update_of_ne hp _ _)
  | wait | adopt | bear | fail | mark => exact .inl rfl

theorem pid_of_reap {q p : ι} (h : Step T (.reap q p) T') : T'.pid p = 0 := by
  cases h
  exact update_self _ _ _

/-! ## Parents -/

/-- The pid of the process that made the process with a given pid. -/
def makers (T : Table ι) (a : Act ι) (w : ℤ → ℤ) : ℤ → ℤ :=
  match a with
  | .claim q _ => update w T.next (T.pid q)
  | _ => w

/-- A parent is the process that made its child, or the root. -/
structure Table.Descended (T : Table ι) (w : ℤ → ℤ) : Prop where
  parent : ∀ p q, T.parent p = some q → q = T.root ∨ w (T.pid p) = T.pid q
  making : ∀ q b p, T.making q = some (b, p) → w (T.pid p) = T.pid q

theorem descended_step {w : ℤ → ℤ} (hC : T.Closed) (hN : T.Named)
    (hT : T.Descended w) (h : Step T a T') : T'.Descended (makers T a w) := by
  obtain ⟨h1, h2⟩ := hT
  cases h with
  | @claim q p hq hm hp =>
    -- the slot that is claimed is nobody's parent and makes nothing, and its pid is new
    have hnot : ¬ T.alive p := by simp [Table.alive, hp]
    have hold : ∀ r, update w T.next (T.pid q) (T.pid r) = w (T.pid r) := fun r =>
      update_of_ne (hN.pid_lt r).ne _ _
    change Table.Descended _ (update w T.next (T.pid q))
    constructor
    case parent =>
      intro r s hs
      have hrp : r ≠ p := fun h => by simp [h, hC.no_parent p hp] at hs
      simp only [update_of_ne hrp, update_of_ne (hC.childless hnot hs), hold]
      exact h1 r s hs
    case making =>
      intro r b x hx
      by_cases hr : r = q
      · subst hr
        obtain ⟨rfl, rfl⟩ : false = b ∧ p = x := by simpa using hx
        have hrp : r ≠ p := fun h => hnot (h ▸ .inl hq)
        simp only [update_self, update_of_ne hrp]
      · have hx : T.making r = some (b, x) := update_of_ne hr _ T.making ▸ hx
        have hrp : r ≠ p := fun h => hnot (h ▸ (hC.maker r b x hx).1)
        have hxp : x ≠ p := hC.unmade (by simp [hp]) hx
        simp only [update_of_ne hxp, update_of_ne hrp, hold]
        exact h2 r b x hx
  | @exit q T' hq hroot hm hr hpar hdead =>
    refine ⟨fun p s hs => ?_, fun s b p hp => ?_⟩
    · rw [Table.bury_parent, hr.parent, hr.root] at hs
      split_ifs at hs with hp
      · exact .inl (hr.root.trans (Option.some.inj hs)).symm
      · exact hr.root ▸ hr.pid p ▸ hr.pid s ▸ h1 p s hs
    · exact hr.pid p ▸ hr.pid s ▸ h2 s b p (hr.making s ▸ hp)
  | @reap q p hq hp hd =>
    have hnot : ¬ T.alive p := by simp [Table.alive, hd]
    refine ⟨fun r s hs => ?_, fun r b x hx => ?_⟩
    · have hrp : r ≠ p := fun h => by simp [h] at hs
      have hs : T.parent r = some s := update_of_ne hrp _ T.parent ▸ hs
      simp only [update_of_ne hrp, update_of_ne (hC.childless hnot hs)]
      exact h1 r s hs
    · have hrp : r ≠ p := fun h => hnot (h ▸ (hC.maker r b x hx).1)
      have hxp : x ≠ p := hC.unmade (by simp [hd]) hx
      simp only [update_of_ne hrp, update_of_ne hxp]
      exact h2 r b x hx
  | @adopt q p hm =>
    have := h2 q false p hm
    change Table.Descended _ w
    constructor
    all_goals grind
  | rest | bear | fail =>
    change Table.Descended _ w
    constructor
    all_goals grind
  | wait | mark => exact ⟨h1, h2⟩

/-! ## Marks -/

/-- A process is marked by a move that names it. -/
theorem marked_step (h : Step T a T') {p : ι}
    (hp : T'.marked p = true) : T.marked p = true ∨ a = .mark p := by
  cases h with
  | rest hr => exact .inl (hr.marked p ▸ hp)
  | exit hq hroot hm hr hpar hdead => exact .inl (hr.marked p ▸ hp)
  | reap hq hp' hd => grind
  | mark r => grind
  | wait | claim | adopt | bear | fail => exact .inl hp

theorem marked_of_reap {q p : ι} (h : Step T (.reap q p) T') : T'.marked p = false := by
  cases h
  exact update_self _ _ _

/-- A slot that is not in use has no pid and no mark. -/
structure Table.Clean (T : Table ι) : Prop where
  pid : ∀ p, T.status p = .free → T.pid p = 0
  marked : ∀ p, T.status p = .free → T.marked p = false

attribute [local grind cases] Table.Clean

/-- Slots stay clean as long as no process fails to be made and nobody marks the pid 0. -/
theorem clean_step (hT : T.Clean) (h : Step T a T')
    (hfail : ∀ q p, a ≠ .fail q p) (hmark : ∀ p, a = .mark p → T.pid p ≠ 0) : T'.Clean := by
  cases h with
  | @claim q p hq hm hp =>
    -- a slot that is free afterwards is another one
    have hold : ∀ {r}, update T.status p .unborn r = .free → r ≠ p ∧ T.status r = .free := by
      intro r hr
      have hrp : r ≠ p := fun h => by simp [h] at hr
      exact ⟨hrp, update_of_ne hrp _ T.status ▸ hr⟩
    refine ⟨fun r hr => ?_, fun r hr => hT.marked r (hold hr).2⟩
    exact (update_of_ne (hold hr).1 _ _).trans (hT.pid r (hold hr).2)
  | @exit q T' hq hroot hm hr hpar hdead =>
    have hfree : ∀ {p}, (T'.bury q).status p = .free → T.status p = .free := by
      intro p hp
      rw [Table.bury_status] at hp
      split_ifs at hp
      exact hr.of_status hp (by decide)
    exact ⟨fun p hp => (hr.pid p).trans (hT.pid p (hfree hp)),
      fun p hp => (hr.marked p).trans (hT.marked p (hfree hp))⟩
  | @reap q p hq hp hd =>
    refine ⟨fun r hr => ?_, fun r hr => ?_⟩ <;> by_cases hrp : r = p
    · exact hrp ▸ update_self ..
    · exact (update_of_ne hrp _ _).trans (hT.pid r (update_of_ne hrp _ T.status ▸ hr))
    · exact hrp ▸ update_self ..
    · exact (update_of_ne hrp _ _).trans (hT.marked r (update_of_ne hrp _ T.status ▸ hr))
  | fail hm => exact absurd rfl (hfail _ _)
  | mark p =>
    have := hmark p rfl
    constructor
    all_goals grind
  | rest | wait | adopt | bear =>
    constructor
    all_goals grind

end Family
