import Xv6Mlfq.Log.Users

/-!
# A crash leaves whole commit groups

At every moment the disk is one from which recovery gives the initial home blocks with the updates
of the commit groups whose header has been written.  The invariant has three parts: `Users`, that
the log is closed to operations while it commits; `Pins`, that the blocks in the header keep their
buffers, which is why the header never has more entries than there are blocks in the log; and
`At`, what disk and cache hold in each phase, which refines the redo log of `RedoLog`.

That the log does not overrun is not what the check in `log_write` gives: it is made without
`log.lock`, so two operations can pass it at 28 blocks and fill the header with 30.  But then
every buffer of the cache is dirty, and `write_log` finds none for the first block of the log.

## Main results

* `crashInv_step` — every step keeps the invariant.
* `log_crash_atomic` — recovery gives the updates of whole groups, however often it is tried.
-/

namespace Xv6Mlfq

open Function (update update_self update_of_ne)
open RedoLog (Recovers Installed Copied)

variable {P : Type}

/-! ## The buffers -/

/-- The header in memory is that of the current group. -/
def Mode.isOpen : Mode → Bool
  | .up | .writeLog _ | .finish => true
  | _ => false

/-- The blocks of the current group keep their buffers, so the header has no more entries than the
cache has buffers; and one fewer when `write_log` has found a buffer for the log. -/
structure Pins (s : LogSys P) : Prop where
  nodup : s.mode.isOpen = true → s.lh.Nodup
  home : s.mode.isOpen = true → ∀ b ∈ s.lh, Home b
  dirty : s.mode.isOpen = true → ∀ b ∈ s.lh, b ∈ s.dirty
  bound : ∀ tail, s.mode = .writeLog tail → tail ≠ 0 → s.lh.length ≤ nlog - 1
  logging : ∀ p b, s.op p = .logging b → (p, b) ∈ s.held ∧ Home b
  card : s.pinned.card ≤ NBUF

variable {s s' : LogSys P} {disk₀ : Disk} {g : Groups}

/-- With a buffer for the block `a` of the log there are at most `nlog - 1` dirty blocks. -/
theorem Pins.length_lt {bs : Finset ℕ} {a : ℕ} (h : Pins s)
    (hm : s.mode.isOpen = true) (hr : s.room bs = true) (ha : a ∈ bs) (hhome : ¬ Home a) :
    s.lh.length ≤ nlog - 1 := by
  have hsub : insert a s.lh.toFinset ⊆ s.pinned ∪ bs := by
    intro x hx
    rcases Finset.mem_insert.mp hx with rfl | hx
    · exact Finset.mem_union_right _ ha
    · have hd := h.dirty hm x (List.mem_toFinset.mp hx)
      exact Finset.mem_union_left _ (Finset.mem_union_left _ hd)
  have hnot : a ∉ s.lh.toFinset := fun hx => hhome (h.home hm a (List.mem_toFinset.mp hx))
  have hle := Finset.card_le_card hsub
  rw [Finset.card_insert_of_notMem hnot, List.toFinset_card_of_nodup (h.nodup hm)] at hle
  simp only [LogSys.room, decide_eq_true_eq, NBUF, MAXOPBLOCKS] at hr
  simp only [nlog, LOGSIZE, MAXOPBLOCKS]
  omega

theorem pins_boot (disk : Disk) : Pins (LogSys.boot disk : LogSys P) where
  nodup h := by cases h
  home h := by cases h
  dirty h := by cases h
  bound tail h := by cases h
  logging p b h := by cases h
  card := by simp [LogSys.pinned, LogSys.boot]

/-- A step that leaves the header and the buffers alone. -/
theorem Pins.of_eq (h : Pins s) (hl : s'.lh = s.lh) (hd : s'.dirty = s.dirty)
    (hm : s'.mode.isOpen = true → s.mode.isOpen = true)
    (hw : ∀ tail, s'.mode = .writeLog tail → tail ≠ 0 → s.mode = .writeLog tail)
    (hcard : s'.pinned.card ≤ NBUF)
    (hlog : ∀ p b, s'.op p = .logging b → (p, b) ∈ s'.held ∧ Home b) : Pins s' where
  nodup h' := by rw [hl]; exact h.nodup (hm h')
  home h' := by rw [hl]; exact h.home (hm h')
  dirty h' := by rw [hl, hd]; exact h.dirty (hm h')
  bound tail h' ht := by rw [hl]; exact h.bound tail (hw tail h' ht) ht
  logging := hlog
  card := hcard

theorem Pins.panic (h : Pins s) (msg : String) : Pins (s.panic msg) :=
  h.of_eq rfl rfl id (fun _ h' _ => h') h.card h.logging

theorem card_pinned_bwrite (h : s.pinned.card ≤ NBUF) (b : ℕ) (d : Block) :
    (s.bwrite b d).pinned.card ≤ NBUF :=
  (Finset.card_le_card (Finset.union_subset_union_left (Finset.erase_subset _ _))).trans h

/-- A write of a block while the log is closed, or is about to be. -/
theorem Pins.bwrite (h : Pins s) (b : ℕ) (d : Block) {m : Mode}
    (hm : m.isOpen = false) : Pins { s.bwrite b d with mode := m } where
  nodup h' := by simp [hm] at h'
  home h' := by simp [hm] at h'
  dirty h' := by simp [hm] at h'
  bound tail h' := by simp only at h'; rw [h'] at hm; cases hm
  logging := h.logging
  card := card_pinned_bwrite h.card b d

/-- `log.lh.n = 0; write_head()` -/
theorem Pins.clear (h : Pins s) {m : Mode} (hm : ∀ tail, m ≠ .writeLog tail) :
    Pins { ({ s with lh := [] } : LogSys P).writeHeadBlock with mode := m } where
  nodup _ := List.nodup_nil
  home _ b hb := by cases hb
  dirty _ b hb := by cases hb
  bound tail h' := absurd h' (hm tail)
  logging := h.logging
  card := card_pinned_bwrite (s := { s with lh := [] }) h.card logstart
    (writeHead [] (s.mem logstart))

/-- When `write_log` has found its buffers, the header fits the log. -/
theorem Pins.fits {tail b : ℕ} (h : Pins s) (hm : s.mode = .writeLog tail)
    (hr : s.room {logBlock tail, b} = true) : s.lh.length ≤ nlog - 1 := by
  by_cases ht : tail = 0
  · subst ht
    exact h.length_lt (by rw [hm]; rfl) hr (Finset.mem_insert_self _ _) (by decide)
  · exact h.bound tail hm ht

theorem Pins.commit (h : Pins s) (hs : CommitStep s s') : Pins s' := by
  cases hs with
  | copy tail b hm hb hr =>
    have hopen : s.mode.isOpen = true := by rw [hm]; rfl
    have hfits := h.fits hm hr
    have htail : tail < s.lh.length := (List.getElem?_eq_some_iff.mp hb).1
    have hnot : ¬ Home (logBlock tail) := logLayout.apart tail (htail.trans_le hfits)
    constructor
    case nodup => exact fun _ => h.nodup hopen
    case home => exact fun _ => h.home hopen
    case dirty =>
      intro _ b' hb'
      refine Finset.mem_erase.mpr ⟨?_, h.dirty hopen b' hb'⟩
      rintro rfl
      exact hnot (h.home hopen _ hb')
    case bound => exact fun _ _ _ => hfits
    case logging => exact h.logging
    case card => exact card_pinned_bwrite h.card (logBlock tail) (s.mem b)
  | head tail hm hb hr => exact h.bwrite _ _ rfl
  | install tail b hm hb => exact h.bwrite _ _ rfl
  | clear tail hm hb => exact h.clear (by simp)
  | finish hm =>
    refine h.of_eq rfl rfl (by simp [hm, Mode.isOpen]) (by simp) h.card fun p b hp => ?_
    refine h.logging p b ?_
    by_cases hc : s.op p = .commit
    · simp [hc] at hp
    · simpa [hc] using hp
  | panic _ => exact h.panic _

theorem Pins.recover (h : Pins s) (hs : RecoverStep s s') : Pins s' := by
  cases hs with
  | read lh hm hb =>
    exact ⟨by simp [Mode.isOpen], by simp [Mode.isOpen], by simp [Mode.isOpen], by simp,
      h.logging, h.card⟩
  | install tail b hm hb => exact h.bwrite _ _ rfl
  | clear tail hm hb => exact h.clear (by simp)
  | panic => exact h.panic _

variable [DecidableEq P]

theorem Pins.logAppend {p : P} {b : ℕ} (h : Pins s) (hup : s.mode = .up)
    (hp : s.op p = .logging b) :
    Pins { s with
      lh := absorb b s.lh
      dirty := insert b s.dirty
      unlogged := s.unlogged.erase b
      op := update s.op p .inOp } := by
  obtain ⟨hheld, hhome⟩ := h.logging p b hp
  constructor
  case nodup => exact fun hm => nodup_absorb (h.nodup hm)
  case home =>
    intro hm x hx
    rcases mem_absorb.mp hx with hx | rfl
    · exact h.home hm x hx
    · exact hhome
  case dirty =>
    intro hm x hx
    rcases mem_absorb.mp hx with hx | rfl
    · exact Finset.mem_insert_of_mem (h.dirty hm x hx)
    · exact Finset.mem_insert_self _ _
  case bound =>
    intro tail hm
    rw [show s.mode = .writeLog tail from hm] at hup
    cases hup
  case logging =>
    intro q b' hq
    by_cases hqp : q = p
    · subst hqp
      simp at hq
    · exact h.logging q b' (by simpa [hqp] using hq)
  case card =>
    -- the buffer of the block is locked already
    have hb : b ∈ (s.held.map Prod.snd).toFinset :=
      List.mem_toFinset.mpr (List.mem_map.mpr ⟨(p, b), hheld, rfl⟩)
    have heq : insert b s.dirty ∪ (s.held.map Prod.snd).toFinset = s.pinned := by
      rw [Finset.insert_union, Finset.insert_eq_of_mem (Finset.mem_union_right _ hb)]
      rfl
    show (insert b s.dirty ∪ (s.held.map Prod.snd).toFinset).card ≤ NBUF
    rw [heq]
    exact h.card

/-- A process that is not in `log_write` moves on. -/
theorem Pins.move {p : P} {x : Op} (h : Pins s) (hl : s'.lh = s.lh)
    (hd : s'.dirty = s.dirty) (hh : s'.held = s.held) (ho : s'.op = update s.op p x)
    (hx : ∀ b, x = .logging b → (p, b) ∈ s.held ∧ Home b)
    (hm : s'.mode.isOpen = true → s.mode.isOpen = true)
    (hw : ∀ tail, s'.mode = .writeLog tail → tail ≠ 0 → s.mode = .writeLog tail) : Pins s' := by
  refine h.of_eq hl hd hm hw ?_ fun q b hq => ?_
  · rw [LogSys.pinned, hd, hh]
    exact h.card
  · rw [hh]
    rw [ho] at hq
    by_cases hqp : q = p
    · subst hqp
      exact hx b (by simpa using hq)
    · exact h.logging q b (by simpa [hqp] using hq)

/-- **Every step keeps the blocks of the header pinned.** -/
theorem pins_step {l : LogLabel P} (h : Pins s) (hU : Users s)
    (hs : logStep l s = some s') : Pins s' := by
  cases l with
  | beginOp p =>
    obtain ⟨-, -, -, -, rfl⟩ := step_beginOp hs
    exact h.move rfl rfl rfl rfl (by simp) id fun _ h' _ => h'
  | bread p b =>
    obtain ⟨-, -, ⟨hr, rfl⟩ | rfl⟩ := step_bread hs
    · refine h.of_eq rfl rfl id (fun _ h' _ => h') ?_ fun q b' hq => ?_
      · have heq : ({ s with held := (p, b) :: s.held } : LogSys P).pinned = s.pinned ∪ {b} := by
          simp only [LogSys.pinned, List.map_cons, List.toFinset_cons, Finset.union_assoc]
          rw [Finset.insert_eq, Finset.union_comm {b}]
        rw [heq]
        exact of_decide_eq_true hr
      · obtain ⟨hmem, hhome⟩ := h.logging q b' hq
        exact ⟨List.mem_cons_of_mem _ hmem, hhome⟩
    · exact h.panic _
  | modify p b d =>
    obtain ⟨-, -, -, rfl⟩ := step_modify hs
    exact h.of_eq rfl rfl id (fun _ h' _ => h') h.card h.logging
  | logWrite p b =>
    obtain ⟨-, hheld, hhome, ⟨-, rfl⟩ | ⟨-, -, rfl⟩ | ⟨-, rfl⟩⟩ := step_logWrite hs
    · exact h.panic _
    · exact h.panic _
    · refine h.move rfl rfl rfl rfl (fun b' hb' => ?_) id fun _ h' _ => h'
      cases hb'
      exact ⟨hheld, hhome⟩
  | logAppend p =>
    obtain ⟨b, hp, rfl⟩ := step_logAppend hs
    exact h.logAppend (hU.mode_eq_up (by rw [hp]; rfl)) hp
  | brelse p b =>
    obtain ⟨hp, -, -, rfl⟩ := step_brelse hs
    refine h.of_eq rfl rfl id (fun _ h' _ => h') ?_ fun q b' hq => ?_
    · refine (Finset.card_le_card ?_).trans h.card
      refine Finset.union_subset_union_right fun x hx => ?_
      rw [List.mem_toFinset] at hx ⊢
      exact ((List.erase_sublist).map _).subset hx
    · obtain ⟨hmem, hhome⟩ := h.logging q b' hq
      have hne : (q, b') ≠ (p, b) := by
        rintro ⟨⟩
        simp only at hq
        rw [hq] at hp
        rcases hp with hp | hp <;> cases hp
      exact ⟨(List.mem_erase_of_ne hne).mpr hmem, hhome⟩
  | endOp p =>
    obtain ⟨hp, -, ⟨hc, -⟩ | ⟨-, rfl⟩ | ⟨-, rfl⟩⟩ := step_endOp hs
    · exact absurd (hU.mode_eq_up (by rw [hp]; rfl)) (hU.committing.mp hc).2
    · have hm := hU.mode_eq_up (p := p) (by rw [hp]; rfl)
      refine h.move rfl rfl rfl rfl (by simp) (fun _ => by rw [hm]; rfl) fun tail ht h0 => ?_
      simp only at ht
      split_ifs at ht
      cases ht
      exact absurd rfl h0
    · exact h.move rfl rfl rfl rfl (by simp) id fun _ h' _ => h'
  | commit => exact h.commit (step_commit hs)
  | recover => exact h.recover (step_recover hs)
  | crash =>
    rw [step_crash hs]
    exact pins_boot _

/-! ## What disk and cache hold -/

omit [DecidableEq P]

/-- The log is open for the group with the updates `cur`: the cache has them, and the disk does
not differ from the cache outside the blocks of the group. -/
structure Open (G : Disk) (cur : List (ℕ × Block)) (s : LogSys P) : Prop where
  mem_eq : ∀ b, Home b → s.mem b = applyUpdates cur G b
  changed : ∀ b, Home b → b ∉ s.lh → b ∉ s.unlogged → s.mem b = s.disk b

/-- The phases, with the header that is on the disk. -/
inductive At (G : Disk) (cur : List (ℕ × Block)) (s : LogSys P) : Mode → List ℕ → Prop
  | readHead (header : List ℕ) (hcur : cur = []) (hmem : s.mem = s.disk) :
      At G cur s .readHead header
  | recover (tail : ℕ) (hcur : cur = []) (hmem : s.mem = s.disk)
      (hi : Installed s.lh s.disk G tail) : At G cur s (.recover tail) s.lh
  | up (ho : Open G cur s) : At G cur s .up []
  | writeLog (tail : ℕ) (ho : Open G cur s) (hpos : 0 < s.lh.length)
      (hc : Copied logLayout s.lh s.disk (applyUpdates cur G) tail) : At G cur s (.writeLog tail) []
  | install (tail : ℕ) (hcur : cur = []) (hmem : ∀ b, Home b → s.mem b = G b)
      (hi : Installed s.lh s.disk G tail) : At G cur s (.install tail) s.lh
  | finish (ho : Open G cur s) : At G cur s .finish []

/-- The disk recovers to the groups that are done, and cache and disk are as the phase has it. -/
structure Contents (disk₀ : Disk) (s : LogSys P) (g : Groups) : Prop where
  area : ∀ b, ¬ Home b → s.mem b = s.disk b
  phase : ∃ header, readHead (s.disk logstart) = some header ∧
    Recovers logLayout header s.disk (applyGroups g.done disk₀) ∧
    At (applyGroups g.done disk₀) g.current s s.mode header

/-- A step that no buffer and no block is part of. -/
theorem Contents.of_eq (h : Contents disk₀ s g)
    (hd : s'.disk = s.disk) (hm : s'.mem = s.mem) (hl : s'.lh = s.lh)
    (hu : s'.unlogged = s.unlogged) (hmode : s'.mode = s.mode) : Contents disk₀ s' g := by
  obtain ⟨harea, header, hread, hrec, hat⟩ := h
  refine ⟨by rw [hd, hm]; exact harea, header, by rw [hd]; exact hread, by rw [hd]; exact hrec, ?_⟩
  have hopen : Open (applyGroups g.done disk₀) g.current s →
      Open (applyGroups g.done disk₀) g.current s' := by
    rintro ⟨h₁, h₂⟩
    exact ⟨by rw [hm]; exact h₁, by rw [hm, hd, hl, hu]; exact h₂⟩
  rw [hmode]
  generalize s.mode = m at hat ⊢
  cases hat with
  | readHead _ hcur hmem => exact .readHead header hcur (by rw [hm, hd, hmem])
  | recover tail hcur hmem hi =>
    rw [← hl]
    exact .recover tail hcur (by rw [hm, hd, hmem]) (by rw [hl, hd]; exact hi)
  | up ho => exact .up (hopen ho)
  | writeLog tail ho hpos hc =>
    exact .writeLog tail (hopen ho) (by rw [hl]; exact hpos) (by rw [hl, hd]; exact hc)
  | install tail hcur hmem hi =>
    rw [← hl]
    exact .install tail hcur (by rw [hm]; exact hmem) (by rw [hl, hd]; exact hi)
  | finish ho => exact .finish (hopen ho)

theorem applyUpdates_append (us : List (ℕ × Block)) (b : ℕ) (d : Block) (disk : Disk) :
    applyUpdates (us ++ [(b, d)]) disk = update (applyUpdates us disk) b d := by
  simp [applyUpdates, List.foldl_append]

theorem applyGroups_append (gs : List (List (ℕ × Block))) (us : List (ℕ × Block)) (disk : Disk) :
    applyGroups (gs ++ [us]) disk = applyUpdates us (applyGroups gs disk) := by
  simp [applyGroups, List.foldl_append]

section Phases

variable {disk₀ : Disk} {s : LogSys P} {g : Groups}

/-- `At` with the mode known. -/
theorem Contents.open_of_up (h : Contents disk₀ s g) (hm : s.mode = .up) :
    readHead (s.disk logstart) = some [] ∧
      Recovers logLayout [] s.disk (applyGroups g.done disk₀) ∧
      Open (applyGroups g.done disk₀) g.current s := by
  obtain ⟨-, header, hread, hrec, hat⟩ := h
  rw [hm] at hat
  cases hat with
  | up ho => exact ⟨hread, hrec, ho⟩

variable {tail b : ℕ} {s' : LogSys P}

theorem Contents.open_of_writeLog (h : Contents disk₀ s g) (hm : s.mode = .writeLog tail) :
    readHead (s.disk logstart) = some [] ∧
      Recovers logLayout [] s.disk (applyGroups g.done disk₀) ∧
      Open (applyGroups g.done disk₀) g.current s ∧ 0 < s.lh.length ∧
      Copied logLayout s.lh s.disk (applyUpdates g.current (applyGroups g.done disk₀)) tail := by
  obtain ⟨-, header, hread, hrec, hat⟩ := h
  rw [hm] at hat
  cases hat with
  | writeLog _ ho hpos hc => exact ⟨hread, hrec, ho, hpos, hc⟩

theorem Contents.of_install (h : Contents disk₀ s g) (hm : s.mode = .install tail) :
    readHead (s.disk logstart) = some s.lh ∧
      Recovers logLayout s.lh s.disk (applyGroups g.done disk₀) ∧ g.current = [] ∧
      (∀ b, Home b → s.mem b = applyGroups g.done disk₀ b) ∧
      Installed s.lh s.disk (applyGroups g.done disk₀) tail := by
  obtain ⟨-, header, hread, hrec, hat⟩ := h
  rw [hm] at hat
  cases hat with
  | install _ hcur hmem hi => exact ⟨hread, hrec, hcur, hmem, hi⟩

theorem Contents.of_recover (h : Contents disk₀ s g) (hm : s.mode = .recover tail) :
    readHead (s.disk logstart) = some s.lh ∧
      Recovers logLayout s.lh s.disk (applyGroups g.done disk₀) ∧ g.current = [] ∧
      s.mem = s.disk ∧ Installed s.lh s.disk (applyGroups g.done disk₀) tail := by
  obtain ⟨-, header, hread, hrec, hat⟩ := h
  rw [hm] at hat
  cases hat with
  | recover _ hcur hmem hi => exact ⟨hread, hrec, hcur, hmem, hi⟩

/-- Switched on, the machine has what the disk has. -/
theorem Contents.boot (h : Contents disk₀ s g) :
    Contents disk₀ (LogSys.boot s.disk : LogSys P) { g with current := [] } := by
  obtain ⟨-, header, hread, hrec, -⟩ := h
  exact ⟨fun _ _ => rfl, header, hread, hrec, .readHead header rfl rfl⟩

/-- An operation changes a block. -/
theorem Contents.modify (h : Contents disk₀ s g) (hm : s.mode = .up) (hb : Home b) (d : Block) :
    Contents disk₀ { s with mem := update s.mem b d, unlogged := insert b s.unlogged }
      { g with current := g.current ++ [(b, d)] } := by
  obtain ⟨hread, hrec, ho⟩ := h.open_of_up hm
  refine ⟨fun x hx => ?_, [], hread, hrec, ?_⟩
  · have hne : x ≠ b := by
      rintro rfl
      exact hx hb
    simpa [hne] using h.area x hx
  · simp only [hm]
    refine .up ⟨fun x hx => ?_, fun x hx hl hu => ?_⟩
    · rw [applyUpdates_append]
      by_cases hne : x = b
      · subst hne
        simp
      · simpa [hne] using ho.mem_eq x hx
    · have hne : x ≠ b := fun he => hu (he ▸ Finset.mem_insert_self _ _)
      simpa [hne] using ho.changed x hx hl fun hm' => hu (Finset.mem_insert_of_mem hm')

/-- The block is logged. -/
theorem Contents.append (h : Contents disk₀ s g) (hm : s.mode = .up)
    (hd : s'.disk = s.disk) (hmem : s'.mem = s.mem) (hmode : s'.mode = s.mode)
    (hl : s'.lh = absorb b s.lh) (hu : s'.unlogged = s.unlogged.erase b) :
    Contents disk₀ s' g := by
  obtain ⟨hread, hrec, ho⟩ := h.open_of_up hm
  refine ⟨by rw [hd, hmem]; exact h.area, [], by rw [hd]; exact hread, by rw [hd]; exact hrec, ?_⟩
  rw [hmode, hm]
  refine .up ⟨by rw [hmem]; exact ho.mem_eq, fun x hx hxl hxu => ?_⟩
  rw [hl, mem_absorb, not_or] at hxl
  rw [hu, Finset.mem_erase, not_and] at hxu
  rw [hmem, hd]
  exact ho.changed x hx hxl.1 (hxu hxl.2)

/-- The last operation ends. -/
theorem Contents.close (h : Contents disk₀ s g) (hm : s.mode = .up)
    (hd : s'.disk = s.disk) (hmem : s'.mem = s.mem) (hl : s'.lh = s.lh)
    (hu : s'.unlogged = s.unlogged)
    (hmode : s'.mode = if s.lh.length > 0 then .writeLog 0 else .finish) :
    Contents disk₀ s' g := by
  obtain ⟨hread, hrec, ho⟩ := h.open_of_up hm
  refine ⟨by rw [hd, hmem]; exact h.area, [], by rw [hd]; exact hread, by rw [hd]; exact hrec, ?_⟩
  have ho' : Open (applyGroups g.done disk₀) g.current s' :=
    ⟨by rw [hmem]; exact ho.mem_eq, by rw [hmem, hd, hl, hu]; exact ho.changed⟩
  rw [hmode]
  split_ifs with hpos
  · exact .writeLog 0 ho' (by rw [hl]; exact hpos) fun i _ hi => absurd hi (Nat.not_lt_zero i)
  · exact .finish ho'

/-- Outside the log area and the block that is written, nothing changes. -/
theorem area_bwrite (h : ∀ b, ¬ Home b → s.mem b = s.disk b) (a : ℕ) (d : Block)
    (hb : ¬ Home b) : (s.bwrite a d).mem b = (s.bwrite a d).disk b := by
  by_cases hab : b = a
  · subst hab
    simp [LogSys.bwrite]
  · simpa [LogSys.bwrite, hab] using h b hb

/-- The block of the log, and the header, are not home blocks. -/
theorem bwrite_mem_of_home {a : ℕ} (ha : ¬ Home a) (hb : Home b) (d : Block) :
    (s.bwrite a d).mem b = s.mem b := by
  have hne : b ≠ a := by
    rintro rfl
    exact ha hb
  simp [LogSys.bwrite, hne]

theorem bwrite_disk_of_home {a : ℕ} (ha : ¬ Home a) (hb : Home b) (d : Block) :
    (s.bwrite a d).disk b = s.disk b := by
  have hne : b ≠ a := by
    rintro rfl
    exact ha hb
  simp [LogSys.bwrite, hne]

/-- A round of `write_log`. -/
theorem Contents.copy (h : Contents disk₀ s g) (hP : Pins s)
    (hm : s.mode = .writeLog tail) (hb : s.lh[tail]? = some b)
    (hr : s.room {logBlock tail, b} = true) :
    Contents disk₀ { s.bwrite (logBlock tail) (s.mem b) with mode := .writeLog (tail + 1) } g := by
  obtain ⟨hread, hrec, ho, hpos, hc⟩ := h.open_of_writeLog hm
  obtain ⟨htail, rfl⟩ := List.getElem?_eq_some_iff.mp hb
  have hfits := hP.fits hm hr
  have hopen : s.mode.isOpen = true := by rw [hm]; rfl
  have hslot : ¬ Home (logBlock tail) := logLayout.apart tail (htail.trans_le hfits)
  have hhome := hP.home hopen _ (List.getElem_mem htail)
  refine ⟨fun x => area_bwrite h.area _ _, [], ?_, hrec.slot (htail.trans_le hfits) _, ?_⟩
  · show readHead (update s.disk (logBlock tail) _ logstart) = some []
    rw [update_of_ne (logBlock_ne_logstart tail).symm, hread]
  · refine .writeLog (tail + 1) ⟨fun x hx => ?_, fun x hx hl hu => ?_⟩ hpos ?_
    · rw [← ho.mem_eq x hx]
      exact bwrite_mem_of_home hslot hx _
    · rw [← show s.mem x = _ from (bwrite_mem_of_home hslot hx (s.mem s.lh[tail])).symm,
        ← show s.disk x = _ from (bwrite_disk_of_home hslot hx (s.mem s.lh[tail])).symm]
      exact ho.changed x hx hl hu
    · have hsucc := hc.succ htail hfits
      rw [← ho.mem_eq _ hhome] at hsucc
      exact hsucc

/-- `write_head`: the group is committed. -/
theorem Contents.head (h : Contents disk₀ s g) (hP : Pins s) (hU : Users s)
    (hm : s.mode = .writeLog tail) (hb : s.lh[tail]? = none) :
    Contents disk₀ { s.writeHeadBlock with mode := .install 0 } ⟨g.done ++ [g.current], []⟩ := by
  obtain ⟨hread, hrec, ho, hpos, hc⟩ := h.open_of_writeLog hm
  have htail : s.lh.length ≤ tail := List.getElem?_eq_none_iff.mp hb
  have hopen : s.mode.isOpen = true := by rw [hm]; rfl
  have hfits := hP.bound tail hm (by omega)
  have hempty := hU.unlogged_eq_empty (by simp [hm])
  have hhome := hP.home hopen
  -- outside the header, the groups agree
  have hrest : ∀ b, Home b → b ∉ s.lh →
      applyUpdates g.current (applyGroups g.done disk₀) b = applyGroups g.done disk₀ b := by
    intro b hb hl
    rw [← ho.mem_eq b hb, ho.changed b hb hl (by simp [hempty])]
    exact hrec.eq_of_nil hb
  have hcommit := hrec.commit (L := s.lh) hfits hhome
    (fun i hi _ => hc i hi (hi.trans_le htail)) hrest
  refine ⟨fun x => area_bwrite h.area _ _, s.lh, ?_, ?_, ?_⟩
  · show readHead (update s.disk logstart _ logstart) = some s.lh
    rw [update_self]
    exact readHead_writeHead _ (hfits.trans (by decide)) fun b hb => (hhome b hb).1
  · rw [applyGroups_append]
    exact hcommit.outside not_home_logstart (fun i _ => logBlock_ne_logstart i) _
  · refine .install 0 rfl (fun b hb => ?_) fun i _ hi => absurd hi (Nat.not_lt_zero i)
    rw [applyGroups_append, ← ho.mem_eq b hb]
    exact bwrite_mem_of_home not_home_logstart hb _

/-- What a round of `install_trans` writes is what the groups say. -/
theorem installed_block (harea : ∀ b, ¬ Home b → s.mem b = s.disk b)
    (hrec : Recovers logLayout s.lh s.disk (applyGroups g.done disk₀))
    (htail : tail < s.lh.length) :
    s.mem (logBlock tail) = s.disk (logLayout.slot tail) :=
  harea _ (logLayout.apart tail (htail.trans_le hrec.fits))

theorem readHead_install (hread : readHead (s.disk logstart) = some s.lh)
    (hrec : Recovers logLayout s.lh s.disk (applyGroups g.done disk₀))
    (htail : tail < s.lh.length) (d : Block) :
    readHead ((s.bwrite s.lh[tail] d).disk logstart) = some s.lh := by
  have hne : logstart ≠ s.lh[tail] := by
    intro he
    exact not_home_logstart (he ▸ hrec.home _ (List.getElem_mem htail))
  simpa [LogSys.bwrite, hne] using hread

/-- A round of `install_trans`, in `commit`. -/
theorem Contents.install (h : Contents disk₀ s g) (hm : s.mode = .install tail)
    (hb : s.lh[tail]? = some b) :
    Contents disk₀ { s.bwrite b (s.mem (logBlock tail)) with mode := .install (tail + 1) } g := by
  obtain ⟨hread, hrec, hcur, hmem, hi⟩ := h.of_install hm
  obtain ⟨htail, rfl⟩ := List.getElem?_eq_some_iff.mp hb
  have hblock := installed_block h.area hrec htail
  refine ⟨fun x => area_bwrite h.area _ _, s.lh, readHead_install hread hrec htail _, ?_, ?_⟩
  · rw [hblock]
    exact hrec.install htail
  · refine .install (tail + 1) hcur (fun x hx => ?_) ?_
    · by_cases hx' : x = s.lh[tail]
      · subst hx'
        simp only [LogSys.bwrite, update_self, hblock]
        exact hrec.logged tail htail
      · simpa [LogSys.bwrite, hx'] using hmem x hx
    · rw [hblock]
      exact hi.succ hrec htail

/-- A round of `install_trans`, in `recover_from_log`. -/
theorem Contents.reinstall (h : Contents disk₀ s g) (hm : s.mode = .recover tail)
    (hb : s.lh[tail]? = some b) :
    Contents disk₀ { s.bwrite b (s.mem (logBlock tail)) with mode := .recover (tail + 1) } g := by
  obtain ⟨hread, hrec, hcur, hmem, hi⟩ := h.of_recover hm
  obtain ⟨htail, rfl⟩ := List.getElem?_eq_some_iff.mp hb
  have hblock := installed_block h.area hrec htail
  refine ⟨fun x => area_bwrite h.area _ _, s.lh, readHead_install hread hrec htail _, ?_, ?_⟩
  · rw [hblock]
    exact hrec.install htail
  · refine .recover (tail + 1) hcur (by simp [LogSys.bwrite, hmem]) ?_
    rw [hblock]
    exact hi.succ hrec htail

/-- `log.lh.n = 0; write_head()` when all of the log is installed. -/
theorem Contents.cleared {m : Mode} (hm : m = .up ∨ m = .finish) (hcur : g.current = [])
    (harea : ∀ b, ¬ Home b → s.mem b = s.disk b)
    (hrec : Recovers logLayout s.lh s.disk (applyGroups g.done disk₀))
    (hi : Installed s.lh s.disk (applyGroups g.done disk₀) s.lh.length)
    (hmem : ∀ b, Home b → s.mem b = applyGroups g.done disk₀ b) :
    Contents disk₀ { ({ s with lh := [] } : LogSys P).writeHeadBlock with mode := m } g := by
  have hopen : Open (applyGroups g.done disk₀) g.current
      { ({ s with lh := [] } : LogSys P).writeHeadBlock with mode := m } := by
    refine ⟨fun b hb => ?_, fun b hb _ _ => ?_⟩
    · rw [hcur]
      exact (bwrite_mem_of_home not_home_logstart hb _).trans (hmem b hb)
    · refine (bwrite_mem_of_home not_home_logstart hb _).trans ?_
      rw [hmem b hb, ← hrec.eq_of_installed hi hb]
      exact (bwrite_disk_of_home not_home_logstart hb _).symm
  refine ⟨fun x => area_bwrite (s := { s with lh := [] }) harea _ _, [], ?_, ?_, ?_⟩
  · show readHead (update s.disk logstart _ logstart) = some []
    rw [update_self]
    exact readHead_writeHead _ (Nat.zero_le _) (by simp)
  · exact (hrec.clear hi).outside not_home_logstart (fun i _ => logBlock_ne_logstart i) _
  · rcases hm with rfl | rfl
    · exact .up hopen
    · exact .finish hopen

theorem Contents.commit (h : Contents disk₀ s g) (hP : Pins s) (hU : Users s)
    (hs : CommitStep s s') :
    Contents disk₀ s' (if s.writesHead then ⟨g.done ++ [g.current], []⟩ else g) := by
  cases hs with
  | copy tail b hm hb hr =>
    have hlt : tail < s.lh.length := (List.getElem?_eq_some_iff.mp hb).1
    rw [if_neg (by simp [LogSys.writesHead, hm, hlt])]
    exact h.copy hP hm hb hr
  | head tail hm hb hr =>
    have hle : s.lh.length ≤ tail := List.getElem?_eq_none_iff.mp hb
    rw [if_pos (by simp [LogSys.writesHead, hm, hle, hr])]
    exact h.head hP hU hm hb
  | install tail b hm hb =>
    rw [if_neg (by simp [LogSys.writesHead, hm])]
    exact h.install hm hb
  | clear tail hm hb =>
    obtain ⟨-, hrec, hcur, hmem, hi⟩ := h.of_install hm
    have hle : s.lh.length ≤ tail := List.getElem?_eq_none_iff.mp hb
    rw [if_neg (by simp [LogSys.writesHead, hm])]
    exact Contents.cleared (.inr rfl) hcur h.area hrec
      (fun i hi' hl => hi i hi' (hl.trans_le hle)) hmem
  | finish hm =>
    obtain ⟨harea, header, hread, hrec, hat⟩ := h
    rw [hm] at hat
    rw [if_neg (by simp [LogSys.writesHead, hm])]
    cases hat with
    | finish ho => exact ⟨harea, [], hread, hrec, .up ⟨ho.mem_eq, ho.changed⟩⟩
  | panic hw =>
    rw [hw]
    exact h.of_eq rfl rfl rfl rfl rfl

theorem Contents.recover (h : Contents disk₀ s g) (hs : RecoverStep s s') :
    Contents disk₀ s' g := by
  cases hs with
  | read lh hm hb =>
    obtain ⟨harea, header, hread, hrec, hat⟩ := h
    rw [hm] at hat
    cases hat with
    | readHead _ hcur hmem =>
      obtain rfl : header = lh := by
        rw [hmem, hread] at hb
        exact Option.some.inj hb
      exact ⟨harea, header, hread, hrec,
        .recover 0 hcur hmem fun i _ hi => absurd hi (Nat.not_lt_zero i)⟩
  | install tail b hm hb => exact h.reinstall hm hb
  | clear tail hm hb =>
    obtain ⟨-, hrec, hcur, hmem, hi⟩ := h.of_recover hm
    have hle : s.lh.length ≤ tail := List.getElem?_eq_none_iff.mp hb
    have hall : Installed s.lh s.disk (applyGroups g.done disk₀) s.lh.length :=
      fun i hi' hl => hi i hi' (hl.trans_le hle)
    refine Contents.cleared (.inl rfl) hcur h.area hrec hall fun b hb => ?_
    rw [hmem]
    exact hrec.eq_of_installed hall hb
  | panic => exact h.of_eq rfl rfl rfl rfl rfl

end Phases

/-! ## Runs -/

/-- The invariant. -/
structure CrashInv (disk₀ : Disk) (s : LogSys P) (g : Groups) : Prop where
  users : Users s
  pins : Pins s
  contents : Contents disk₀ s g

theorem crashInv_boot (h₀ : readHead (disk₀ logstart) = some []) :
    CrashInv disk₀ (LogSys.boot disk₀ : LogSys P) .none where
  users := users_boot disk₀
  pins := pins_boot disk₀
  contents := ⟨fun _ _ => rfl, [], h₀, RedoLog.recovers_nil fun _ _ => rfl, .readHead [] rfl rfl⟩

/-- Nothing has been read into the cache, so there are buffers. -/
theorem withBufs_of_empty (hh : s.held = []) (hd : s.dirty = ∅) (bs : Finset ℕ)
    (hbs : bs.card ≤ NBUF) (go : LogSys P → LogSys P) : s.withBufs bs go = some (go s) := by
  simp [LogSys.withBufs, LogSys.unheld, LogSys.room, LogSys.pinned, hh, hd, hbs]

variable [DecidableEq P]

/-- **Every step keeps what disk and cache hold in step with the groups.** -/
theorem contents_step {l : LogLabel P}
    (h : Contents disk₀ s g) (hP : Pins s) (hU : Users s) (hs : logStep l s = some s') :
    Contents disk₀ s' (groups s l g) := by
  cases l with
  | beginOp p =>
    obtain ⟨-, -, -, -, rfl⟩ := step_beginOp hs
    exact h.of_eq rfl rfl rfl rfl rfl
  | bread p b =>
    obtain ⟨-, -, ⟨-, rfl⟩ | rfl⟩ := step_bread hs
    · exact h.of_eq rfl rfl rfl rfl rfl
    · exact h.of_eq rfl rfl rfl rfl rfl
  | modify p b d =>
    obtain ⟨hp, -, hb, rfl⟩ := step_modify hs
    exact h.modify (hU.mode_eq_up (p := p) (by rw [hp]; rfl)) hb d
  | logWrite p b =>
    obtain ⟨-, -, -, ⟨-, rfl⟩ | ⟨-, -, rfl⟩ | ⟨-, rfl⟩⟩ := step_logWrite hs
    · exact h.of_eq rfl rfl rfl rfl rfl
    · exact h.of_eq rfl rfl rfl rfl rfl
    · exact h.of_eq rfl rfl rfl rfl rfl
  | logAppend p =>
    obtain ⟨b, hp, rfl⟩ := step_logAppend hs
    exact h.append (hU.mode_eq_up (p := p) (by rw [hp]; rfl)) rfl rfl rfl rfl rfl
  | brelse p b =>
    obtain ⟨-, -, -, rfl⟩ := step_brelse hs
    exact h.of_eq rfl rfl rfl rfl rfl
  | endOp p =>
    obtain ⟨hp, -, ⟨-, rfl⟩ | ⟨-, rfl⟩ | ⟨-, rfl⟩⟩ := step_endOp hs
    · exact h.of_eq rfl rfl rfl rfl rfl
    · exact h.close (hU.mode_eq_up (p := p) (by rw [hp]; rfl)) rfl rfl rfl rfl rfl
    · exact h.of_eq rfl rfl rfl rfl rfl
  | commit => exact h.commit hP hU (step_commit hs)
  | recover => exact h.recover (step_recover hs)
  | crash =>
    rw [step_crash hs]
    exact h.boot

theorem crashInv_step {l : LogLabel P} (h : CrashInv disk₀ s g) (hs : logStep l s = some s') :
    CrashInv disk₀ s' (groups s l g) :=
  ⟨users_step h.users hs, pins_step h.pins h.users hs, contents_step h.contents h.pins h.users hs⟩

theorem crashInv_of_run (h₀ : readHead (disk₀ logstart) = some []) {ls : List (LogLabel P)}
    (hx : Transition.exec (Transition.observed logStep groups) ls (.boot disk₀, .none) =
      some (s, g)) : CrashInv disk₀ s g := by
  have hreach : Transition.Reachable (Transition.observed logStep groups)
      ((.boot disk₀ : LogSys P), .none) (s, g) := ⟨ls, hx⟩
  refine hreach.invariant (I := fun sg : LogSys P × Groups => CrashInv disk₀ sg.1 sg.2)
    (crashInv_boot h₀) ?_
  rintro ⟨s, g⟩ l ⟨s', g'⟩ hI hs
  obtain ⟨hstep, rfl⟩ := Transition.observed_some.mp hs
  exact crashInv_step hI hstep

/-! ### Recovery comes to an end -/

/-- The loop of `install_trans`, with `k` blocks to go. -/
theorem exists_recover_run {k t : ℕ} (hn : s.panicked = none)
    (hh : s.held = []) (hd : s.dirty = ∅) (hm : s.mode = .recover t)
    (hk : s.lh.length = t + k) :
    ∃ u, Transition.exec logStep (List.replicate (k + 1) .recover) s = some u ∧ u.mode = .up := by
  induction k generalizing s t with
  | zero =>
    have hb : s.lh[t]? = none := List.getElem?_eq_none_iff.mpr (by omega)
    let s' : LogSys P := { ({ s with lh := [] } : LogSys P).writeHeadBlock with mode := .up }
    refine ⟨s', Transition.exec_cons_some.mpr ⟨s', ?_, rfl⟩, rfl⟩
    simp only [logStep, hn, if_true, LogSys.recover, hm, LogSys.installTrans, hb]
    exact withBufs_of_empty hh hd _ (by decide) _
  | succ k ih =>
    have ht : t < s.lh.length := by omega
    have hb : s.lh[t]? = some s.lh[t] := List.getElem?_eq_getElem ht
    let s' : LogSys P := { s.bwrite s.lh[t] (s.mem (logBlock t)) with mode := .recover (t + 1) }
    have hstep : logStep .recover s = some s' := by
      simp only [logStep, hn, if_true, LogSys.recover, hm, LogSys.installTrans, hb]
      exact withBufs_of_empty hh hd _ ((Finset.card_le_two).trans (by decide)) _
    obtain ⟨u, hu, hup⟩ := ih (s := s') (t := t + 1) hn hh (by simp [s', LogSys.bwrite, hd])
      rfl (by simp only [s', LogSys.bwrite]; omega)
    rw [List.replicate_succ]
    exact ⟨u, Transition.exec_cons_some.mpr ⟨s', hstep, hu⟩, hup⟩

theorem exists_recovery {disk : Disk} {header : List ℕ}
    (h : readHead (disk logstart) = some header) :
    ∃ t : LogSys P, Transition.exec logStep
      (List.replicate (header.length + 2) .recover) (.boot disk) = some t ∧ t.mode = .up := by
  let s : LogSys P := { LogSys.boot disk with lh := header, mode := .recover 0 }
  have hstep : logStep .recover (.boot disk) = some s := by
    simp [logStep, LogSys.recover, LogSys.boot, h, s]
  obtain ⟨t, ht, hup⟩ := exists_recover_run (s := s) (k := header.length) (t := 0) rfl rfl rfl
    rfl (by simp [s])
  rw [List.replicate_succ]
  exact ⟨t, Transition.exec_cons_some.mpr ⟨s, hstep, ht⟩, hup⟩

/-! ## Main result -/

/-- **A crash leaves whole commit groups.**  For any number of processes and any run from a disk
with an empty log: when the machine crashes, recovery comes to an end; and when it does, after any
number of further crashes, the home blocks are the initial ones with the updates of the groups
whose header had reached the disk, and no others. -/
theorem log_crash_atomic (disk₀ : Disk) (h₀ : readHead (disk₀ logstart) = some [])
    (ls : List (LogLabel P)) (s : LogSys P) (g : Groups)
    (hx : Transition.exec (Transition.observed logStep groups) ls (.boot disk₀, .none) =
      some (s, g)) :
    (∃ k t, Transition.exec logStep (.crash :: List.replicate k .recover) s = some t ∧
      t.mode = .up) ∧
    ∀ ls' t, (∀ l ∈ ls', l = .crash ∨ l = .recover) →
      Transition.exec logStep (.crash :: ls') s = some t → t.mode = .up →
      ∀ b, Home b → t.disk b = applyGroups g.done disk₀ b := by
  have hI := crashInv_of_run h₀ hx
  constructor
  · obtain ⟨header, hread, -, -⟩ := hI.contents.phase
    obtain ⟨t, ht, hup⟩ := exists_recovery (P := P) hread
    exact ⟨header.length + 2, t, Transition.exec_cons_some.mpr ⟨_, rfl, ht⟩, hup⟩
  · intro ls' t hls ht hup b hb
    obtain ⟨s', hcrash, ht⟩ := Transition.exec_cons_some.mp ht
    -- crashes and recovery add no group
    have hfinal : CrashInv disk₀ t ⟨g.done, []⟩ := by
      refine Transition.along_invariant (I := fun t => CrashInv disk₀ t ⟨g.done, []⟩) ht
        (Transition.along_of_forall s' hls) (crashInv_step hI hcrash) ?_
      rintro t l t' hI' (rfl | rfl) hs
      · exact crashInv_step hI' hs
      · exact crashInv_step hI' hs
    obtain ⟨-, hrec, -⟩ := hfinal.contents.open_of_up hup
    exact hrec.eq_of_nil hb

/-- An operation changes block 40 and the machine crashes when the header has been written, and
again in recovery. -/
theorem log_crash_atomic_block : ∃ t : LogSys Unit, t.mode = .up ∧ t.disk 40 = fun _ => 7 := by
  have hrun : ∃ sg : LogSys Unit × Groups,
      Transition.exec (Transition.observed logStep groups)
        [.recover, .recover, .beginOp (), .bread () 40, .modify () 40 fun _ => 7, .logWrite () 40,
          .logAppend (), .brelse () 40, .endOp (), .commit, .commit, .crash, .recover]
        (.boot fun _ _ => 0, .none) = some sg ∧ sg.2.done = [[(40, fun _ => 7)]] :=
    Transition.exists_exec _ _ (by decide +kernel)
  obtain ⟨⟨s, g⟩, hx, hg⟩ := hrun
  obtain ⟨⟨k, t, ht, hup⟩, hall⟩ := log_crash_atomic (fun _ _ => 0) (by decide +kernel) _ s g hx
  refine ⟨t, hup, ?_⟩
  rw [hall _ t (fun l hl => .inr (List.eq_of_mem_replicate hl)) ht hup 40 (by decide), hg]
  simp [applyGroups, applyUpdates]

end Xv6Mlfq
