import Xv6Mlfq.Lib.LockedCode
import Xv6Mlfq.Lib.Ring

/-!
# The console

`console.c`: `consoleintr`, which edits lines, and `consoleread`, which hands them out, both under
`cons.lock`.  A keystroke is a byte, as `kbdgetc` and `uartgetc` return it.  `consoleintr` is called
with the keys that `getc` will return; it runs in interrupts, next to any number of readers.

## Main definitions

* `Input` — `input`, with the bytes that were committed and those that the readers took.
* `Code`, `act` — the code of the two functions.

## Main results

* `line_discipline` — the indices stay in order, editing leaves committed bytes alone, and the
  readers take exactly the committed bytes, in order.
-/

namespace Xv6Mlfq.Console

open Function (update)
open LockedCode (Act Label State Outline Holds)
open Ring (Window)
open Transition (Reachable exec)

abbrev INPUT_BUF : ℕ := 128

/-- `C('D')` -/
abbrev ctrlD : UInt8 := 4

/-- `C('H')` -/
abbrev ctrlH : UInt8 := 8

/-- `C('P')` -/
abbrev ctrlP : UInt8 := 16

/-- `C('U')` -/
abbrev ctrlU : UInt8 := 21

abbrev newline : UInt8 := 10

abbrev carriageReturn : UInt8 := 13

abbrev delete : UInt8 := 0x7f

/-- `input`; `r` is the read index, `w` the write index and `e` the edit index. -/
structure Input (P : Type) where
  buf : ℕ → UInt8
  r : UInt32
  w : UInt32
  e : UInt32
  /-- History: the bytes that `w` has gone over. -/
  committed : List UInt8
  /-- History: what the readers took: a byte that is stored in `dst`, or the end of the file. -/
  taken : List (P × Option UInt8)

inductive Call
  /-- `consoleintr`, with the keys that `getc` returns -/
  | intr (keys : List UInt8)
  | read (n : ℤ)

/-- Where a process or an interrupt handler is. -/
inductive Code
  | intr (keys : List UInt8)
  /-- the loop of `C('U')` -/
  | killLine (keys : List UInt8)
  | intrWake (keys : List UInt8)
  /-- the loop of `consoleread`, with the bytes stored in `dst` -/
  | read (n : ℤ) (got : List UInt8)
  | readSleep (n : ℤ) (got : List UInt8)
  | readRet (got : List UInt8)

variable {P : Type}

/-- `input.w = input.e` -/
def Input.commit (d : Input P) : Input P :=
  { d with w := d.e, committed := d.committed ++ Ring.contents INPUT_BUF d.buf d.w d.e }

/-- `input.buf[input.e++ % INPUT_BUF] = c` -/
def Input.insert (d : Input P) (c : UInt8) : Input P :=
  { d with buf := update d.buf (d.e.toNat % INPUT_BUF) c, e := d.e + 1 }

/-- `input.r++`, and what is done with the byte. -/
def Input.take (d : Input P) (p : P) (x : Option UInt8) : Input P :=
  { d with r := d.r + 1, taken := d.taken ++ [(p, x)] }

/-- A key that is not for editing: it is inserted if there is room, and may end the line. -/
def key (c : UInt8) (keys : List UInt8) (d : Input P) : Act Code Unit (Input P) ℤ :=
  if c ≠ 0 ∧ (d.e - d.r).toNat < INPUT_BUF then
    let c := if c = carriageReturn then newline else c
    let d := d.insert c
    if c = newline ∨ c = ctrlD ∨ d.e = d.r + UInt32.ofNat INPUT_BUF then
      .goto (.intrWake keys) d.commit
    else .goto (.intr keys) d
  else .goto (.intr keys) d

/-- What a process does next, with `cons.lock`. -/
def act (p : P) (k : Code) (killed : Bool) (d : Input P) : Act Code Unit (Input P) ℤ :=
  match k with
  | .intr [] => .ret 0 d
  | .intr (c :: keys) =>
    if c = ctrlP then .goto (.intr keys) d
    else if c = ctrlU then .goto (.killLine keys) d
    else if c = ctrlH ∨ c = delete then
      if d.e ≠ d.w then .goto (.intr keys) { d with e := d.e - 1 } else .goto (.intr keys) d
    else key c keys d
  | .killLine keys =>
    if d.e ≠ d.w ∧ d.buf ((d.e - 1).toNat % INPUT_BUF) ≠ newline then
      .goto (.killLine keys) { d with e := d.e - 1 }
    else .goto (.intr keys) d
  | .intrWake keys => .wake () (.intr keys)
  | .read n got =>
    if (got.length : ℤ) < n then
      if d.r = d.w then
        if killed then .ret (-1) d else .goto (.readSleep n got) d
      else
        let c := d.buf (d.r.toNat % INPUT_BUF)
        if c = ctrlD then
          -- with `n < target` the index goes up and down again
          if got ≠ [] then .goto (.readRet got) d else .goto (.readRet got) (d.take p none)
        else if c = newline then .goto (.readRet (got ++ [c])) (d.take p (some c))
        else .goto (.read n (got ++ [c])) (d.take p (some c))
    else .goto (.readRet got) d
  | .readSleep n got => .sleep () (.read n got)
  | .readRet got => .ret got.length d

variable [DecidableEq P]

/-- A call, up to `acquire(&cons.lock)`. -/
def start (_ : P) (l : Call) (d : Input P) : Option (Option Code × Input P) :=
  match l with
  | .intr keys => some (some (.intr keys), d)
  | .read n => some (some (.read n []), d)

def code : LockedCode.Code P Call Empty Code Unit (Input P) ℤ where
  start := start
  act := act
  env := nofun

abbrev consoleStep : Label P Call Empty → State P Code Unit (Input P) →
    Option (State P Code Unit (Input P)) := code.step

/-- The empty buffer; after boot its indices are 0. -/
def boot (c : UInt32) : State P Code Unit (Input P) where
  data := ⟨fun _ => 0, c, c, c, [], []⟩
  lock := none
  table := none
  place _ := .idle
  killed _ := false

/-! ## The buffer -/

/-- The byte in the buffer; the end of a file is a `C('D')`. -/
def byte : Option UInt8 → UInt8
  | some b => b
  | none => ctrlD

/-- The committed bytes `xs` that are still to be read, and the line `ys` that is edited. -/
structure Input.Lines (d : Input P) (xs ys : List UInt8) : Prop where
  window : Window INPUT_BUF d.buf d.r d.e (xs ++ ys)
  write : d.w = d.r + UInt32.ofNat xs.length
  books : d.committed = d.taken.map (fun x => byte x.2) ++ xs
  data : ∀ x ∈ d.taken, x.2 ≠ some ctrlD

theorem INPUT_BUF_lt : INPUT_BUF < 2 ^ 32 := by decide

theorem INPUT_BUF_dvd : INPUT_BUF ∣ 2 ^ 32 := by decide

section Lines

omit [DecidableEq P]

variable {d : Input P} {xs ys : List UInt8}

theorem Input.Lines.committed (h : d.Lines xs ys) : Window INPUT_BUF d.buf d.r d.w xs := by
  rw [h.write]
  exact h.window.take

theorem Input.Lines.line (h : d.Lines xs ys) : Window INPUT_BUF d.buf d.w d.e ys := by
  rw [h.write]
  exact h.window.drop INPUT_BUF_dvd

theorem Input.Lines.eq_iff (h : d.Lines xs ys) : d.e = d.w ↔ ys = [] :=
  eq_comm.trans (h.line.eq_iff INPUT_BUF_lt)

theorem Input.Lines.erase (h : d.Lines xs ys) (he : d.e ≠ d.w) :
    ∃ ys', Input.Lines { d with e := d.e - 1 } xs ys' := by
  have hne : ys ≠ [] := fun hy => he (h.eq_iff.mpr hy)
  have hw := h.window
  rw [← List.dropLast_concat_getLast hne, ← List.append_assoc] at hw
  exact ⟨ys.dropLast, (hw.unpush INPUT_BUF_dvd).2, h.write, h.books, h.data⟩

theorem Input.Lines.insert (h : d.Lines xs ys) (hlt : (d.e - d.r).toNat < INPUT_BUF)
    (c : UInt8) : (d.insert c).Lines xs (ys ++ [c]) := by
  rw [h.window.toNat_sub INPUT_BUF_lt] at hlt
  refine ⟨?_, h.write, h.books, h.data⟩
  rw [← List.append_assoc]
  exact h.window.push INPUT_BUF_dvd hlt

theorem Input.Lines.commit (h : d.Lines xs ys) : d.commit.Lines (xs ++ ys) [] := by
  refine ⟨?_, h.window.span, ?_, h.data⟩
  · rw [List.append_nil]
    exact h.window
  · show d.committed ++ Ring.contents INPUT_BUF d.buf d.w d.e = _ ++ (xs ++ ys)
    rw [h.line.contents_eq INPUT_BUF_lt, h.books, List.append_assoc]
    rfl

/-- A reader takes the first committed byte. -/
theorem Input.Lines.take (h : d.Lines xs ys) (hne : d.r ≠ d.w) (p : P) (x : Option UInt8)
    (hx : byte x = d.buf (d.r.toNat % INPUT_BUF)) (hdata : x ≠ some ctrlD) :
    ∃ xs', (d.take p x).Lines xs' ys := by
  have hxs : xs ≠ [] := fun he => hne ((h.committed.eq_iff INPUT_BUF_lt).mpr he)
  obtain ⟨b, xs', rfl⟩ := List.exists_cons_of_ne_nil hxs
  obtain ⟨hb, hw⟩ := h.window.pop INPUT_BUF_dvd
  refine ⟨xs', hw, ?_, ?_, fun z hz => ?_⟩
  · show d.w = d.r + 1 + UInt32.ofNat xs'.length
    rw [h.write, List.length_cons, Ring.add_one_add_ofNat]
  · show d.committed = (d.taken ++ [(p, x)]).map (fun x => byte x.2) ++ xs'
    rw [h.books, List.map_append, List.append_assoc]
    simp [hx, hb]
  · rcases List.mem_append.mp hz with hz | hz
    · exact h.data z hz
    · rw [List.mem_singleton.mp hz]
      exact hdata

end Lines

/-! ## The code -/

/-- What the process has taken as data. -/
def Input.takenBy (d : Input P) (p : P) : List UInt8 :=
  d.taken.filterMap fun x => if x.1 = p then x.2 else none

theorem takenBy_take (d : Input P) (p : P) (x : Option UInt8) :
    (d.take p x).takenBy p = d.takenBy p ++ x.toList := by
  simp only [Input.takenBy, Input.take, List.filterMap_append]
  cases x <;> simp

variable {p : P} {d d' : Input P} {k' k : Code}

theorem takenBy_take_of_ne (d : Input P) {q : P} (x : Option UInt8) (h : q ≠ p) :
    (d.take p x).takenBy q = d.takenBy q := by
  simp [Input.takenBy, Input.take, List.filterMap_append, h.symm]

/-- The bytes that a call of `consoleread` has stored in `dst`. -/
def Code.got : Code → List UInt8
  | .read _ got | .readSleep _ got | .readRet got => got
  | _ => []

/-- A call stores what its process takes. -/
def Stores (p : P) (k : Code) (d : Input P) : Prop := k.got <:+ d.takenBy p

/-- The same of a process that waits or sleeps. -/
def Expects (p : P) (o : Option Code) (d : Input P) : Prop :=
  (o.elim [] Code.got) <:+ d.takenBy p

/-- What a step does inside. -/
structure Goes (p : P) (d : Input P) (k' : Code) (d' : Input P) : Prop where
  lines : (∃ xs ys, d.Lines xs ys) → ∃ xs ys, d'.Lines xs ys
  stores : Stores p k' d'
  others : ∀ q, q ≠ p → d'.takenBy q = d.takenBy q

theorem key_goto {c : UInt8} {keys : List UInt8} (p : P)
    (ha : key c keys d = .goto k' d') : Goes p d k' d' := by
  simp only [key] at ha
  by_cases hroom : c ≠ 0 ∧ (d.e - d.r).toNat < INPUT_BUF
  · rw [if_pos hroom] at ha
    generalize (if c = carriageReturn then newline else c) = c' at ha
    split_ifs at ha
    · cases ha
      refine ⟨fun ⟨xs, ys, h⟩ => ?_, List.nil_suffix, fun _ _ => rfl⟩
      exact ⟨_, _, (h.insert hroom.2 c').commit⟩
    · cases ha
      refine ⟨fun ⟨xs, ys, h⟩ => ?_, List.nil_suffix, fun _ _ => rfl⟩
      exact ⟨_, _, h.insert hroom.2 c'⟩
  · rw [if_neg hroom] at ha
    cases ha
    exact ⟨id, List.nil_suffix, fun _ _ => rfl⟩

theorem goes {b : Bool} (hA : Stores p k d) (ha : act p k b d = .goto k' d') : Goes p d k' d' := by
  cases k with
  | intr keys =>
    cases keys with
    | nil => cases ha
    | cons c keys =>
      simp only [act] at ha
      split_ifs at ha with hP hU hH he
      · cases ha
        exact ⟨id, List.nil_suffix, fun _ _ => rfl⟩
      · cases ha
        exact ⟨id, List.nil_suffix, fun _ _ => rfl⟩
      · cases ha
        refine ⟨fun ⟨xs, ys, h⟩ => ?_, List.nil_suffix, fun _ _ => rfl⟩
        exact ⟨xs, h.erase he⟩
      · cases ha
        exact ⟨id, List.nil_suffix, fun _ _ => rfl⟩
      · exact key_goto p ha
  | killLine keys =>
    simp only [act] at ha
    split_ifs at ha with he
    · cases ha
      refine ⟨fun ⟨xs, ys, h⟩ => ?_, List.nil_suffix, fun _ _ => rfl⟩
      exact ⟨xs, h.erase he.1⟩
    · cases ha
      exact ⟨id, List.nil_suffix, fun _ _ => rfl⟩
  | read n got =>
    have hgot : got <:+ d.takenBy p := hA
    simp only [act] at ha
    split_ifs at ha with hn hr hk hD hg hnl
    · cases ha
      exact ⟨id, hgot, fun _ _ => rfl⟩
    · cases ha
      exact ⟨id, hgot, fun _ _ => rfl⟩
    · cases ha
      refine ⟨fun ⟨xs, ys, h⟩ => ?_, ?_, fun q hq => takenBy_take_of_ne d none hq⟩
      · obtain ⟨xs', h'⟩ := h.take hr p none hD.symm nofun
        exact ⟨xs', ys, h'⟩
      · show got <:+ _
        rw [takenBy_take, Option.toList_none, List.append_nil]
        exact hgot
    -- a character is taken, and the line ends with it or not
    iterate 2
      · cases ha
        refine ⟨fun ⟨xs, ys, h⟩ => ?_, ?_, fun q hq => takenBy_take_of_ne d _ hq⟩
        · obtain ⟨xs', h'⟩ := h.take hr p (some _) rfl (by simpa using hD)
          exact ⟨xs', ys, h'⟩
        · show got ++ [_] <:+ _
          obtain ⟨old, hold⟩ := hgot
          rw [takenBy_take, ← hold, List.append_assoc]
          exact List.suffix_append old _
    · cases ha
      exact ⟨id, hgot, fun _ _ => rfl⟩
  | _ => cases ha

omit [DecidableEq P] in
theorem key_eq_goto (c : UInt8) (keys : List UInt8) (d : Input P) :
    ∃ k' d', key c keys d = .goto k' d' := by
  simp only [key]
  generalize (if c = carriageReturn then newline else c) = c'
  split_ifs
  · exact ⟨_, _, rfl⟩
  · exact ⟨_, _, rfl⟩
  · exact ⟨_, _, rfl⟩

omit [DecidableEq P] in
/-- All that is not a `goto`. -/
theorem act_cases (p : P) (k : Code) (b : Bool) (d : Input P) :
    (∃ k' d', act p k b d = .goto k' d') ∨
      (∃ keys, k = .intrWake keys ∧ act p k b d = .wake () (.intr keys)) ∨
      (∃ n got, k = .readSleep n got ∧ act p k b d = .sleep () (.read n got)) ∨
      ∃ r, act p k b d = .ret r d := by
  cases k with
  | intr keys =>
    cases keys with
    | nil => exact .inr (.inr (.inr ⟨0, rfl⟩))
    | cons c keys =>
      refine .inl ?_
      simp only [act]
      split_ifs
      · exact ⟨_, _, rfl⟩
      · exact ⟨_, _, rfl⟩
      · exact ⟨_, _, rfl⟩
      · exact ⟨_, _, rfl⟩
      · exact key_eq_goto c keys d
  | killLine keys =>
    refine .inl ?_
    simp only [act]
    split_ifs
    · exact ⟨_, _, rfl⟩
    · exact ⟨_, _, rfl⟩
  | intrWake keys => exact .inr (.inl ⟨keys, rfl, rfl⟩)
  | read n got =>
    simp only [act]
    split_ifs
    · exact .inr (.inr (.inr ⟨-1, rfl⟩))
    · exact .inl ⟨_, _, rfl⟩
    · exact .inl ⟨_, _, rfl⟩
    · exact .inl ⟨_, _, rfl⟩
    · exact .inl ⟨_, _, rfl⟩
    · exact .inl ⟨_, _, rfl⟩
    · exact .inl ⟨_, _, rfl⟩
  | readSleep n got => exact .inr (.inr (.inl ⟨n, got, rfl, rfl⟩))
  | readRet got => exact .inr (.inr (.inr ⟨_, rfl⟩))

/-- **The code of the console keeps the lines**, and each call stores what its process takes. -/
theorem outline :
    Outline (code (P := P)) (fun d => ∃ xs ys, d.Lines xs ys) (fun _ => True) Stores Expects where
  start := by
    intro p l d o d' hd _ h
    cases l with
    | intr keys =>
      cases h
      exact ⟨hd, id, List.nil_suffix, fun _ _ => ⟨fun _ => id, fun _ => id⟩⟩
    | read n =>
      cases h
      exact ⟨hd, id, List.nil_suffix, fun _ _ => ⟨fun _ => id, fun _ => id⟩⟩
  env := nofun
  enter := fun _ _ => id
  goto := by
    intro p k b d k' d' hd hA ha
    have hg := goes hA ha
    refine ⟨hg.lines hd, hg.stores, fun q hq o hE => ?_⟩
    rw [Expects, hg.others q hq]
    exact hE
  wake := by
    intro p k b d c k' _ hA ha
    obtain ⟨_, _, h⟩ | ⟨keys, rfl, h⟩ | ⟨n, got, -, h⟩ | ⟨r, h⟩ := act_cases p k b d <;>
      cases h.symm.trans ha
    exact List.nil_suffix
  sleep := by
    intro p k b d c k' _ hA ha
    obtain ⟨_, _, h⟩ | ⟨keys, -, h⟩ | ⟨n, got, rfl, h⟩ | ⟨r, h⟩ := act_cases p k b d <;>
      cases h.symm.trans ha
    exact ⟨trivial, hA⟩
  ret := by
    intro p k b d r d' hd hA ha
    obtain ⟨_, _, h⟩ | ⟨keys, -, h⟩ | ⟨n, got, -, h⟩ | ⟨r, h⟩ := act_cases p k b d <;>
      cases h.symm.trans ha
    exact ⟨hd, trivial, List.nil_suffix, fun _ _ _ => id⟩

theorem holds_boot (c : UInt32) :
    Holds (fun d : Input P => ∃ xs ys, d.Lines xs ys) (fun _ => True) Stores Expects (boot c) := by
  refine LockedCode.holds_of_idle (fun _ => rfl) ?_ trivial fun p => List.nil_suffix
  exact ⟨[], [], Ring.window_nil, (UInt32.add_zero c).symm, rfl, nofun⟩

/-! ## The line discipline -/

/-- The process handles a key that edits the line. -/
def Code.editing : Code → Bool
  | .intr (c :: _) => c = ctrlU ∨ c = ctrlH ∨ c = delete
  | .killLine _ => true
  | _ => false

omit [DecidableEq P] in
/-- Editing moves only the edit index. -/
theorem editing_goto {b : Bool} (hk : k.editing = true)
    (ha : act p k b d = .goto k' d') : d' = d ∨ d' = { d with e := d.e - 1 } := by
  cases k with
  | intr keys =>
    cases keys with
    | nil => cases ha
    | cons c keys =>
      have hc : c = ctrlU ∨ c = ctrlH ∨ c = delete := of_decide_eq_true hk
      simp only [act] at ha
      split_ifs at ha with hP hU hH he
      · cases ha
        exact .inl rfl
      · cases ha
        exact .inl rfl
      · cases ha
        exact .inr rfl
      · cases ha
        exact .inl rfl
      · exact absurd hc (not_or.mpr ⟨hU, hH⟩)
  | killLine keys =>
    simp only [act] at ha
    split_ifs at ha
    · cases ha
      exact .inr rfl
    · cases ha
      exact .inl rfl
  | _ => cases hk

theorem editing_step {s s' : State P Code Unit (Input P)}
    (hp : s.place p = .inside k) (hk : k.editing = true)
    (hs : consoleStep (.step p) s = some s') :
    s'.data = s.data ∨ s'.data = { s.data with e := s.data.e - 1 } := by
  cases LockedCode.Code.step_some hs with
  | @goto _ j k' d hj ha =>
    cases hp.symm.trans hj
    exact editing_goto hk ha
  | wake hj ha => exact .inl rfl
  | sleep hj ha => exact .inl rfl
  | @ret _ j r d hj ha =>
    obtain ⟨_, _, h⟩ | ⟨keys, -, h⟩ | ⟨n, got, -, h⟩ | ⟨r, h⟩ :=
      act_cases p j (s.killed p) s.data <;>
      cases h.symm.trans ha
    exact .inl rfl

/-- **The line discipline of the console.**  In every state the indices are in order; editing keys
leave the committed bytes alone; and the bytes that readers have taken, with those that are still
to be read, are the committed ones.  A `C('D')` is never data, and what a call returns is what its
process took last. -/
theorem line_discipline {c : UInt32} {s : State P Code Unit (Input P)}
    (h : Reachable consoleStep (boot c) s) :
    ((s.data.w - s.data.r).toNat ≤ (s.data.e - s.data.r).toNat ∧
        (s.data.e - s.data.r).toNat ≤ INPUT_BUF) ∧
      (∀ p k s', s.place p = .inside k → k.editing = true →
        consoleStep (.step p) s = some s' →
        s'.data.r = s.data.r ∧ s'.data.w = s.data.w ∧
          Ring.contents INPUT_BUF s'.data.buf s'.data.r s'.data.w =
            Ring.contents INPUT_BUF s.data.buf s.data.r s.data.w) ∧
      s.data.committed = s.data.taken.map (fun x => byte x.2) ++
        Ring.contents INPUT_BUF s.data.buf s.data.r s.data.w ∧
      (∀ x ∈ s.data.taken, x.2 ≠ some ctrlD) ∧
      ∀ p got, s.place p = .inside (.readRet got) → got <:+ s.data.takenBy p := by
  have hs := h.invariant (holds_boot c) fun _ _ _ hs hstep =>
    outline.step hs (LockedCode.Code.step_some hstep)
  obtain ⟨xs, ys, hl⟩ := hs.steady
  refine ⟨?_, fun p k s' hp hk hstep => ?_, ?_, hl.data, fun p got hp => hs.asserts hp⟩
  · have hlen := hl.window.length_le
    rw [hl.window.toNat_sub INPUT_BUF_lt, hl.committed.toNat_sub INPUT_BUF_lt]
    rw [List.length_append] at hlen ⊢
    exact ⟨Nat.le_add_right _ _, hlen⟩
  · obtain he | he := editing_step hp hk hstep
    · rw [he]
      exact ⟨rfl, rfl, rfl⟩
    · rw [he]
      exact ⟨rfl, rfl, rfl⟩
  · rw [hl.committed.contents_eq INPUT_BUF_lt]
    exact hl.books

/-- `ab`, backspace, `c` and a newline are typed, and read, over the end of the indices. -/
def typeAndRead : List (Label Bool Call Empty) :=
  [.call false (.intr [97, 98, ctrlH, 99, carriageReturn]), .enter false] ++
    List.replicate 7 (.step false) ++ [.call true (.read 100), .enter true] ++
    List.replicate 4 (.step true)

theorem line_discipline_typed :
    ∃ s, exec consoleStep typeAndRead (boot 0xffffffff) = some s ∧
      (s.data.r = 2 ∧ s.data.taken = [(true, some 97), (true, some 99), (true, some newline)]) ∧
      s.data.committed = s.data.taken.map (fun x => byte x.2) ++
        Ring.contents INPUT_BUF s.data.buf s.data.r s.data.w := by
  have hrun : ∃ s, exec consoleStep typeAndRead (boot 0xffffffff) = some s ∧
      (s.data.r = 2 ∧
        s.data.taken = [(true, some 97), (true, some 99), (true, some newline)]) :=
    Transition.exists_exec _ _ (by decide +kernel)
  obtain ⟨s, hs, hp⟩ := hrun
  exact ⟨s, hs, hp, (line_discipline ⟨typeAndRead, hs⟩).2.2.1⟩

end Xv6Mlfq.Console
