import Xv6Mlfq.Grep.Match
import Xv6Mlfq.Lib.Lines
import Xv6Mlfq.Lib.Wp
import Xv6Mlfq.Libc.Memmove

/-!
# `grep` and the parts its input arrives in

`grep.c`: the loop that fills `buf`, the loop over the lines in it, and the move of what is left to
its start.  Memory is the array `buf`, with the offsets as addresses, and a file is the list of the
parts that the reads will find; a read takes what is there, up to the number of bytes asked for.

When the buffer holds no newline, `grep` takes its contents for a line that is too long, and drops
them.  After a short read this is the first part of a line.

## Main definitions

* `grep` — as in the source.
* `Answers` — the parts are those that the reads return.
* `kept`, `handled` — what stays in the buffer, and the lines that are looked at.
* `Whole` — every part before the last newline has one.

## Main results

* `grepLoop_eq` — a run of `grep` looks at the lines in `handled`.
* `handled_of_whole`, `length_handled_lt` — the lines looked at are those of the stream, or
  something is missing.
* `grep_exact_iff` — the output is the right one for every pattern if and only if the parts are
  `Whole`.
-/

namespace Xv6Mlfq.Grep

open Function (update update_self update_of_ne)
open Region (load store)
open Lines (closed rest)
open Wp (Prog look)

/-- `sizeof(buf)` -/
abbrev SIZE : ℕ := 1024

abbrev NUL : Char := '\x00'

/-- The array `buf`, what is to be read, and what has been written. -/
structure Io where
  mem : ℕ → Char
  input : List (List Char)
  out : List Char

/-- No fuel is left. -/
inductive Fault
  | fuel

abbrev M (α : Type) := Prog Io Fault α

/-- `*p = c` -/
def poke (p : ℕ) (c : Char) : M Unit := modify fun s => { s with mem := update s.mem p c }

/-- `read(fd, p, n)` -/
def read (p n : ℕ) : M ℕ := fun s =>
  match s.input with
  | [] => .ok (0, s)
  | c :: cs =>
    .ok ((c.take n).length, { s with
      mem := store s.mem p (c.take n)
      input := if n < c.length then c.drop n :: cs else cs })

/-- `write(1, p, n)` -/
def write (p n : ℕ) : M Unit := modify fun s => { s with out := s.out ++ load s.mem p n }

/-- `strchr(p, c)` of `ulib.c` -/
def strchr (c : Char) : ℕ → ℕ → M (Option ℕ)
  | 0, _ => throw .fuel
  | n + 1, p => do
      let x ← look fun s => s.mem p
      if x = NUL then pure none
      else if x = c then pure (some p)
      else strchr c n (p + 1)

/-- The string at `p`, which `match` looks at -/
def stringAt : ℕ → ℕ → M (List Char)
  | 0, _ => throw .fuel
  | n + 1, p => do
      let x ← look fun s => s.mem p
      if x = NUL then pure []
      else
        let t ← stringAt n (p + 1)
        pure (x :: t)

/-- What the inner loop does with the line from `p` to `q`. -/
def oneLine (pattern : List Char) (p q : ℕ) : M Unit := do
  poke q NUL
  let text ← stringAt SIZE p
  if matchRe pattern text then
    poke q '\n'
    write p (q + 1 - p)
  else pure ()

/-- The inner loop; the last value of `p` -/
def eachLine (pattern : List Char) : ℕ → ℕ → M ℕ
  | 0, _ => throw .fuel
  | n + 1, p => do
      match ← strchr '\n' SIZE p with
      | none => pure p
      | some q => do
          oneLine pattern p q
          eachLine pattern n (q + 1)

/-- `memmove(buf, p, n)` -/
def moveToStart (p n : ℕ) : M Unit :=
  modify fun s => { s with mem := Libc.Ulib.memmove 0 p n s.mem }

/-- The end of the outer loop: the new value of `m` -/
def keepRest (m p : ℕ) : M ℕ :=
  let m := if p = 0 then 0 else m
  if 0 < m then do
    moveToStart p (m - p)
    pure (m - p)
  else pure m

/-- The outer loop -/
def grepLoop (pattern : List Char) : ℕ → ℕ → M Unit
  | 0, _ => throw .fuel
  | fuel + 1, m => do
      let n ← read m (SIZE - m - 1)
      if n = 0 then pure ()
      else
        poke (m + n) NUL
        let p ← eachLine pattern SIZE 0
        let m ← keepRest (m + n) p
        grepLoop pattern fuel m

def grep (pattern : List Char) (fuel : ℕ) : M Unit := grepLoop pattern fuel 0

/-! ## Strings in the buffer -/

/-- The string `t` is at `p`. -/
structure StringAt (mem : ℕ → Char) (p : ℕ) (t : List Char) : Prop where
  text : load mem p t.length = t
  ends : mem (p + t.length) = NUL
  noNul : NUL ∉ t

variable {mem : ℕ → Char} {s : Io} {p n : ℕ} {l r t pattern : List Char} {c : Char}

theorem stringAt_cons : StringAt mem p (c :: t) ↔ mem p = c ∧ c ≠ NUL ∧ StringAt mem (p + 1) t := by
  have hone : load mem p [c].length = [c] ↔ mem p = c := by simp [load]
  have hsplit : load mem p ([c] ++ t).length = [c] ++ t ↔ _ := Region.load_split
  rw [hone] at hsplit
  have hend : p + (c :: t).length = p + 1 + t.length := by
    rw [List.length_cons]
    omega
  constructor
  · rintro ⟨htext, hends, hno⟩
    obtain ⟨hc, ht⟩ := hsplit.mp htext
    rw [List.mem_cons, not_or] at hno
    exact ⟨hc, Ne.symm hno.1, ht, hend ▸ hends, hno.2⟩
  · rintro ⟨hc, hne, ht, hends, hno⟩
    refine ⟨hsplit.mpr ⟨hc, ht⟩, hend ▸ hends, ?_⟩
    rw [List.mem_cons, not_or]
    exact ⟨Ne.symm hne, hno⟩

theorem StringAt.drop (h : StringAt mem p (l ++ r)) : StringAt mem (p + l.length) r := by
  induction l generalizing p with
  | nil => exact h
  | cons c l ih =>
    have hrest := ih (stringAt_cons.mp h).2.2
    rwa [List.length_cons, Nat.add_comm l.length, ← Nat.add_assoc]

/-- A string is as long as the memory from its start to its end stays. -/
theorem StringAt.congr {mem' : ℕ → Char} (h : StringAt mem p t)
    (hsame : ∀ i, p ≤ i → i ≤ p + t.length → mem' i = mem i) : StringAt mem' p t where
  text := by
    rw [← h.text, Region.length_load]
    exact Region.load_congr fun i hi => hsame _ (by omega) (by omega)
  ends := by rw [hsame _ (by omega) le_rfl, h.ends]
  noNul := h.noNul

/-- A NUL in place of a character ends the string there. -/
theorem StringAt.cut (h : StringAt mem p (l ++ c :: r)) :
    StringAt (update mem (p + l.length) NUL) p l where
  text := by
    have hl := (Region.load_split.mp h.text).1
    rw [← hl, Region.length_load]
    exact Region.load_congr fun i hi => update_of_ne (by omega) _ _
  ends := update_self _ _ _
  noNul := fun hmem => h.noNul (List.mem_append_left _ hmem)

theorem strchr_succ : strchr c (n + 1) p s =
    if s.mem p = NUL then .ok (none, s)
    else if s.mem p = c then .ok (some p, s)
    else strchr c n (p + 1) s := by
  change (if s.mem p = NUL then pure none else if s.mem p = c then pure (some p)
    else strchr c n (p + 1) : M (Option ℕ)) s = _
  split_ifs <;> rfl

theorem strchr_none (h : StringAt s.mem p t) (hc : c ∉ t) (hn : t.length < n) :
    strchr c n p s = .ok (none, s) := by
  induction t generalizing p n with
  | nil =>
    obtain ⟨n, rfl⟩ : ∃ k, n = k + 1 := ⟨n - 1, by omega⟩
    rw [strchr_succ, if_pos (show s.mem p = NUL from h.ends)]
  | cons x t ih =>
    rw [List.length_cons] at hn
    obtain ⟨n, rfl⟩ : ∃ k, n = k + 1 := ⟨n - 1, by omega⟩
    obtain ⟨hx, hne, ht⟩ := stringAt_cons.mp h
    rw [List.mem_cons, not_or] at hc
    rw [strchr_succ, hx, if_neg hne, if_neg (Ne.symm hc.1), ih ht hc.2 (by omega)]

theorem strchr_some (h : StringAt s.mem p (l ++ c :: r)) (hl : c ∉ l) (hn : l.length < n) :
    strchr c n p s = .ok (some (p + l.length), s) := by
  induction l generalizing p n with
  | nil =>
    obtain ⟨n, rfl⟩ : ∃ k, n = k + 1 := ⟨n - 1, by omega⟩
    obtain ⟨hx, hne, -⟩ := stringAt_cons.mp h
    rw [strchr_succ, hx, if_neg hne, if_pos rfl]
    rfl
  | cons x l ih =>
    rw [List.length_cons] at hn
    obtain ⟨n, rfl⟩ : ∃ k, n = k + 1 := ⟨n - 1, by omega⟩
    obtain ⟨hx, hne, ht⟩ := stringAt_cons.mp h
    rw [List.mem_cons, not_or] at hl
    rw [strchr_succ, hx, if_neg hne, if_neg (Ne.symm hl.1), ih ht hl.2 (by omega),
      List.length_cons, Nat.add_assoc, Nat.add_comm 1]

theorem stringAt_eq (h : StringAt s.mem p t) (hn : t.length < n) :
    stringAt n p s = .ok (t, s) := by
  have hround : ∀ n p, stringAt (n + 1) p s =
      if s.mem p = NUL then .ok ([], s)
      else (stringAt n (p + 1) s).map fun x => (s.mem p :: x.1, x.2) := by
    intro n p
    change (if s.mem p = NUL then pure [] else do
      let t ← stringAt n (p + 1)
      pure (s.mem p :: t) : M (List Char)) s = _
    split_ifs with h0
    · rfl
    · change (stringAt n (p + 1) s).bind _ = _
      cases stringAt n (p + 1) s <;> rfl
  induction t generalizing p n with
  | nil =>
    obtain ⟨n, rfl⟩ : ∃ k, n = k + 1 := ⟨n - 1, by omega⟩
    rw [hround, if_pos (show s.mem p = NUL from h.ends)]
  | cons x t ih =>
    rw [List.length_cons] at hn
    obtain ⟨n, rfl⟩ : ∃ k, n = k + 1 := ⟨n - 1, by omega⟩
    obtain ⟨hx, hne, ht⟩ := stringAt_cons.mp h
    rw [hround, hx, if_neg hne, ih ht (by omega)]
    rfl

/-! ## The lines in the buffer -/

/-- What is written for these lines -/
def report (pattern : List Char) (ls : List (List Char)) : List Char :=
  (ls.filter (matchRe pattern)).flatMap (· ++ ['\n'])

theorem report_append (ls ls' : List (List Char)) :
    report pattern (ls ++ ls') = report pattern ls ++ report pattern ls' := by
  rw [report, List.filter_append, List.flatMap_append]
  rfl

/-- One line is looked at, and the rest of the buffer stays. -/
theorem oneLine_eq (h : StringAt s.mem p (l ++ '\n' :: r)) (hl : l.length < SIZE) :
    ∃ mem', oneLine pattern p (p + l.length) s =
      .ok ((), ⟨mem', s.input, s.out ++ report pattern [l]⟩) ∧
      StringAt mem' (p + l.length + 1) r := by
  have hrest : StringAt s.mem (p + l.length + 1) r := (stringAt_cons.mp h.drop).2.2
  have hafter : ∀ mem', (∀ i, i ≠ p + l.length → mem' i = s.mem i) →
      StringAt mem' (p + l.length + 1) r := fun mem' hmem => hrest.congr fun i hi _ =>
      hmem i (by omega)
  have htext : stringAt SIZE p { s with mem := update s.mem (p + l.length) NUL } = .ok (l, _) :=
    stringAt_eq h.cut hl
  have hrun : oneLine pattern p (p + l.length) s =
      (if matchRe pattern l then do
        poke (p + l.length) '\n'
        write p (p + l.length + 1 - p)
      else pure () : M Unit) { s with mem := update s.mem (p + l.length) NUL } := by
    change (stringAt SIZE p { s with mem := update s.mem (p + l.length) NUL }).bind _ = _
    rw [htext]
    rfl
  rw [hrun]
  by_cases hm : matchRe pattern l = true
  · -- the newline is put back, and the line is written with it
    have hnl : s.mem (p + l.length) = '\n' := (stringAt_cons.mp h.drop).1
    have hback : update (update s.mem (p + l.length) NUL) (p + l.length) '\n' = s.mem := by
      rw [Function.update_idem, ← hnl, Function.update_eq_self]
    have hload : load s.mem p (p + l.length + 1 - p) = l ++ ['\n'] := by
      have hcons : l ++ '\n' :: r = l ++ ['\n'] ++ r := by simp
      have hlen : p + l.length + 1 - p = (l ++ ['\n']).length := by
        rw [List.length_append, List.length_singleton]
        omega
      rw [hlen]
      exact (Region.load_split.mp (hcons ▸ h.text)).1
    have hone : report pattern [l] = l ++ ['\n'] := by simp [report, hm]
    refine ⟨s.mem, ?_, hrest⟩
    rw [if_pos hm]
    change (Except.ok ((), (⟨update (update s.mem (p + l.length) NUL) (p + l.length) '\n', s.input,
      s.out ++ load (update (update s.mem (p + l.length) NUL) (p + l.length) '\n') p
        (p + l.length + 1 - p)⟩ : Io)) : Except Fault (Unit × Io)) = _
    rw [hback, hload, hone]
  · have hnone : report pattern [l] = [] := by simp [report, hm]
    rw [if_neg hm, hnone, List.append_nil]
    exact ⟨_, rfl, hafter _ fun i hi => update_of_ne hi _ _⟩

/-- **The loop over the lines.**  By induction on them: those that have ended are looked at in turn,
and the rest of the buffer stays, with `p` at its start. -/
theorem eachLine_eq (h : StringAt s.mem p t) (hp : p + t.length < SIZE) (hn : t.length < n) :
    ∃ mem', eachLine pattern n p s = .ok (p + t.length - (rest '\n' t).length,
        ⟨mem', s.input, s.out ++ report pattern (closed '\n' t)⟩) ∧
      StringAt mem' (p + t.length - (rest '\n' t).length) (rest '\n' t) := by
  have hround : ∀ n p (s : Io), eachLine pattern (n + 1) p s =
      (strchr '\n' SIZE p s).bind fun x => (match x.1 with
        | none => pure p
        | some q => do
            oneLine pattern p q
            eachLine pattern n (q + 1) : M ℕ) x.2 := fun _ _ _ => rfl
  obtain ⟨n, rfl⟩ : ∃ k, n = k + 1 := ⟨n - 1, by omega⟩
  induction t using Lines.lines_induction (z := '\n') generalizing p n s with
  | hrest t hno =>
    rw [hround, strchr_none h hno (by omega), Lines.rest_of_notMem hno, Lines.closed_of_notMem hno,
      Nat.add_sub_cancel]
    exact ⟨s.mem, by simp [report]; rfl, h⟩
  | hline l r hl ih =>
    rw [List.length_append, List.length_cons] at hp hn
    obtain ⟨mem₁, hone, hr⟩ : ∃ mem₁, oneLine pattern p (p + l.length) s = _ ∧ _ :=
      oneLine_eq h (by omega)
    obtain ⟨n, rfl⟩ : ∃ k, n = k + 1 := ⟨n - 1, by omega⟩
    obtain ⟨mem₂, hrun, hend⟩ := ih (s := ⟨mem₁, s.input, s.out ++ report pattern [l]⟩) hr
      (by omega) n (by omega)
    have hp' : p + (l ++ '\n' :: r).length = p + l.length + 1 + r.length := by
      rw [List.length_append, List.length_cons]
      omega
    have hreport : s.out ++ report pattern (l :: closed '\n' r) =
        s.out ++ report pattern [l] ++ report pattern (closed '\n' r) := by
      rw [List.append_assoc, ← report_append]
      rfl
    rw [hround, strchr_some h hl (by omega), hp', Lines.rest_line hl, Lines.closed_line hl, hreport]
    refine ⟨mem₂, ?_, hend⟩
    change (oneLine pattern p (p + l.length) s).bind _ = _
    rw [hone]
    exact hrun

/-! ## From one read to the next -/

/-- What stays in the buffer -/
def kept (t : List Char) : List Char := if '\n' ∈ t then rest '\n' t else []

/-- The lines that are looked at, with `b` in the buffer and these parts to come -/
def handled : List Char → List (List Char) → List (List Char)
  | _, [] => []
  | b, c :: cs => closed '\n' (b ++ c) ++ handled (kept (b ++ c)) cs

/-- With `b` in the buffer, these are answers to the reads: not empty, and no longer than asked
for. -/
def Answers : List Char → List (List Char) → Prop
  | _, [] => True
  | b, c :: cs => c ≠ [] ∧ c.length ≤ SIZE - b.length - 1 ∧ Answers (kept (b ++ c)) cs

instance decidableAnswers : ∀ b cs, Decidable (Answers b cs)
  | _, [] => inferInstanceAs (Decidable True)
  | b, c :: cs =>
    have : Decidable (Answers (kept (b ++ c)) cs) := decidableAnswers _ cs
    inferInstanceAs (Decidable (c ≠ [] ∧ c.length ≤ SIZE - b.length - 1 ∧
    Answers (kept (b ++ c)) cs))

variable {b : List Char} {cs : List (List Char)} {fuel : ℕ}

theorem kept_subset (t : List Char) : kept t ⊆ t := by
  rw [kept]
  split_ifs
  · exact (Lines.rest_suffix t).subset
  · exact List.nil_subset t

theorem keepRest_eq (h : StringAt s.mem (t.length - (rest '\n' t).length) (rest '\n' t))
    (ht : t.length < SIZE) :
    ∃ mem', keepRest t.length (t.length - (rest '\n' t).length) s =
        .ok ((kept t).length, ⟨mem', s.input, s.out⟩) ∧
      load mem' 0 (kept t).length = kept t := by
  by_cases hz : '\n' ∈ t
  · have hlt : (rest '\n' t).length < t.length := Lines.length_rest_lt hz
    have hp : ¬ t.length - (rest '\n' t).length = 0 := by omega
    have hpos : 0 < t.length := by omega
    have hlen : t.length - (t.length - (rest '\n' t).length) = (rest '\n' t).length := by omega
    have hsize : t.length < 1024 := ht
    have hmoved : Region.Moved s.mem (Libc.Ulib.memmove 0 (t.length - (rest '\n' t).length)
        (rest '\n' t).length s.mem) 0 (t.length - (rest '\n' t).length) (rest '\n' t).length :=
      (Libc.Ulib.moved_memmove_iff (by omega) (by omega)).mpr fun hd => absurd hd
        (Nat.not_lt_zero _)
    simp only [kept, keepRest, if_pos hz, if_neg hp, if_pos hpos, hlen]
    refine ⟨_, rfl, ?_⟩
    rw [hmoved.load_eq, h.text]
  · have hrest : rest '\n' t = t := Lines.rest_of_notMem hz
    simp only [kept, keepRest, if_neg hz, hrest, Nat.sub_self, if_true, Nat.lt_irrefl, if_false]
    exact ⟨s.mem, rfl, rfl⟩

/-- What is read goes behind what the buffer has. -/
theorem stringAt_read {m : ℕ → Char} (hb : load m 0 b.length = b) (h0 : NUL ∉ b ++ t) :
    StringAt (update (store m b.length t) (b.length + t.length) NUL) 0 (b ++ t) where
  text := by
    apply Region.load_split.mpr
    rw [Nat.zero_add]
    constructor
    · rw [Region.load_congr (m := m), hb]
      intro i hi
      rw [update_of_ne (by omega), Region.store_outside (by omega)]
    · rw [Region.load_congr (m := store m b.length t), Region.load_store]
      intro i hi
      exact update_of_ne (by omega) _ _
  ends := by
    rw [List.length_append, Nat.zero_add]
    exact update_self _ _ _
  noNul := h0

theorem grepLoop_eq {m : ℕ → Char} {out : List Char} (hb : load m 0 b.length = b) (h0 : NUL ∉ b)
    (hcs : ∀ c ∈ cs, NUL ∉ c) (hans : Answers b cs) (hf : cs.length < fuel) :
    ∃ s', grepLoop pattern fuel b.length ⟨m, cs, out⟩ = .ok ((), s') ∧
      s'.out = out ++ report pattern (handled b cs) := by
  have hround : ∀ fuel k (s : Io), grepLoop pattern (fuel + 1) k s =
      (read k (SIZE - k - 1) s).bind fun x => (if x.1 = 0 then pure () else do
        poke (k + x.1) NUL
        let p ← eachLine pattern SIZE 0
        let m ← keepRest (k + x.1) p
        grepLoop pattern fuel m : M Unit) x.2 := fun _ _ _ => rfl
  obtain ⟨fuel, rfl⟩ : ∃ k, fuel = k + 1 := ⟨fuel - 1, by omega⟩
  induction cs generalizing b m out fuel with
  | nil => exact ⟨_, rfl, by simp [handled, report]⟩
  | cons c cs ih =>
    obtain ⟨hne, hlen, hans⟩ := hans
    have hc : 0 < c.length := List.length_pos_of_ne_nil hne
    have hbc : (b ++ c).length = b.length + c.length := List.length_append
    have hroom : (b ++ c).length < SIZE := by omega
    have hnul : NUL ∉ b ++ c := List.not_mem_append h0 (hcs c List.mem_cons_self)
    rw [List.length_cons] at hf
    obtain ⟨fuel, rfl⟩ : ∃ k, fuel = k + 1 := ⟨fuel - 1, by omega⟩
    have hread : read b.length (SIZE - b.length - 1) ⟨m, c :: cs, out⟩ =
        .ok (c.length, ⟨store m b.length c, cs, out⟩) := by
      simp only [read, List.take_of_length_le hlen, if_neg (Nat.not_lt.mpr hlen)]
    have hfill := stringAt_read hb hnul
    obtain ⟨mem₁, hlines, hrest⟩ : ∃ mem₁, eachLine pattern SIZE 0
        ⟨update (store m b.length c) (b.length + c.length) NUL, cs, out⟩ = _ ∧ _ :=
      eachLine_eq hfill (by omega) hroom
    rw [Nat.zero_add] at hlines hrest
    obtain ⟨mem₂, hkeep, hstart⟩ := keepRest_eq
      (s := ⟨mem₁, cs, out ++ report pattern (closed '\n' (b ++ c))⟩) hrest hroom
    obtain ⟨s', hrun, hout⟩ := ih hstart (fun h => hnul (kept_subset _ h))
      (fun d hd => hcs d (List.mem_cons_of_mem c hd)) hans fuel (by omega)
    refine ⟨s', ?_, ?_⟩
    · rw [hround, hread]
      simp only [Except.bind]
      rw [if_neg hc.ne']
      change (eachLine pattern SIZE 0 _).bind _ = _
      rw [hlines]
      change (keepRest (b.length + c.length) _ _).bind _ = _
      rw [← hbc, hkeep]
      exact hrun
    · rw [hout, handled, report_append, List.append_assoc]

/-! ## The lines of the stream -/

/-- Every part that comes before one with a newline has a newline. -/
def Whole (cs : List (List Char)) : Prop := cs.Pairwise fun c d => '\n' ∈ d → '\n' ∈ c

instance : DecidablePred Whole := fun cs =>
  inferInstanceAs (Decidable (cs.Pairwise fun c d => '\n' ∈ d → '\n' ∈ c))

theorem whole_cons {c : List Char} :
    Whole (c :: cs) ↔ ('\n' ∈ cs.flatten → '\n' ∈ c) ∧ Whole cs := by
  rw [Whole, List.pairwise_cons, List.mem_flatten]
  exact and_congr_left' ⟨fun h ⟨d, hd, hz⟩ => h d hd hz, fun h d hd hz => h ⟨d, hd, hz⟩⟩

theorem kept_of_mem (h : '\n' ∈ t) : kept t = rest '\n' t := if_pos h

theorem kept_of_notMem (h : '\n' ∉ t) : kept t = [] := if_neg h

theorem handled_of_whole (hw : Whole cs) (hb : '\n' ∉ b) :
    handled b cs = closed '\n' (b ++ cs.flatten) := by
  induction cs generalizing b with
  | nil => rw [List.flatten_nil, List.append_nil, Lines.closed_of_notMem hb, handled]
  | cons c cs ih =>
    obtain ⟨hc, hcs⟩ := whole_cons.mp hw
    rw [handled, List.flatten_cons, ← List.append_assoc, Lines.closed_append (b ++ c)]
    by_cases hz : '\n' ∈ b ++ c
    · rw [kept_of_mem hz, ih hcs (Lines.notMem_rest _)]
    · -- no newline is left in the stream
      have hno : '\n' ∉ cs.flatten := fun h => hz (List.mem_append_right b (hc h))
      rw [kept_of_notMem hz, ih hcs List.not_mem_nil, Lines.rest_of_notMem hz, List.nil_append,
        Lines.closed_of_notMem hno, Lines.closed_of_notMem (List.not_mem_append hz hno)]

/-- The empty pattern matches everything. -/
theorem report_nil (ls : List (List Char)) : report [] ls = ls.flatMap (· ++ ['\n']) := by
  have hall : ∀ l, matchRe [] l = true := by
    intro l
    cases l <;> rfl
  rw [report, List.filter_eq_self.mpr fun l _ => hall l]

/-- What stands in front of the first line is written with it. -/
theorem length_report_append (hb : '\n' ∉ b) (u : List Char) :
    (report [] (closed '\n' (b ++ u))).length =
      (report [] (closed '\n' u)).length + if '\n' ∈ u then b.length else 0 := by
  split_ifs with hu
  · obtain ⟨l, r, rfl, hl⟩ := List.eq_append_cons_of_mem hu
    rw [Lines.closed_append_of_notMem hb hl, Lines.closed_line hl]
    simp only [report_nil, List.flatMap_cons, List.length_append]
    omega
  · rw [Lines.closed_of_notMem (List.not_mem_append hb hu), Lines.closed_of_notMem hu]
    rfl

theorem length_handled_le (hb : '\n' ∉ b) :
    (report [] (handled b cs)).length ≤ (report [] (closed '\n' (b ++ cs.flatten))).length := by
  induction cs generalizing b with
  | nil => exact Nat.zero_le _
  | cons c cs ih =>
    rw [handled, List.flatten_cons, ← List.append_assoc, Lines.closed_append (b ++ c),
      report_append, report_append, List.length_append, List.length_append]
    apply Nat.add_le_add_left
    by_cases hz : '\n' ∈ b ++ c
    · rw [kept_of_mem hz]
      exact ih (Lines.notMem_rest _)
    · rw [kept_of_notMem hz, length_report_append (Lines.notMem_rest _)]
      exact (ih List.not_mem_nil).trans (Nat.le_add_right _ _)

/-- A part that is dropped is missing in the output. -/
theorem length_handled_lt (hb : '\n' ∉ b) (hne : ∀ c ∈ cs, c ≠ []) (hw : ¬ Whole cs) :
    (report [] (handled b cs)).length < (report [] (closed '\n' (b ++ cs.flatten))).length := by
  induction cs generalizing b with
  | nil => exact absurd List.Pairwise.nil hw
  | cons c cs ih =>
    have hcs : ∀ d ∈ cs, d ≠ [] := fun d hd => hne d (List.mem_cons_of_mem c hd)
    have hsplit := mt whole_cons.mpr hw
    rw [handled, List.flatten_cons, ← List.append_assoc, Lines.closed_append (b ++ c),
      report_append, report_append, List.length_append, List.length_append]
    apply Nat.add_lt_add_left
    by_cases hz : '\n' ∈ b ++ c
    · have hc : '\n' ∈ c := (List.mem_append.mp hz).resolve_left hb
      rw [kept_of_mem hz]
      exact ih (Lines.notMem_rest _) hcs fun h => hsplit ⟨fun _ => hc, h⟩
    · rw [kept_of_notMem hz, length_report_append (Lines.notMem_rest _), Lines.rest_of_notMem hz]
      by_cases hlater : '\n' ∈ cs.flatten
      · have hpos : 0 < (b ++ c).length :=
          List.length_pos_of_ne_nil fun h => hne c List.mem_cons_self
            (List.append_eq_nil_iff.mp h).2
        rw [if_pos hlater]
        exact Nat.lt_of_le_of_lt (length_handled_le List.not_mem_nil) (Nat.lt_add_of_pos_right hpos)
      · exact Nat.lt_add_right _ (ih List.not_mem_nil hcs fun h =>
          hsplit ⟨fun hz' => absurd hz' hlater, h⟩)

theorem Answers.ne_nil (h : Answers b cs) : ∀ c ∈ cs, c ≠ [] := by
  induction cs generalizing b with
  | nil => exact fun c hc => absurd hc List.not_mem_nil
  | cons c cs ih =>
    obtain ⟨hne, -, hcs⟩ := h
    rw [List.forall_mem_cons]
    exact ⟨hne, ih hcs⟩

/-- **When the output is that of the stream.**  The reads return `chunks`, none of them empty or
longer than asked for, without NULs.  For every pattern `grep` ends and has written the lines of the
stream that match, in order, if and only if every chunk before the last newline has a newline. -/
theorem grep_exact_iff {chunks : List (List Char)} (hans : Answers [] chunks)
    (h0 : ∀ c ∈ chunks, NUL ∉ c) {fuel : ℕ} (hf : chunks.length < fuel) (buf : ℕ → Char) :
    (∀ pattern, ∃ s', grep pattern fuel ⟨buf, chunks, []⟩ = .ok ((), s') ∧
      s'.out = report pattern (closed '\n' chunks.flatten)) ↔ Whole chunks := by
  have hrun : ∀ pattern, ∃ s', grep pattern fuel ⟨buf, chunks, []⟩ = .ok ((), s') ∧
      s'.out = report pattern (handled [] chunks) := fun pattern =>
    grepLoop_eq (b := []) rfl List.not_mem_nil h0 hans hf
  constructor
  · intro h
    by_contra hw
    obtain ⟨s₁, hs₁, hout₁⟩ := h []
    obtain ⟨s₂, hs₂, hout₂⟩ := hrun []
    obtain rfl : s₁ = s₂ := congrArg Prod.snd (Except.ok.inj (hs₁.symm.trans hs₂))
    have hlt := length_handled_lt List.not_mem_nil hans.ne_nil hw
    rw [← hout₂, hout₁, List.nil_append] at hlt
    exact Nat.lt_irrefl _ hlt
  · intro hw pattern
    rw [← List.nil_append chunks.flatten, ← handled_of_whole hw List.not_mem_nil]
    exact hrun pattern

/-- Two lines in two parts, the first with the beginning of the second line. -/
theorem grep_exact_iff_two : ∃ s',
    grep ['b'] 3 ⟨fun _ => NUL, [['a', '\n', 'b'], ['c', '\n']], []⟩ = .ok ((), s') ∧
      s'.out = ['b', 'c', '\n'] :=
  (grep_exact_iff (by decide) (by decide) (by decide) _).mpr (by decide) ['b']

/-- The line `ab` in one part, and in two: the `a` is dropped, and what is left still matches. -/
theorem grep_drops_start :
    (grep ['b'] 3 ⟨fun _ => NUL, [['a', 'b', '\n']], []⟩).toOption.map (·.2.out) =
        some ['a', 'b', '\n'] ∧
      (grep ['b'] 3 ⟨fun _ => NUL, [['a'], ['b', '\n']], []⟩).toOption.map (·.2.out) =
        some ['b', '\n'] := by
  constructor <;> rfl

end Xv6Mlfq.Grep
