import Xv6Mlfq.Shell.Parser
import Mathlib.Data.List.Forall2
import Mathlib.Data.List.Induction

/-!
# The parser accepts its grammar

One rule for each round of the three loops gives both directions: with enough fuel the parser
returns or panics, what it returns has a derivation from the tokens it has passed, and from a
derivation that is followed by a token that ends it, the parser returns its command.  The words are
then read from the buffer after `nulterminate`, which writes only after words.

## Main results

* `soundAt`, `completeAt` — the two directions, by induction on the fuel.
* `stringAt_nulterminate` — each word, as a string.
* `parsecmd_iff` — `parsecmd` returns a command if and only if the line has a derivation with it.
-/

namespace Xv6Mlfq.Shell

open Wp (wp)

variable {F : Fault → Prop} {s text : Ptr} {n : Nat} {c : Cmd Span} {d : Cmd Word}

/-! ## The first token -/

theorem startsWith_cons (t : Token Word) (ts : List (Token Word)) (toks : List Char) :
    startsWith (t :: ts) toks = match t.symbol with
      | none => false
      | some c => toks.contains c := rfl

theorem startsWith_word (w : Word) (ts : List (Token Word)) (toks : List Char) :
    startsWith (.word w :: ts) toks = false := rfl

variable {ts r : List (Token Word)} {Q : Cmd Span → Ptr → Prop}

theorem redir_of_startsWith (h : startsWith ts ['<', '>'] = true) :
    ∃ op ts', ts = .redir op :: ts' := by
  cases ts with
  | nil => cases h
  | cons t ts =>
    cases t with
    | redir op => exact ⟨op, ts, rfl⟩
    | _ => simp [startsWith_cons, Token.symbol] at h

/-- The token with this symbol; `>` starts two. -/
def Token.ofSymbol : Char → Option (Token Word)
  | '|' => some .bar
  | '(' => some .lparen
  | ')' => some .rparen
  | ';' => some .semi
  | '&' => some .amp
  | '<' => some (.redir .read)
  | _ => none

theorem ofSymbol_symbol {t : Token Word} {c : Char} (h : t.symbol = some c) (hc : c ≠ '>') :
    Token.ofSymbol c = some t := by
  cases t with
  | redir op =>
    cases op with
    | read => cases h; rfl
    | write => exact absurd (Option.some.inj h).symm hc
    | append => exact absurd (Option.some.inj h).symm hc
  | word w => cases h
  | _ => cases h; rfl

theorem eq_cons_of_startsWith {t : Token Word} {c : Char}
    (h : startsWith ts [c] = true) (ht : t.symbol = some c) (hc : c ≠ '>') :
    ∃ ts', ts = t :: ts' := by
  cases ts with
  | nil => cases h
  | cons t' ts =>
    rw [startsWith_cons] at h
    cases hs : t'.symbol with
    | none => simp [hs] at h
    | some c' =>
      have hcc : c' = c := by simpa [hs] using h
      rw [hcc] at hs
      have htt : t' = t :=
        Option.some.inj ((ofSymbol_symbol hs hc).symm.trans (ofSymbol_symbol ht hc))
      exact ⟨ts, by rw [htt]⟩

/-- What may follow: nothing, or a token that starts with one of these. -/
def Follows (r : List (Token Word)) (toks : List Char) : Prop := r = [] ∨ startsWith r toks = true

/-- What may follow is not what other functions look for. -/
theorem Follows.startsWith_eq_false {toks others : List Char}
    (h : Follows r toks) (hd : toks.all (fun c => !others.contains c) = true) :
    startsWith r others = false := by
  rcases h with rfl | h
  · rfl
  · cases r with
    | nil => cases h
    | cons t ts =>
      rw [startsWith_cons] at h ⊢
      cases hs : t.symbol with
      | none => rfl
      | some c =>
        rw [hs] at h
        simpa using List.all_eq_true.mp hd c (List.contains_iff_mem.mp h)

/-! ## The rounds of the loops -/

theorem wp_parseredirs_done (h : startsWith (tokens s) ['<', '>'] = false) (hQ : Q c (skip s)) :
    wp F (parseredirs (n + 1) c) Q s := by
  rw [parseredirs, Wp.wp_bind, wp_peek rfl, h, if_neg Bool.false_ne_true, Wp.wp_pure]
  exact hQ

theorem startsWith_redir (op : Op) (ts : List (Token Word)) :
    startsWith (.redir op :: ts) ['<', '>'] = true := by
  cases op <;> rfl

/-- A redirection, with the word after it. -/
theorem wp_parseredirs_redir {op : Op} {w : Word} (h : tokens s = .redir op :: .word w :: ts)
    (hQ : ∀ x s', Consumes s [.redir op, .word w] s' → s'.length < s.length → Reads s x w →
      wp F (parseredirs n (.redir c x op.mode op.fd)) Q s') :
    wp F (parseredirs (n + 1) c) Q s := by
  have hskip := consumes_skip s
  rw [parseredirs, Wp.wp_bind, wp_peek rfl, h, startsWith_redir, if_pos rfl, Wp.wp_bind]
  apply wp_gettoken (hskip.rest h)
  intro _ s₁ h₁ hlt₁ _
  have hs₁ := (hskip.trans h₁).rest h
  rw [Wp.wp_bind]
  apply wp_gettoken hs₁
  intro x s₂ h₂ hlt₂ hx
  have hcons := (hskip.trans h₁).trans h₂
  have hlen := hskip.length_le
  have hnext := hQ x s₂ hcons (by omega) ((hx w rfl).mono (hskip.trans h₁).suffix)
  cases op with
  | read => exact hnext
  | write => exact hnext
  | append => exact hnext

/-- No word after a redirection: a panic. -/
theorem wp_parseredirs_missing {op : Op}
    (h : tokens s = .redir op :: ts) (hts : ∀ w ts', ts ≠ .word w :: ts')
    (hF : ∀ msg, F (.panic msg)) : wp F (parseredirs (n + 1) c) Q s := by
  have hskip := consumes_skip s
  rw [parseredirs, Wp.wp_bind, wp_peek rfl, h, startsWith_redir, if_pos rfl, Wp.wp_bind]
  apply wp_gettoken (hskip.rest h)
  intro _ s₁ h₁ _ _
  have hs₁ := (hskip.trans h₁).rest h
  rw [Wp.wp_bind]
  cases ts with
  | nil =>
    apply wp_gettoken_eof hs₁
    exact Wp.wp_throw.mpr (hF _)
  | cons t ts =>
    apply wp_gettoken hs₁
    intro x s₂ _ _ _
    have ht : t.code ≠ 'a' := by
      cases t with
      | word w => exact absurd rfl (hts w ts)
      | redir op => cases op <;> decide
      | _ => decide
    dsimp only
    rw [if_pos ht]
    exact Wp.wp_throw.mpr (hF _)

/-- The loop of `parseline` takes every `&` there is. -/
theorem wp_parsebacks (hn : s.length < n)
    (hQ : ∀ k s', Consumes s (List.replicate k .amp) s' → startsWith (tokens s') ['&'] = false →
      Q (backs k c) s') : wp F (parsebacks n c) Q s := by
  induction n generalizing c s with
  | zero => omega
  | succ n ih =>
    have hskip := consumes_skip s
    rw [parsebacks, Wp.wp_bind, wp_peek rfl]
    cases hamp : startsWith (tokens s) ['&'] with
    | false =>
      rw [if_neg Bool.false_ne_true, Wp.wp_pure]
      exact hQ 0 (skip s) hskip (by rw [tokens_skip, hamp])
    | true =>
      obtain ⟨ts, hts⟩ := eq_cons_of_startsWith hamp (t := .amp) rfl (by decide)
      rw [if_pos rfl, Wp.wp_bind]
      apply wp_gettoken (hskip.rest hts)
      intro _ s₁ h₁ hlt₁ _
      have hlen := hskip.length_le
      apply ih (by omega)
      intro k s' hk hs'
      exact hQ (k + 1) s' ((hskip.trans h₁).trans hk) hs'

/-- A token in the loop of `parseexec` ends it, or is a word, or is wrong. -/
theorem wp_parseargs_done {Q : Cmd Span → Ptr → Prop} {argc : Nat}
    (h : Follows (tokens s) ['|', ')', '&', ';'])
    (hQ : ∀ s', Consumes s [] s' → Q c s') : wp F (parseargs (n + 1) argc c) Q s := by
  have hskip := consumes_skip s
  rw [parseargs, Wp.wp_bind, wp_peek rfl]
  rcases h with h | h
  · rw [h, if_neg (by decide), Wp.wp_bind]
    apply wp_gettoken_eof (hskip.rest h)
    dsimp only
    rw [if_pos rfl, Wp.wp_pure]
    refine hQ [] ⟨?_, List.nil_suffix⟩
    rw [h, tokens]
    rfl
  · rw [h, if_pos rfl, Wp.wp_pure]
    exact hQ (skip s) hskip

/-- A word becomes the next argument. -/
theorem wp_parseargs_word {argc : Nat} {w : Word}
    (h : tokens s = .word w :: ts) (hargc : argc + 1 < MAXARGS)
    (hQ : ∀ x s', Consumes s [.word w] s' → s'.length < s.length → Reads s x w →
      wp F (parseredirs n (c.addArg x)) (fun c' => wp F (parseargs n (argc + 1) c') Q) s') :
    wp F (parseargs (n + 1) argc c) Q s := by
  have hskip := consumes_skip s
  rw [parseargs, Wp.wp_bind, wp_peek rfl, h, startsWith_word, if_neg Bool.false_ne_true,
    Wp.wp_bind]
  apply wp_gettoken (hskip.rest h)
  intro x s₁ h₁ hlt₁ hx
  have hlen := hskip.length_le
  have hnext := hQ x s₁ (hskip.trans h₁) (by omega) ((hx w rfl).mono hskip.suffix)
  dsimp only [Token.code]
  rw [if_neg (by decide), if_neg (by decide), if_neg (by omega), Wp.wp_bind]
  exact hnext

/-- Not a word, or one argument too many: a panic. -/
theorem wp_parseargs_wrong {Q : Cmd Span → Ptr → Prop} {argc : Nat} {t : Token Word}
    {ts : List (Token Word)} (h : tokens s = t :: ts)
    (hstop : startsWith (tokens s) ['|', ')', '&', ';'] = false)
    (ht : (∀ w, t ≠ .word w) ∨ MAXARGS ≤ argc + 1) (hF : ∀ msg, F (.panic msg)) :
    wp F (parseargs (n + 1) argc c) Q s := by
  have hskip := consumes_skip s
  rw [parseargs, Wp.wp_bind, wp_peek rfl, hstop, if_neg (by decide), Wp.wp_bind]
  apply wp_gettoken (hskip.rest h)
  intro x s₁ _ _ _
  have hcode : t.code ≠ '\x00' := by
    cases t with
    | redir op => cases op <;> decide
    | word w => exact show 'a' ≠ '\x00' by decide
    | _ => decide
  dsimp only
  rw [if_neg hcode]
  by_cases ha : t.code = 'a'
  · rw [if_neg (by simpa using ha), if_pos ?_]
    · exact Wp.wp_throw.mpr (hF _)
    · apply ht.resolve_left
      intro hw
      cases t with
      | word w => exact hw w rfl
      | redir op => cases op <;> cases ha
      | _ => cases ha
  · rw [if_pos ha]
    exact Wp.wp_throw.mpr (hF _)

/-! ## Redirections and arguments of commands -/

theorem wrap_append (d : Cmd Word) (rs rs' : List (Op × Word)) :
    wrap d (rs ++ rs') = wrap (wrap d rs) rs' :=
  List.foldl_append

/-- An argument goes below the redirections. -/
theorem addArg_wrap (w : Word) (d : Cmd Word) (rs : List (Op × Word)) :
    (wrap d rs).addArg w = wrap (d.addArg w) rs := by
  induction rs generalizing d with
  | nil => rfl
  | cons r rs ih => exact ih (.redir d r.2 r.1.mode r.1.fd)

theorem Cmd.Rel.addArg {V W : Type} {R : V → W → Prop} {c : Cmd V} {d : Cmd W} {x : V} {y : W}
    (h : Cmd.Rel R c d) (hxy : R x y) : Cmd.Rel R (c.addArg x) (d.addArg y) := by
  induction h with
  | exec hargs => exact .exec (List.rel_append hargs (.cons hxy .nil))
  | redir _ hfile ih => exact .redir ih hfile
  | pipe hl hr _ _ => exact .pipe hl hr
  | list hl hr _ _ => exact .list hl hr
  | back hc _ => exact .back hc

theorem rel_backs (k : Nat) (h : Cmd.Rel (Reads text) c d) :
    Cmd.Rel (Reads text) (backs k c) (backs k d) := by
  induction k generalizing c d with
  | zero => exact h
  | succ k ih => exact ih (.back h)

/-! ## What the parser returns has a derivation -/

/-- Any fault but no fuel. -/
def Panics (e : Fault) : Prop := e ≠ .fuel

theorem panics_panic (msg : String) : Panics (.panic msg) := nofun

/-- `parseredirs` wraps the command in the redirections it takes. -/
theorem parseredirs_sound (hn : s.length < n) (hs : s <:+ text) :
    wp Panics (parseredirs n c)
      (fun c' s' => ∃ ts rs, Consumes s ts s' ∧ Redirs ts rs ∧
        ∀ d, Cmd.Rel (Reads text) c d → Cmd.Rel (Reads text) c' (wrap d rs)) s := by
  induction n generalizing c s with
  | zero => omega
  | succ n ih =>
    cases hop : startsWith (tokens s) ['<', '>'] with
    | false => exact wp_parseredirs_done hop ⟨[], [], consumes_skip s, .nil, fun _ => id⟩
    | true =>
      obtain ⟨op, ts, hts⟩ := redir_of_startsWith hop
      by_cases hw : ∃ w ts', ts = .word w :: ts'
      · obtain ⟨w, ts', rfl⟩ := hw
        apply wp_parseredirs_redir hts
        intro x s₁ h₁ hlt₁ hx
        refine Wp.wp_mono (ih (by omega) (h₁.suffix.trans hs)) ?_
        rintro c' s' ⟨ts₂, rs, h₂, hrs, hrel⟩
        exact ⟨_, _, h₁.trans h₂, .cons hrs, fun d hd => hrel _ (.redir hd (hx.mono hs))⟩
      · apply wp_parseredirs_missing hts _ panics_panic
        intro w ts' he
        exact hw ⟨w, ts', he⟩

/-- The loop of `parseexec` adds its words and redirections. -/
theorem parseargs_sound {argc : Nat} (hn : s.length < n) (hs : s <:+ text)
    (hargc : argc < MAXARGS) : wp Panics (parseargs n argc c)
      (fun c' s' => ∃ ts ws rs, Consumes s ts s' ∧ Words ts ws rs ∧ argc + ws.length < MAXARGS ∧
        ∀ ws₀ rs₀, Cmd.Rel (Reads text) c (wrap (.exec ws₀) rs₀) →
          Cmd.Rel (Reads text) c' (wrap (.exec (ws₀ ++ ws)) (rs₀ ++ rs))) s := by
  induction n generalizing c s argc with
  | zero => omega
  | succ n ih =>
    by_cases hf : Follows (tokens s) ['|', ')', '&', ';']
    · apply wp_parseargs_done hf
      intro s' h'
      refine ⟨[], [], [], h', .nil, hargc, fun ws₀ rs₀ hc => ?_⟩
      rw [List.append_nil, List.append_nil]
      exact hc
    · obtain ⟨hne, hstop⟩ := not_or.mp hf
      obtain ⟨t, ts, ht⟩ := List.exists_cons_of_ne_nil hne
      by_cases hw : (∀ w, t ≠ .word w) ∨ MAXARGS ≤ argc + 1
      · exact wp_parseargs_wrong ht (Bool.eq_false_iff.mpr hstop) hw panics_panic
      · obtain ⟨hw, hlt⟩ := not_or.mp hw
        obtain ⟨w, hw⟩ := not_forall.mp hw
        rw [not_not] at hw
        subst hw
        apply wp_parseargs_word ht (by omega)
        intro x s₁ h₁ hlt₁ hx
        refine Wp.wp_mono (parseredirs_sound (by omega) (h₁.suffix.trans hs)) ?_
        rintro c₂ s₂ ⟨ts₂, rs₂, h₂, hrs, hrel₂⟩
        have hle := h₂.length_le
        refine Wp.wp_mono (ih (by omega) ((h₁.trans h₂).suffix.trans hs) (by omega)) ?_
        rintro c₃ s₃ ⟨ts₃, ws, rs₃, h₃, hws, hlen, hrel₃⟩
        refine ⟨_, w :: ws, rs₂ ++ rs₃, ?_, .cons hrs hws, ?_, fun ws₀ rs₀ hc => ?_⟩
        · have := (h₁.trans h₂).trans h₃
          rwa [List.append_assoc] at this
        · rw [List.length_cons]
          omega
        · have hadd := hc.addArg (hx.mono hs)
          rw [addArg_wrap] at hadd
          have hred := hrel₂ _ hadd
          rw [← wrap_append] at hred
          have := hrel₃ _ _ hred
          rwa [List.append_assoc, List.append_assoc] at this

/-- From one place of the cursor to another there is a derivation of the command. -/
def Derived (text : Ptr) (D : List (Token Word) → Cmd Word → Prop) (s : Ptr) (c : Cmd Span)
    (s' : Ptr) : Prop :=
  ∃ ts d, Consumes s ts s' ∧ D ts d ∧ Cmd.Rel (Reads text) c d

/-- The four functions with so much fuel.  A call costs one unit, and a block begins after a
character. -/
structure SoundAt (text : Ptr) (n : Nat) : Prop where
  line : ∀ {s}, s <:+ text → 4 * s.length + 4 ≤ n →
    wp Panics (parseline n) (Derived text Line s) s
  pipe : ∀ {s}, s <:+ text → 4 * s.length + 3 ≤ n →
    wp Panics (parsepipe n) (Derived text Pipe s) s
  exec : ∀ {s}, s <:+ text → 4 * s.length + 2 ≤ n →
    wp Panics (parseexec n) (Derived text Exec s) s
  block : ∀ {s}, s <:+ text → 4 * s.length + 1 ≤ n →
    wp Panics (parseblock n) (Derived text Exec s) s

theorem SoundAt.line_succ (h : SoundAt text n) (hs : s <:+ text) (hn : 4 * s.length + 4 ≤ n + 1) :
    wp Panics (parseline (n + 1)) (Derived text Line s) s := by
  rw [parseline, Wp.wp_bind]
  refine Wp.wp_mono (h.pipe hs (by omega)) ?_
  rintro c₁ s₁ ⟨ts₁, d₁, h₁, hpipe, hrel₁⟩
  have hle₁ := h₁.length_le
  rw [Wp.wp_bind]
  apply wp_parsebacks (by omega)
  intro k s₂ h₂ _
  have hrel₂ := rel_backs k hrel₁
  have hle₂ := h₂.length_le
  have hskip := consumes_skip s₂
  rw [Wp.wp_bind, wp_peek rfl]
  cases hsemi : startsWith (tokens s₂) [';'] with
  | false =>
    rw [if_neg Bool.false_ne_true, Wp.wp_pure]
    refine ⟨_, _, ?_, .last k hpipe, hrel₂⟩
    have := (h₁.trans h₂).trans hskip
    rwa [List.append_nil] at this
  | true =>
    obtain ⟨ts₃, hts₃⟩ := eq_cons_of_startsWith hsemi (t := .semi) rfl (by decide)
    have hle := hskip.length_le
    rw [if_pos rfl, Wp.wp_bind]
    apply wp_gettoken (hskip.rest hts₃)
    intro _ s₃ h₃ hlt₃ _
    have hcons := (h₁.trans h₂).trans (hskip.trans h₃)
    rw [Wp.wp_bind]
    refine Wp.wp_mono (h.line (hcons.suffix.trans hs) (by omega)) ?_
    rintro c₄ s₄ ⟨ts₄, d₄, h₄, hline, hrel₄⟩
    rw [Wp.wp_pure]
    refine ⟨_, _, ?_, .cons k hpipe hline, .list hrel₂ hrel₄⟩
    have := hcons.trans h₄
    simpa only [List.append_assoc, List.nil_append, List.singleton_append] using this

theorem SoundAt.pipe_succ (h : SoundAt text n) (hs : s <:+ text) (hn : 4 * s.length + 3 ≤ n + 1) :
    wp Panics (parsepipe (n + 1)) (Derived text Pipe s) s := by
  rw [parsepipe, Wp.wp_bind]
  refine Wp.wp_mono (h.exec hs (by omega)) ?_
  rintro c₁ s₁ ⟨ts₁, d₁, h₁, hexec, hrel₁⟩
  have hle₁ := h₁.length_le
  have hskip := consumes_skip s₁
  rw [Wp.wp_bind, wp_peek rfl]
  cases hbar : startsWith (tokens s₁) ['|'] with
  | false =>
    rw [if_neg Bool.false_ne_true, Wp.wp_pure]
    refine ⟨_, _, ?_, .last hexec, hrel₁⟩
    have := h₁.trans hskip
    rwa [List.append_nil] at this
  | true =>
    obtain ⟨ts₂, hts₂⟩ := eq_cons_of_startsWith hbar (t := .bar) rfl (by decide)
    have hle := hskip.length_le
    rw [if_pos rfl, Wp.wp_bind]
    apply wp_gettoken (hskip.rest hts₂)
    intro _ s₂ h₂ hlt₂ _
    have hcons := h₁.trans (hskip.trans h₂)
    rw [Wp.wp_bind]
    refine Wp.wp_mono (h.pipe (hcons.suffix.trans hs) (by omega)) ?_
    rintro c₃ s₃ ⟨ts₃, d₃, h₃, hpipe, hrel₃⟩
    rw [Wp.wp_pure]
    refine ⟨_, _, ?_, .cons hexec hpipe, .pipe hrel₁ hrel₃⟩
    have := hcons.trans h₃
    simpa only [List.append_assoc, List.nil_append, List.singleton_append] using this

theorem SoundAt.block_succ (h : SoundAt text n) (hs : s <:+ text) (hn : 4 * s.length + 1 ≤ n + 1) :
    wp Panics (parseblock (n + 1)) (Derived text Exec s) s := by
  have hskip := consumes_skip s
  have hle := hskip.length_le
  rw [parseblock, Wp.wp_bind, wp_peek rfl]
  cases hopen : startsWith (tokens s) ['('] with
  | false =>
    rw [if_neg Bool.false_ne_true]
    exact Wp.wp_throw.mpr (panics_panic _)
  | true =>
    obtain ⟨ts₁, hts₁⟩ := eq_cons_of_startsWith hopen (t := .lparen) rfl (by decide)
    rw [if_pos rfl, Wp.wp_bind]
    apply wp_gettoken (hskip.rest hts₁)
    intro _ s₁ h₁ hlt₁ _
    have hopens := hskip.trans h₁
    rw [Wp.wp_bind]
    refine Wp.wp_mono (h.line (hopens.suffix.trans hs) (by omega)) ?_
    rintro c₂ s₂ ⟨ts₂, d₂, h₂, hline, hrel₂⟩
    have hle₂ := h₂.length_le
    have hskip₂ := consumes_skip s₂
    rw [Wp.wp_bind, wp_peek rfl]
    cases hclose : startsWith (tokens s₂) [')'] with
    | false =>
      rw [if_neg Bool.false_ne_true]
      exact Wp.wp_throw.mpr (panics_panic _)
    | true =>
      obtain ⟨ts₃, hts₃⟩ := eq_cons_of_startsWith hclose (t := .rparen) rfl (by decide)
      have hle₃ := hskip₂.length_le
      rw [if_pos rfl, Wp.wp_bind]
      apply wp_gettoken (hskip₂.rest hts₃)
      intro _ s₃ h₃ hlt₃ _
      have hcons := (hopens.trans h₂).trans (hskip₂.trans h₃)
      refine Wp.wp_mono (parseredirs_sound (by omega) (hcons.suffix.trans hs)) ?_
      rintro c₄ s₄ ⟨ts₄, rs, h₄, hrs, hrel₄⟩
      refine ⟨_, _, ?_, .block hline hrs, hrel₄ _ hrel₂⟩
      have := hcons.trans h₄
      simpa only [List.append_assoc, List.nil_append, List.cons_append] using this

theorem SoundAt.exec_succ (h : SoundAt text n) (hs : s <:+ text) (hn : 4 * s.length + 2 ≤ n + 1) :
    wp Panics (parseexec (n + 1)) (Derived text Exec s) s := by
  have hskip := consumes_skip s
  have hle := hskip.length_le
  rw [parseexec, Wp.wp_bind, wp_peek rfl]
  cases hopen : startsWith (tokens s) ['('] with
  | true =>
    rw [if_pos rfl]
    refine Wp.wp_mono (h.block (hskip.suffix.trans hs) (by omega)) ?_
    rintro c₁ s₁ ⟨ts₁, d₁, h₁, hexec, hrel⟩
    exact ⟨_, _, hskip.trans h₁, hexec, hrel⟩
  | false =>
    rw [if_neg Bool.false_ne_true, Wp.wp_bind]
    refine Wp.wp_mono (parseredirs_sound (by omega) (hskip.suffix.trans hs)) ?_
    rintro c₁ s₁ ⟨ts₁, rs₁, h₁, hrs, hrel₁⟩
    have hle₁ := h₁.length_le
    have hcons := hskip.trans h₁
    refine Wp.wp_mono (parseargs_sound (by omega) (hcons.suffix.trans hs) (by decide)) ?_
    rintro c₂ s₂ ⟨ts₂, ws, rs₂, h₂, hws, hlen, hrel₂⟩
    have hempty : Cmd.Rel (Reads text) c₁ (wrap (.exec []) rs₁) := hrel₁ _ (.exec .nil)
    exact ⟨_, _, hcons.trans h₂, .simple hrs hws (by omega), hrel₂ _ _ hempty⟩

/-- Induction on the fuel, all four functions at once. -/
theorem soundAt (text : Ptr) (n : Nat) : SoundAt text n := by
  induction n with
  | zero => constructor <;> intros <;> omega
  | succ n ih => exact ⟨ih.line_succ, ih.pipe_succ, ih.exec_succ, ih.block_succ⟩

/-! ## A derivation is found -/

/-- The parser comes to the tokens `r` with the command. -/
def Found (text : Ptr) (r : List (Token Word)) (d : Cmd Word) (s : Ptr) (c : Cmd Span) (s' : Ptr) :
    Prop :=
  tokens s' = r ∧ s' <:+ s ∧ Cmd.Rel (Reads text) c d

theorem parseredirs_complete {rs : List (Op × Word)}
    (h : Redirs ts rs) (hn : s.length < n) (hs : s <:+ text) (ht : tokens s = ts ++ r)
    (hr : startsWith r ['<', '>'] = false) (hc : Cmd.Rel (Reads text) c d) :
    wp (fun _ => False) (parseredirs n c) (Found text r (wrap d rs) s) s := by
  induction h generalizing n c s d with
  | nil =>
    obtain ⟨n, rfl⟩ := Nat.exists_eq_add_one_of_ne_zero (Nat.ne_zero_of_lt hn)
    have hskip := consumes_skip s
    exact wp_parseredirs_done (by rw [ht]; exact hr) ⟨hskip.rest ht, hskip.suffix, hc⟩
  | @cons op w ts rs _ ih =>
    obtain ⟨n, rfl⟩ := Nat.exists_eq_add_one_of_ne_zero (Nat.ne_zero_of_lt hn)
    apply wp_parseredirs_redir ht
    intro x s₁ h₁ hlt₁ hx
    have hs₁ := h₁.suffix.trans hs
    refine Wp.wp_mono (ih (by omega) hs₁ (h₁.rest ht) (.redir hc (hx.mono hs))) ?_
    rintro c' s' ⟨hs', hsuffix, hrel⟩
    exact ⟨hs', hsuffix.trans h₁.suffix, hrel⟩

/-- Words and their redirections begin with a word, if at all. -/
theorem Words.not_redir {ws : List Word} {rs : List (Op × Word)}
    (h : Words ts ws rs) (hr : startsWith r ['<', '>'] = false) :
    startsWith (ts ++ r) ['<', '>'] = false := by
  cases h with
  | nil => exact hr
  | cons _ _ => rfl

theorem parseargs_complete {ts r : List (Token Word)} {ws ws₀ : List Word}
    {rs rs₀ : List (Op × Word)} {argc : Nat} (h : Words ts ws rs) (hn : s.length < n)
    (hs : s <:+ text) (hlen : argc + ws.length < MAXARGS) (ht : tokens s = ts ++ r)
    (hr : Follows r ['|', ')', '&', ';']) (hc : Cmd.Rel (Reads text) c (wrap (.exec ws₀) rs₀)) :
    wp (fun _ => False) (parseargs n argc c)
      (Found text r (wrap (.exec (ws₀ ++ ws)) (rs₀ ++ rs)) s) s := by
  induction h generalizing n c s argc ws₀ rs₀ with
  | nil =>
    obtain ⟨n, rfl⟩ := Nat.exists_eq_add_one_of_ne_zero (Nat.ne_zero_of_lt hn)
    apply wp_parseargs_done (by rw [ht]; exact hr)
    intro s' h'
    rw [List.append_nil, List.append_nil]
    exact ⟨h'.rest ht, h'.suffix, hc⟩
  | @cons w ts rs ts' ws rs' hrs hws ih =>
    obtain ⟨n, rfl⟩ := Nat.exists_eq_add_one_of_ne_zero (Nat.ne_zero_of_lt hn)
    rw [List.length_cons] at hlen
    apply wp_parseargs_word ht (by omega)
    intro x s₁ h₁ hlt₁ hx
    have hs₁ : tokens s₁ = ts ++ (ts' ++ r) := by
      rw [← List.append_assoc]
      exact h₁.rest ht
    have hadd := hc.addArg (hx.mono hs)
    rw [addArg_wrap] at hadd
    have hstop : startsWith (ts' ++ r) ['<', '>'] = false :=
      hws.not_redir (hr.startsWith_eq_false rfl)
    refine Wp.wp_mono
      (parseredirs_complete hrs (by omega) (h₁.suffix.trans hs) hs₁ hstop hadd) ?_
    rintro c₂ s₂ ⟨hs₂, hsuffix₂, hrel₂⟩
    rw [← wrap_append] at hrel₂
    have hle := hsuffix₂.length_le
    have hto := hsuffix₂.trans h₁.suffix
    refine Wp.wp_mono (ih (by omega) (hto.trans hs) (by omega) hs₂ hrel₂) ?_
    rintro c₃ s₃ ⟨hs₃, hsuffix₃, hrel₃⟩
    refine ⟨hs₃, hsuffix₃.trans hto, ?_⟩
    rwa [List.append_assoc, List.append_assoc] at hrel₃

/-- How many `&`s there are can be read off the tokens. -/
theorem replicate_amp_inj {k k' : Nat} {r' : List (Token Word)}
    (h : List.replicate k .amp ++ r = List.replicate k' .amp ++ r')
    (hr : startsWith r ['&'] = false) (hr' : startsWith r' ['&'] = false) : k = k' ∧ r = r' := by
  induction k generalizing k' with
  | zero =>
    cases k' with
    | zero => exact ⟨rfl, h⟩
    | succ k' =>
      rw [List.replicate_zero, List.nil_append] at h
      rw [h] at hr
      cases hr
  | succ k ih =>
    cases k' with
    | zero =>
      rw [List.replicate_zero, List.nil_append] at h
      rw [← h] at hr'
      cases hr'
    | succ k' =>
      obtain ⟨rfl, rfl⟩ := ih (List.cons.inj h).2
      exact ⟨rfl, rfl⟩

/-- The four functions on a derivation that is followed by what may follow it. -/
structure CompleteAt (text : Ptr) (n : Nat) : Prop where
  line : ∀ {s ts d r}, s <:+ text → 4 * s.length + 4 ≤ n → Line ts d → tokens s = ts ++ r →
    Follows r [')'] → wp (fun _ => False) (parseline n) (Found text r d s) s
  pipe : ∀ {s ts d r}, s <:+ text → 4 * s.length + 3 ≤ n → Pipe ts d → tokens s = ts ++ r →
    Follows r [')', '&', ';'] → wp (fun _ => False) (parsepipe n) (Found text r d s) s
  exec : ∀ {s ts d r}, s <:+ text → 4 * s.length + 2 ≤ n → Exec ts d → tokens s = ts ++ r →
    Follows r ['|', ')', '&', ';'] → wp (fun _ => False) (parseexec n) (Found text r d s) s
  block : ∀ {s ts ts' d rs r}, s <:+ text → 4 * s.length + 1 ≤ n → Line ts d → Redirs ts' rs →
    tokens s = .lparen :: (ts ++ .rparen :: ts') ++ r → Follows r ['|', ')', '&', ';'] →
    wp (fun _ => False) (parseblock n) (Found text r (wrap d rs) s) s

theorem Follows.mono {toks toks' : List Char} (h : Follows r toks)
    (hsub : toks.all toks'.contains = true) : Follows r toks' := by
  refine h.imp_right fun h => ?_
  cases r with
  | nil => cases h
  | cons t ts =>
    rw [startsWith_cons] at h ⊢
    cases hs : t.symbol with
    | none =>
      rw [hs] at h
      cases h
    | some c =>
      rw [hs] at h
      exact List.all_eq_true.mp hsub c (List.contains_iff_mem.mp h)

/-- A pipe with its `&`s. -/
theorem CompleteAt.backs (h : CompleteAt text n) {ts r : List (Token Word)} {k : Nat}
    {Q : Cmd Span → Ptr → Prop} (hs : s <:+ text) (hn : 4 * s.length + 3 ≤ n) (hpipe : Pipe ts d)
    (ht : tokens s = ts ++ (List.replicate k .amp ++ r)) (hr : Follows r [')', ';'])
    (hQ : ∀ c s', Found text r (backs k d) s c s' → Q c s') :
    wp (fun _ => False) (parsepipe n) (fun c => wp (fun _ => False) (parsebacks n c) Q) s := by
  have hfollows : Follows (List.replicate k .amp ++ r) [')', '&', ';'] := by
    cases k with
    | zero => exact hr.mono rfl
    | succ k => exact .inr rfl
  refine Wp.wp_mono (h.pipe hs hn hpipe ht hfollows) ?_
  rintro c₁ s₁ ⟨hs₁, hsuffix₁, hrel₁⟩
  have hle := hsuffix₁.length_le
  apply wp_parsebacks (by omega)
  intro k' s₂ h₂ hs₂
  obtain ⟨rfl, hr₂⟩ :=
    replicate_amp_inj (h₂.tokens.symm.trans hs₁) hs₂ (hr.startsWith_eq_false rfl)
  exact hQ _ _ ⟨hr₂, h₂.suffix.trans hsuffix₁, rel_backs k' hrel₁⟩

theorem CompleteAt.line_succ (h : CompleteAt text n) {ts r : List (Token Word)}
    (hs : s <:+ text) (hn : 4 * s.length + 4 ≤ n + 1) (hline : Line ts d)
    (ht : tokens s = ts ++ r) (hr : Follows r [')']) :
    wp (fun _ => False) (parseline (n + 1)) (Found text r d s) s := by
  rw [parseline, Wp.wp_bind]
  simp only [Wp.wp_bind]
  cases hline with
  | last k hpipe =>
    rw [List.append_assoc] at ht
    apply h.backs hs (by omega) hpipe ht (hr.mono rfl)
    rintro c₁ s₁ ⟨hs₁, hsuffix₁, hrel₁⟩
    have hskip := consumes_skip s₁
    rw [wp_peek rfl, hs₁, hr.startsWith_eq_false rfl, if_neg Bool.false_ne_true, Wp.wp_pure]
    exact ⟨hskip.rest hs₁, hskip.suffix.trans hsuffix₁, hrel₁⟩
  | @cons ts c ts' c' k hpipe hline =>
    have ht₁ : tokens s = ts ++ (List.replicate k .amp ++ .semi :: (ts' ++ r)) := by
      simpa only [List.append_assoc, List.cons_append] using ht
    apply h.backs hs (by omega) hpipe ht₁ (.inr rfl)
    rintro c₁ s₁ ⟨hs₁, hsuffix₁, hrel₁⟩
    have hskip := consumes_skip s₁
    have hle₁ := hsuffix₁.length_le
    have hle₂ := hskip.length_le
    rw [wp_peek rfl, hs₁, show startsWith (.semi :: (ts' ++ r)) [';'] = true from rfl, if_pos rfl,
      Wp.wp_bind]
    apply wp_gettoken (hskip.rest hs₁)
    intro _ s₂ h₂ hlt₂ _
    have hto := (hskip.trans h₂).suffix.trans hsuffix₁
    rw [Wp.wp_bind]
    refine Wp.wp_mono
      (h.line (hto.trans hs) (by omega) hline ((hskip.trans h₂).rest hs₁) hr) ?_
    rintro c₃ s₃ ⟨hs₃, hsuffix₃, hrel₃⟩
    rw [Wp.wp_pure]
    exact ⟨hs₃, hsuffix₃.trans hto, .list hrel₁ hrel₃⟩

theorem CompleteAt.pipe_succ (h : CompleteAt text n) {ts r : List (Token Word)}
    (hs : s <:+ text) (hn : 4 * s.length + 3 ≤ n + 1) (hpipe : Pipe ts d)
    (ht : tokens s = ts ++ r) (hr : Follows r [')', '&', ';']) :
    wp (fun _ => False) (parsepipe (n + 1)) (Found text r d s) s := by
  rw [parsepipe, Wp.wp_bind]
  cases hpipe with
  | last hexec =>
    refine Wp.wp_mono (h.exec hs (by omega) hexec ht (hr.mono rfl)) ?_
    rintro c₁ s₁ ⟨hs₁, hsuffix₁, hrel₁⟩
    have hskip := consumes_skip s₁
    rw [Wp.wp_bind, wp_peek rfl, hs₁, hr.startsWith_eq_false rfl, if_neg Bool.false_ne_true,
      Wp.wp_pure]
    exact ⟨hskip.rest hs₁, hskip.suffix.trans hsuffix₁, hrel₁⟩
  | @cons ts c ts' c' hexec hpipe =>
    have ht₁ : tokens s = ts ++ .bar :: (ts' ++ r) := by
      simpa only [List.append_assoc, List.cons_append] using ht
    refine Wp.wp_mono (h.exec hs (by omega) hexec ht₁ (.inr rfl)) ?_
    rintro c₁ s₁ ⟨hs₁, hsuffix₁, hrel₁⟩
    have hskip := consumes_skip s₁
    have hle₁ := hsuffix₁.length_le
    have hle₂ := hskip.length_le
    rw [Wp.wp_bind, wp_peek rfl, hs₁, show startsWith (.bar :: (ts' ++ r)) ['|'] = true from rfl,
      if_pos rfl, Wp.wp_bind]
    apply wp_gettoken (hskip.rest hs₁)
    intro _ s₂ h₂ hlt₂ _
    have hto := (hskip.trans h₂).suffix.trans hsuffix₁
    rw [Wp.wp_bind]
    refine Wp.wp_mono
      (h.pipe (hto.trans hs) (by omega) hpipe ((hskip.trans h₂).rest hs₁) hr) ?_
    rintro c₃ s₃ ⟨hs₃, hsuffix₃, hrel₃⟩
    rw [Wp.wp_pure]
    exact ⟨hs₃, hsuffix₃.trans hto, .pipe hrel₁ hrel₃⟩

theorem CompleteAt.block_succ (h : CompleteAt text n) {ts ts' r : List (Token Word)}
    {rs : List (Op × Word)} (hs : s <:+ text) (hn : 4 * s.length + 1 ≤ n + 1) (hline : Line ts d)
    (hrs : Redirs ts' rs) (ht : tokens s = .lparen :: (ts ++ .rparen :: ts') ++ r)
    (hr : Follows r ['|', ')', '&', ';']) :
    wp (fun _ => False) (parseblock (n + 1)) (Found text r (wrap d rs) s) s := by
  have ht₁ : tokens s = .lparen :: (ts ++ .rparen :: (ts' ++ r)) := by
    simpa only [List.append_assoc, List.cons_append] using ht
  have hskip := consumes_skip s
  have hle := hskip.length_le
  rw [parseblock, Wp.wp_bind, wp_peek rfl, ht₁,
    show startsWith (.lparen :: (ts ++ .rparen :: (ts' ++ r))) ['('] = true from rfl, if_pos rfl,
    Wp.wp_bind]
  apply wp_gettoken (hskip.rest ht₁)
  intro _ s₁ h₁ hlt₁ _
  have hopens := hskip.trans h₁
  rw [Wp.wp_bind]
  refine Wp.wp_mono
    (h.line (hopens.suffix.trans hs) (by omega) hline (hopens.rest ht₁) (.inr rfl)) ?_
  rintro c₂ s₂ ⟨hs₂, hsuffix₂, hrel₂⟩
  have hskip₂ := consumes_skip s₂
  have hle₂ := hsuffix₂.length_le
  have hle₃ := hskip₂.length_le
  rw [Wp.wp_bind, wp_peek rfl, hs₂, show startsWith (.rparen :: (ts' ++ r)) [')'] = true from rfl,
    if_pos rfl, Wp.wp_bind]
  apply wp_gettoken (hskip₂.rest hs₂)
  intro _ s₃ h₃ hlt₃ _
  have hcloses := hskip₂.trans h₃
  have hto := (hcloses.suffix.trans hsuffix₂).trans hopens.suffix
  refine Wp.wp_mono (parseredirs_complete hrs (by omega) (hto.trans hs) (hcloses.rest hs₂)
    (hr.startsWith_eq_false rfl) hrel₂) ?_
  rintro c₄ s₄ ⟨hs₄, hsuffix₄, hrel₄⟩
  exact ⟨hs₄, hsuffix₄.trans hto, hrel₄⟩

/-- A command that is not a block does not begin with `(`. -/
theorem Redirs.not_lparen {ts ts' r : List (Token Word)} {rs rs' : List (Op × Word)}
    {ws : List Word} (h : Redirs ts rs) (h' : Words ts' ws rs')
    (hr : startsWith r ['('] = false) : startsWith (ts ++ (ts' ++ r)) ['('] = false := by
  cases h with
  | @cons op => cases op <;> rfl
  | nil =>
    cases h' with
    | cons _ _ => rfl
    | nil => exact hr

theorem CompleteAt.exec_succ (h : CompleteAt text n) {ts r : List (Token Word)}
    (hs : s <:+ text) (hn : 4 * s.length + 2 ≤ n + 1) (hexec : Exec ts d)
    (ht : tokens s = ts ++ r) (hr : Follows r ['|', ')', '&', ';']) :
    wp (fun _ => False) (parseexec (n + 1)) (Found text r d s) s := by
  have hskip := consumes_skip s
  have hle := hskip.length_le
  rw [parseexec, Wp.wp_bind, wp_peek rfl]
  cases hexec with
  | block hline hrs =>
    rw [ht, List.cons_append, startsWith_cons]
    refine Wp.wp_mono
      (h.block (hskip.suffix.trans hs) (by omega) hline hrs (hskip.rest ht) hr) ?_
    rintro c₁ s₁ ⟨hs₁, hsuffix₁, hrel₁⟩
    exact ⟨hs₁, hsuffix₁.trans hskip.suffix, hrel₁⟩
  | @simple ts rs ts' ws rs' hrs hws hlen =>
    rw [List.append_assoc] at ht
    have hopen : startsWith (tokens s) ['('] = false := by
      rw [ht]
      exact hrs.not_lparen hws (hr.startsWith_eq_false rfl)
    rw [hopen, if_neg Bool.false_ne_true, Wp.wp_bind]
    have hstop : startsWith (ts' ++ r) ['<', '>'] = false :=
      hws.not_redir (hr.startsWith_eq_false rfl)
    refine Wp.wp_mono (parseredirs_complete hrs (by omega) (hskip.suffix.trans hs)
      (hskip.rest ht) hstop (.exec .nil)) ?_
    rintro c₁ s₁ ⟨hs₁, hsuffix₁, hrel₁⟩
    have hle₁ := hsuffix₁.length_le
    have hto := hsuffix₁.trans hskip.suffix
    refine Wp.wp_mono
      (parseargs_complete hws (by omega) (hto.trans hs) (by omega) hs₁ hr hrel₁) ?_
    rintro c₂ s₂ ⟨hs₂, hsuffix₂, hrel₂⟩
    exact ⟨hs₂, hsuffix₂.trans hto, hrel₂⟩

theorem completeAt (text : Ptr) (n : Nat) : CompleteAt text n := by
  induction n with
  | zero => constructor <;> intros <;> omega
  | succ n ih => exact ⟨ih.line_succ, ih.pipe_succ, ih.exec_succ, ih.block_succ⟩

/-! ## The words as strings -/

section Strings

variable {line : List Char} {x : Span} {w : Word}

theorem Reads.getElem? (h : Reads line x w) {k : Nat} (hk : k < w.length) :
    (line)[line.length - x.1.length + k]? = w[k]? := by
  rw [← List.getElem?_drop, ← List.suffix_iff_eq_drop.mp h.suffix, h.split,
    List.getElem?_append_left hk]

/-- After a word there is no character of a word. -/
theorem Reads.isPlain_eq_false (h : Reads line x w) {a : Char}
    (ha : (line)[line.length - x.2.length]? = some a) : isPlain a = false := by
  have hsuffix : x.2 <:+ line := (h.split ▸ List.suffix_append w x.2).trans h.suffix
  apply h.ends a
  rw [← Nat.add_zero (line.length - x.2.length), ← List.getElem?_drop,
    ← List.suffix_iff_eq_drop.mp hsuffix, ← List.head?_eq_getElem?] at ha
  exact ha

/-- `nulterminate` writes a zero at the end of each word. -/
theorem nulterminate_eq (c : Cmd Span) (buf : List Char) :
    nulterminate c buf = c.words.foldl (fun buf x => store0 buf x.2) buf := by
  induction c generalizing buf with
  | exec argv => rfl
  | redir c file mode fd ih => rw [nulterminate, ih, Cmd.words, List.foldl_append]; rfl
  | pipe l r ihl ihr => rw [nulterminate, ihl, ihr, Cmd.words, List.foldl_append]
  | list l r ihl ihr => rw [nulterminate, ihl, ihr, Cmd.words, List.foldl_append]
  | back c ih => rw [nulterminate, ih, Cmd.words]

theorem length_foldl_store0 (xs : List Span) (buf : List Char) :
    (xs.foldl (fun buf x => store0 buf x.2) buf).length = buf.length := by
  induction xs generalizing buf with
  | nil => rfl
  | cons x xs ih => rw [List.foldl_cons, ih, store0, List.length_set]

theorem getElem?_foldl_of_ne (xs : List Span) (buf : List Char) {i : Nat}
    (h : ∀ x ∈ xs, buf.length - 1 - x.2.length ≠ i) :
    (xs.foldl (fun buf x => store0 buf x.2) buf)[i]? = buf[i]? := by
  induction xs generalizing buf with
  | nil => rfl
  | cons x xs ih =>
    rw [List.foldl_cons, ih, store0, List.getElem?_set_ne (h x List.mem_cons_self)]
    rw [store0, List.length_set]
    exact fun y hy => h y (List.mem_cons_of_mem x hy)

/-- The zero of one word is not undone by the others. -/
theorem getElem?_foldl_of_mem (xs : List Span) (buf : List Char) {x : Span} (hx : x ∈ xs)
    (hb : buf ≠ []) :
    (xs.foldl (fun buf x => store0 buf x.2) buf)[buf.length - 1 - x.2.length]? = some '\x00' := by
  have hpos : 0 < buf.length := List.length_pos_of_ne_nil hb
  induction xs using List.reverseRecOn with
  | nil => cases hx
  | append_singleton xs y ih =>
    rw [List.foldl_append, List.foldl_cons, List.foldl_nil, store0, length_foldl_store0]
    by_cases hxy : buf.length - 1 - y.2.length = buf.length - 1 - x.2.length
    · rw [hxy, List.getElem?_set_self]
      rw [length_foldl_store0]
      omega
    · rw [List.getElem?_set_ne hxy]
      apply ih
      rcases List.mem_append.mp hx with hx | hx
      · exact hx
      · rw [List.mem_singleton.mp hx] at hxy
        exact absurd rfl hxy

theorem takeWhile_eq_of_getElem? {xs : List Char} (hw : '\x00' ∉ w)
    (h : ∀ k < w.length, xs[k]? = w[k]?) (h0 : xs[w.length]? = some '\x00') :
    xs.takeWhile (· ≠ '\x00') = w := by
  induction w generalizing xs with
  | nil =>
    cases xs with
    | nil => rfl
    | cons a xs =>
      cases h0
      rfl
  | cons b w ih =>
    cases xs with
    | nil => cases h0
    | cons a xs =>
      have hab : a = b := Option.some.inj (h 0 (Nat.succ_pos _))
      subst hab
      have ha : a ≠ '\x00' := fun ha => hw (ha ▸ List.mem_cons_self)
      rw [List.takeWhile_cons_of_pos (by simpa using ha)]
      congr 1
      apply ih
      · exact fun hmem => hw (List.mem_cons_of_mem a hmem)
      · exact fun k hk => h (k + 1) (Nat.succ_lt_succ hk)
      · exact h0

/-- `nulterminate` makes strings of the words. -/
theorem stringAt_nulterminate (h : Reads line x w) (hx : x ∈ c.words)
    (hc : ∀ y ∈ c.words, ∃ v, Reads line y v) (h0 : '\x00' ∉ line) :
    stringAt (nulterminate c (line ++ ['\x00'])) x = w := by
  have hlen : (line ++ ['\x00']).length - 1 = line.length := by simp
  have hle : w.length + x.2.length = x.1.length := by rw [h.split, List.length_append]
  have hle' := h.suffix.length_le
  rw [stringAt, nulterminate_eq, length_foldl_store0, hlen]
  apply takeWhile_eq_of_getElem?
  · intro hmem
    apply h0
    apply h.suffix.subset
    rw [h.split]
    exact List.mem_append_left _ hmem
  · intro k hk
    have hlt : line.length - x.1.length + k < line.length := by omega
    rw [List.getElem?_drop, getElem?_foldl_of_ne, List.getElem?_append_left hlt, h.getElem? hk]
    -- a store inside the word would be after a word
    intro y hy he
    rw [hlen] at he
    obtain ⟨v, hv⟩ := hc y hy
    have hk' := h.getElem? hk
    rw [List.getElem?_eq_getElem hk, ← he] at hk'
    have hplain := h.plain _ (List.getElem_mem hk)
    rw [hv.isPlain_eq_false hk'] at hplain
    cases hplain
  · have hend : line.length - x.1.length + w.length =
        (line ++ ['\x00']).length - 1 - x.2.length := by
      omega
    rw [List.getElem?_drop, hend]
    exact getElem?_foldl_of_mem c.words _ hx (by simp)

end Strings

/-! ## The parser accepts its grammar -/

theorem parsecmd_eq (fuel : Nat) (line : List Char) :
    parsecmd fuel line = match parseline fuel line with
      | .ok (c, s) =>
        if skip s ≠ [] then .error (.panic "syntax")
        else .ok (c, nulterminate c (line ++ ['\x00']))
      | .error e => .error e := by
  have hrun : (do
      let cmd ← parseline fuel
      let _ ← peek []
      return cmd : Parser (Cmd Span)) line =
        (parseline fuel line).bind fun x => .ok (x.1, skip x.2) := rfl
  rw [parsecmd, hrun]
  cases parseline fuel line with
  | ok x => rfl
  | error e => rfl

theorem parsecmd_sound {line : List Char} {fuel : Nat} (hf : 4 * line.length + 4 ≤ fuel)
    {c : Cmd Span} {buf : List Char} (h : parsecmd fuel line = .ok (c, buf)) :
    ∃ d, Line (tokens line) d ∧ Cmd.Rel (Reads line) c d ∧
      buf = nulterminate c (line ++ ['\x00']) := by
  rw [parsecmd_eq] at h
  cases hl : parseline fuel line with
  | error e =>
    rw [hl] at h
    cases h
  | ok x =>
    rw [hl] at h
    dsimp only at h
    split_ifs at h with hskip
    cases h
    obtain ⟨ts, d, hcons, hline, hrel⟩ := Wp.wp_ok ((soundAt line fuel).line List.suffix_rfl hf) hl
    refine ⟨d, ?_, hrel, rfl⟩
    rw [hcons.tokens, skip_eq_nil_iff.mp (not_not.mp hskip), List.append_nil]
    exact hline

/-- **The parser accepts exactly its grammar.**  With enough fuel `parsecmd` returns or panics, and
it returns if and only if the tokens of the line have a derivation; the command it returns, with its
words read from the buffer, is the one of the derivation. -/
theorem parsecmd_iff {line : List Char} {fuel : Nat} (h0 : '\x00' ∉ line)
    (hf : 4 * line.length + 4 ≤ fuel) :
    parsecmd fuel line ≠ .error .fuel ∧
      ∀ t, (∃ c buf, parsecmd fuel line = .ok (c, buf) ∧ c.map (stringAt buf) = t) ↔
        Line (tokens line) t := by
  have hsound := (soundAt line fuel).line List.suffix_rfl hf
  have hstrings : ∀ {c d}, Cmd.Rel (Reads line) c d →
      c.map (stringAt (nulterminate c (line ++ ['\x00']))) = d := by
    intro c d hrel
    exact hrel.map_eq fun x hx w hw => stringAt_nulterminate hw hx hrel.of_mem h0
  refine ⟨?_, fun t => ⟨?_, ?_⟩⟩
  · rw [parsecmd_eq]
    cases hp : parseline fuel line with
    | ok x =>
      dsimp only
      split_ifs <;> nofun
    | error e =>
      intro he
      cases he
      exact Wp.wp_error hsound hp rfl
  · rintro ⟨c, buf, hp, rfl⟩
    obtain ⟨d, hline, hrel, rfl⟩ := parsecmd_sound hf hp
    rw [hstrings hrel]
    exact hline
  · intro hline
    have hcomplete := (completeAt line fuel).line List.suffix_rfl hf hline
      (List.append_nil _).symm (.inl rfl)
    obtain ⟨c, s', hl, hs', -, hrel⟩ := Wp.exists_ok hcomplete
    refine ⟨c, _, ?_, hstrings hrel⟩
    rw [parsecmd_eq, hl]
    dsimp only
    rw [if_neg (not_not.mpr (skip_eq_nil_iff.mpr hs'))]

/-- `(a b> x|c) >>y &; d` -/
def nestedLine : List Char :=
  ['(', 'a', ' ', 'b', '>', ' ', 'x', '|', 'c', ')', ' ', '>', '>', 'y', ' ', '&', ';', ' ', 'd',
    '\n']

def nestedCmd : Cmd Word :=
  .list
    (.back (.redir (.pipe (.redir (.exec [['a'], ['b']]) ['x'] 0x201 1) (.exec [['c']]))
    ['y'] 0x201 1)) (.exec [['d']])

theorem parsecmd_iff_nested :
    (∃ c buf, parsecmd 84 nestedLine = .ok (c, buf) ∧ c.map (stringAt buf) = nestedCmd) ∧
      Line (tokens nestedLine) nestedCmd := by
  have hrun : (parsecmd 84 nestedLine).toOption.map (fun x => x.1.map (stringAt x.2)) =
      some nestedCmd := by decide +kernel
  obtain ⟨x, hx, hmap⟩ := Option.map_eq_some_iff.mp hrun
  have hok : ∃ c buf, parsecmd 84 nestedLine = .ok (c, buf) ∧ c.map (stringAt buf) = nestedCmd := by
    cases hp : parsecmd 84 nestedLine with
    | ok y =>
      rw [hp] at hx
      cases hx
      exact ⟨_, _, rfl, hmap⟩
    | error e =>
      rw [hp] at hx
      cases hx
  exact ⟨hok, ((parsecmd_iff (by decide) (by decide)).2 nestedCmd).mp hok⟩

end Xv6Mlfq.Shell
