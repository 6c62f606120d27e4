import Xv6Mlfq.Lib.Wp
import Xv6Mlfq.Shell.Grammar

/-!
# The parser of the shell

`sh.c`, from `gettoken` to `nulterminate`.  A pointer into the line is what is left of the line
from there, and `es` is the empty rest, where the line has its NUL.  A word of a command is a pair
of pointers, `q` to its start and `eq` to its end.  `malloc` succeeds.  The functions have fuel, one
unit for each call and each round of a loop.

## Main definitions

* `gettoken`, `peek`, `parseline`, `parsepipe`, `parseredirs`, `parseblock`, `parseexec`,
  `nulterminate`, `parsecmd` — as in `sh.c`.

## Main results

* `wp_peek`, `wp_gettoken` — the two in terms of the tokens from the cursor on.
-/

namespace Xv6Mlfq.Shell

open Wp (Prog wp)

/-- A panic, or no fuel is left. -/
inductive Fault
  | panic (msg : String)
  | fuel
  deriving DecidableEq

abbrev Ptr := List Char

/-- A word of the line, from `q` to `eq`. -/
abbrev Span := Ptr × Ptr

/-- `while(s < es && strchr(whitespace, *s)) s++` -/
def skip (s : Ptr) : Ptr := s.dropWhile isBlank

/-- The functions of the parser: the state is `*ps`. -/
abbrev Parser (α : Type) := Prog Ptr Fault α

/-- What it returns, with `q` and `eq`. -/
def gettoken : Parser (Char × Span) := fun s =>
  let q := skip s
  let done (ret : Char) (eq : Ptr) := .ok ((ret, q, eq), skip eq)
  match q with
  | [] => done '\x00' []
  | '|' :: s => done '|' s
  | '(' :: s => done '(' s
  | ')' :: s => done ')' s
  | ';' :: s => done ';' s
  | '&' :: s => done '&' s
  | '<' :: s => done '<' s
  | '>' :: '>' :: s => done '+' s
  | '>' :: s => done '>' s
  | s => done 'a' (s.dropWhile isPlain)

def peek (toks : List Char) : Parser Bool := fun s =>
  let s := skip s
  .ok (match s with
    | [] => false
    | c :: _ => toks.contains c, s)

/-- `argv[argc] = q; eargv[argc] = eq`, in the command inside the redirections. -/
def Cmd.addArg {W : Type} (w : W) : Cmd W → Cmd W
  | .exec argv => .exec (argv ++ [w])
  | .redir c file mode fd => .redir (c.addArg w) file mode fd
  | c => c

def parseredirs : Nat → Cmd Span → Parser (Cmd Span)
  | 0, _ => throw .fuel
  | n + 1, cmd => do
      if ← peek ['<', '>'] then
        let (tok, _) ← gettoken
        let (word, x) ← gettoken
        if word ≠ 'a' then throw (.panic "missing file for redirection")
        else
          match tok with
          | '<' => parseredirs n (.redir cmd x 0x000 0)
          | '>' => parseredirs n (.redir cmd x 0x201 1)
          | '+' => parseredirs n (.redir cmd x 0x201 1)
          | _ => parseredirs n cmd
      else return cmd

/-- The loop of `parseexec`. -/
def parseargs : Nat → Nat → Cmd Span → Parser (Cmd Span)
  | 0, _, _ => throw .fuel
  | n + 1, argc, ret => do
      if ← peek ['|', ')', '&', ';'] then return ret
      else
        let (tok, x) ← gettoken
        if tok = '\x00' then return ret
        else if tok ≠ 'a' then throw (.panic "syntax")
        else if MAXARGS ≤ argc + 1 then throw (.panic "too many args")
        else
          let ret ← parseredirs n (ret.addArg x)
          parseargs n (argc + 1) ret

/-- The loop of `parseline`. -/
def parsebacks : Nat → Cmd Span → Parser (Cmd Span)
  | 0, _ => throw .fuel
  | n + 1, cmd => do
      if ← peek ['&'] then
        let _ ← gettoken
        parsebacks n (.back cmd)
      else return cmd

mutual

def parseline : Nat → Parser (Cmd Span)
  | 0 => throw .fuel
  | n + 1 => do
      let cmd ← parsepipe n
      let cmd ← parsebacks n cmd
      if ← peek [';'] then
        let _ ← gettoken
        let rest ← parseline n
        return .list cmd rest
      else return cmd

def parsepipe : Nat → Parser (Cmd Span)
  | 0 => throw .fuel
  | n + 1 => do
      let cmd ← parseexec n
      if ← peek ['|'] then
        let _ ← gettoken
        let rest ← parsepipe n
        return .pipe cmd rest
      else return cmd

def parseblock : Nat → Parser (Cmd Span)
  | 0 => throw .fuel
  | n + 1 => do
      if ← peek ['('] then
        let _ ← gettoken
        let cmd ← parseline n
        if ← peek [')'] then
          let _ ← gettoken
          parseredirs n cmd
        else throw (.panic "syntax - missing )")
      else throw (.panic "parseblock")

def parseexec : Nat → Parser (Cmd Span)
  | 0 => throw .fuel
  | n + 1 => do
      if ← peek ['('] then parseblock n
      else
        let ret ← parseredirs n (.exec [])
        parseargs n 0 ret

end

/-- `*p = 0`; the buffer has the line and a NUL. -/
def store0 (buf : List Char) (p : Ptr) : List Char := buf.set (buf.length - 1 - p.length) '\x00'

def nulterminate : Cmd Span → List Char → List Char
  | .exec argv, buf => argv.foldl (fun buf x => store0 buf x.2) buf
  | .redir c file _ _, buf => store0 (nulterminate c buf) file.2
  | .pipe l r, buf => nulterminate r (nulterminate l buf)
  | .list l r, buf => nulterminate r (nulterminate l buf)
  | .back c, buf => nulterminate c buf

/-- The command, and the buffer that its words point into. -/
def parsecmd (fuel : Nat) (line : List Char) : Except Fault (Cmd Span × List Char) := do
  let (cmd, s) ← (do
    let cmd ← parseline fuel
    let _ ← peek []
    return cmd : Parser (Cmd Span)) line
  if s ≠ [] then throw (.panic "syntax")
  else return (cmd, nulterminate cmd (line ++ ['\x00']))

/-- The string at `argv[i]` or `file`. -/
def stringAt (buf : List Char) (x : Span) : List Char :=
  (buf.drop (buf.length - 1 - x.1.length)).takeWhile (· ≠ '\x00')

/-! ## The cursor and the tokens -/

/-- The symbol that a token starts with. -/
def Token.symbol {W : Type} : Token W → Option Char
  | .bar => some '|'
  | .lparen => some '('
  | .rparen => some ')'
  | .semi => some ';'
  | .amp => some '&'
  | .redir .read => some '<'
  | .redir _ => some '>'
  | .word _ => none

/-- What `gettoken` returns. -/
def Token.code {W : Type} : Token W → Char
  | .bar => '|'
  | .lparen => '('
  | .rparen => ')'
  | .semi => ';'
  | .amp => '&'
  | .redir .read => '<'
  | .redir .write => '>'
  | .redir .append => '+'
  | .word _ => 'a'

theorem tokens_blank {c : Char} (cs : List Char) (h : isBlank c = true) :
    tokens (c :: cs) = tokens cs := by
  have hc : c ∈ whitespace := List.contains_iff_mem.mp h
  simp only [whitespace, List.mem_cons, List.not_mem_nil, or_false] at hc
  rcases hc with rfl | rfl | rfl | rfl | rfl <;> simp [tokens, isBlank, whitespace]

theorem tokens_plain {c : Char} (cs : List Char) (h : isPlain c = true) :
    tokens (c :: cs) =
      .word (c :: cs.takeWhile isPlain) :: tokens (cs.dropWhile isPlain) := by
  have hb : isBlank c = false := by
    rw [isPlain, Bool.and_eq_true] at h
    simpa [isBlank] using h.1
  have hne : ∀ d, isPlain d = false → c ≠ d := by
    rintro d hd rfl
    rw [h] at hd
    cases hd
  rw [tokens, if_neg (by simp [hb])]
  case x_7 => exact fun _ hc _ => hne '>' rfl hc
  all_goals exact hne _ rfl

theorem tokens_skip (s : Ptr) : tokens (skip s) = tokens s := by
  induction s with
  | nil => rfl
  | cons c cs ih =>
    by_cases hc : isBlank c = true
    · rw [skip, List.dropWhile_cons_of_pos hc, tokens_blank cs hc]
      exact ih
    · rw [skip, List.dropWhile_cons_of_neg hc]

theorem skip_suffix (s : Ptr) : skip s <:+ s := List.dropWhile_suffix _

theorem not_isBlank_of_skip {s cs : Ptr} {c : Char} (h : skip s = c :: cs) : isBlank c = false := by
  have hhead := List.head?_dropWhile_not isBlank s
  rw [show s.dropWhile isBlank = c :: cs from h] at hhead
  exact hhead

/-- What is at the cursor after the blanks: the end, a symbol, or a word. -/
inductive Front (s : Ptr) : Prop
  | eof (hs : skip s = []) (ht : tokens s = [])
  | symbol {c cs rest} (t : Token Word) (hs : skip s = c :: cs) (hc : t.symbol = some c)
      (ht : tokens s = t :: tokens rest)
      (hg : gettoken s = .ok ((t.code, c :: cs, rest), skip rest)) (hr : rest <:+ cs)
  | word {c cs} (hs : skip s = c :: cs) (hc : isPlain c = true)
      (ht : tokens s = .word (c :: cs.takeWhile isPlain) :: tokens (cs.dropWhile isPlain))
      (hg : gettoken s =
        .ok (('a', c :: cs, cs.dropWhile isPlain), skip (cs.dropWhile isPlain)))

theorem front_symbol {s cs : Ptr} {c : Char} (hs : skip s = c :: cs) (hc : c ∈ symbols) :
    Front s := by
  have ht := tokens_skip s
  rw [hs] at ht
  simp only [symbols, List.mem_cons, List.not_mem_nil, or_false] at hc
  rcases hc with rfl | rfl | rfl | rfl | rfl | rfl | rfl
  · refine .symbol (.redir .read) hs rfl ?_ ?_ List.suffix_rfl
    · rw [← ht, tokens]
    · simp [gettoken, hs, Token.code]
  · refine .symbol .bar hs rfl ?_ ?_ List.suffix_rfl
    · rw [← ht, tokens]
    · simp [gettoken, hs, Token.code]
  · -- the only symbol with two characters
    by_cases h2 : ∃ rest, cs = '>' :: rest
    · obtain ⟨rest, rfl⟩ := h2
      refine .symbol (.redir .append) hs rfl ?_ ?_ (List.suffix_cons _ _)
      · rw [← ht, tokens]
      · simp [gettoken, hs, Token.code]
    · refine .symbol (.redir .write) hs rfl ?_ ?_ List.suffix_rfl
      · rw [← ht, tokens]
        exact fun rest he => h2 ⟨rest, he⟩
      · have hne : ∀ rest, cs ≠ '>' :: rest := fun rest he => h2 ⟨rest, he⟩
        simp [gettoken, hs, Token.code]
  · refine .symbol .amp hs rfl ?_ ?_ List.suffix_rfl
    · rw [← ht, tokens]
    · simp [gettoken, hs, Token.code]
  · refine .symbol .semi hs rfl ?_ ?_ List.suffix_rfl
    · rw [← ht, tokens]
    · simp [gettoken, hs, Token.code]
  · refine .symbol .lparen hs rfl ?_ ?_ List.suffix_rfl
    · rw [← ht, tokens]
    · simp [gettoken, hs, Token.code]
  · refine .symbol .rparen hs rfl ?_ ?_ List.suffix_rfl
    · rw [← ht, tokens]
    · simp [gettoken, hs, Token.code]

theorem front_plain {s cs : Ptr} {c : Char} (hs : skip s = c :: cs) (hc : isPlain c = true) :
    Front s := by
  have ht := tokens_skip s
  rw [hs, tokens_plain cs hc] at ht
  refine .word hs hc ht.symm ?_
  simp only [gettoken, hs]
  split
  case h_10 => rw [List.dropWhile_cons_of_pos hc]
  all_goals next he =>
    cases he
    all_goals cases hc

theorem front (s : Ptr) : Front s := by
  cases hs : skip s with
  | nil =>
    have ht := tokens_skip s
    rw [hs, tokens] at ht
    exact .eof hs ht.symm
  | cons c cs =>
    by_cases hc : c ∈ symbols
    · exact front_symbol hs hc
    · apply front_plain hs
      have hb : whitespace.contains c = false := not_isBlank_of_skip hs
      have hsym : symbols.contains c = false := by simpa using hc
      rw [isPlain, hb, hsym]
      rfl

/-- The span is in the line, and is the word `w`, to its end. -/
structure Reads (line : Ptr) (x : Span) (w : Word) : Prop where
  suffix : x.1 <:+ line
  split : x.1 = w ++ x.2
  plain : ∀ c ∈ w, isPlain c = true
  ends : ∀ c ∈ x.2.head?, isPlain c = false

/-- The tokens from one place of the cursor to another. -/
structure Consumes (s : Ptr) (ts : List (Token Word)) (s' : Ptr) : Prop where
  tokens : tokens s = ts ++ tokens s'
  suffix : s' <:+ s

theorem consumes_skip (s : Ptr) : Consumes s [] (skip s) := ⟨(tokens_skip s).symm, skip_suffix s⟩

theorem Consumes.trans {s s' s'' : Ptr} {ts ts' : List (Token Word)} (h : Consumes s ts s')
    (h' : Consumes s' ts' s'') : Consumes s (ts ++ ts') s'' where
  tokens := by rw [h.tokens, h'.tokens, List.append_assoc]
  suffix := h'.suffix.trans h.suffix

theorem Consumes.rest {s s' : Ptr} {ts r : List (Token Word)} (h : Consumes s ts s')
    (ht : Shell.tokens s = ts ++ r) : Shell.tokens s' = r :=
  List.append_cancel_left (h.tokens.symm.trans ht)

theorem Consumes.length_le {s s' : Ptr} {ts : List (Token Word)} (h : Consumes s ts s') :
    s'.length ≤ s.length :=
  h.suffix.length_le

theorem Reads.mono {line line' : Ptr} {x : Span} {w : Word} (h : Reads line x w)
    (hl : line <:+ line') : Reads line' x w :=
  { h with suffix := h.suffix.trans hl }

variable {F : Fault → Prop} {s : Ptr}

theorem consumes_rest {s rest cs : Ptr} {c : Char} {t : Token Word} (hs : skip s = c :: cs)
    (hr : rest <:+ cs) (ht : tokens s = t :: tokens rest) :
    Consumes s [t] (skip rest) ∧ (skip rest).length < s.length := by
  have hcs : c :: cs <:+ s := hs ▸ skip_suffix s
  have hrest : skip rest <:+ cs := (skip_suffix rest).trans hr
  refine ⟨⟨?_, hrest.trans ((List.suffix_cons c cs).trans hcs)⟩, ?_⟩
  · rw [ht, tokens_skip]
    rfl
  · have h1 := hrest.length_le
    have h2 := hcs.length_le
    rw [List.length_cons] at h2
    omega

theorem reads_word {s cs : Ptr} {c : Char} (hs : skip s = c :: cs) (hc : isPlain c = true) :
    Reads s (c :: cs, cs.dropWhile isPlain) (c :: cs.takeWhile isPlain) := by
  constructor
  case suffix => exact hs ▸ skip_suffix s
  case split => rw [List.cons_append, List.takeWhile_append_dropWhile]
  case plain =>
    intro d hd
    rcases List.mem_cons.mp hd with rfl | hd
    · exact hc
    · exact List.all_eq_true.mp List.all_takeWhile d hd
  case ends =>
    intro d hd
    have hhead := List.head?_dropWhile_not isPlain cs
    rw [show (cs.dropWhile isPlain).head? = some d from hd] at hhead
    exact hhead

/-- `gettoken` takes the first token. -/
theorem wp_gettoken {Q : Char × Span → Ptr → Prop} {t : Token Word} {ts : List (Token Word)}
    (h : tokens s = t :: ts)
    (hQ : ∀ x s', Consumes s [t] s' → s'.length < s.length → (∀ w, t = .word w → Reads s x w) →
      Q (t.code, x) s') :
    wp F gettoken Q s := by
  cases front s with
  | eof hs ht =>
    rw [ht] at h
    cases h
  | symbol t' hs hc ht hg hr =>
    obtain ⟨hcons, hlt⟩ := consumes_rest hs hr ht
    rw [ht] at h
    cases h
    rw [Wp.wp_of_ok hg]
    refine hQ _ _ hcons hlt ?_
    rintro w rfl
    cases hc
  | @word c cs hs hc ht hg =>
    obtain ⟨hcons, hlt⟩ := consumes_rest hs (List.dropWhile_suffix isPlain) ht
    rw [ht] at h
    cases h
    rw [Wp.wp_of_ok hg]
    refine hQ _ _ hcons hlt ?_
    intro w hw
    cases hw
    exact reads_word hs hc

theorem wp_gettoken_eof {Q : Char × Span → Ptr → Prop} (h : tokens s = [])
    (hQ : Q ('\x00', [], []) []) : wp F gettoken Q s := by
  cases front s with
  | eof hs ht =>
    have hg : gettoken s = .ok (('\x00', [], []), []) := by
      simp only [gettoken, hs]
      rfl
    rwa [Wp.wp_of_ok hg]
  | symbol t hs hc ht hg hr =>
    rw [h] at ht
    cases ht
  | word hs hc ht hg =>
    rw [h] at ht
    cases ht

theorem skip_eq_nil_iff {s : Ptr} : skip s = [] ↔ tokens s = [] := by
  cases front s with
  | eof hs ht => simp [hs, ht]
  | symbol t hs hc ht hg hr => simp [hs, ht]
  | word hs hc ht hg => simp [hs, ht]

/-- The next token starts with one of these symbols. -/
def startsWith (ts : List (Token Word)) (toks : List Char) : Bool :=
  match ts.head?.bind Token.symbol with
  | none => false
  | some c => toks.contains c

/-- `peek` looks at the first token. -/
theorem wp_peek {Q : Bool → Ptr → Prop} {toks : List Char}
    (h : toks.all symbols.contains = true) :
    wp F (peek toks) Q s ↔ Q (startsWith (tokens s) toks) (skip s) := by
  have hp : peek toks s = .ok (startsWith (tokens s) toks, skip s) := by
    rw [peek]
    congr 2
    cases front s with
    | eof hs ht =>
      rw [hs, ht]
      rfl
    | symbol t hs hc ht hg hr => simp [hs, ht, startsWith, hc]
    | @word c cs hs hc ht hg =>
      have hnot : c ∉ toks := by
        intro hmem
        have hsym := List.all_eq_true.mp h c hmem
        rw [isPlain, hsym, Bool.not_true, Bool.and_false] at hc
        cases hc
      simp [hs, ht, startsWith, Token.symbol, hnot]
  rw [Wp.wp_of_ok hp]

end Xv6Mlfq.Shell
