import Mathlib.Data.List.Basic
import Mathlib.Tactic.Common

/-!
# The language of the shell

A command line is a sequence of tokens: words, which are maximal runs of characters that are neither
blanks nor symbols, and symbols, where `>>` is one token.  The grammar is

    line  ::= pipe '&'* [';' line]
    pipe  ::= exec ['|' pipe]
    exec  ::= '(' line ')' redir* | redir* (word redir*)*
    redir ::= ('<' | '>' | '>>') word

with fewer than `MAXARGS` words in each `exec`, and a derivation has a command: pipes and lists nest
to the right, and redirections are wrapped around a command in their order.

## Main definitions

* `Cmd` — the commands of `sh.c`, over any type of words.
* `tokens` — the tokens of a line.
* `Line`, `Pipe`, `Exec` — the derivations, with their commands.
-/

namespace Xv6Mlfq.Shell

/-- The most entries of `argv`, with the null pointer at its end. -/
abbrev MAXARGS : Nat := 10

/-! ## Commands -/

/-- `struct cmd`, with words of type `W`. -/
inductive Cmd (W : Type)
  | exec (argv : List W)
  | redir (cmd : Cmd W) (file : W) (mode fd : Nat)
  | pipe (left right : Cmd W)
  | list (left right : Cmd W)
  | back (cmd : Cmd W)
  deriving DecidableEq

namespace Cmd

variable {V W : Type}

def map (f : V → W) : Cmd V → Cmd W
  | exec argv => exec (argv.map f)
  | redir c file mode fd => redir (c.map f) (f file) mode fd
  | pipe l r => pipe (l.map f) (r.map f)
  | list l r => list (l.map f) (r.map f)
  | back c => back (c.map f)

/-- The words of a command. -/
def words : Cmd W → List W
  | exec argv => argv
  | redir c file _ _ => c.words ++ [file]
  | pipe l r => l.words ++ r.words
  | list l r => l.words ++ r.words
  | back c => c.words

/-- The same command with related words. -/
inductive Rel (R : V → W → Prop) : Cmd V → Cmd W → Prop
  | exec {xs ys} : List.Forall₂ R xs ys → Rel R (.exec xs) (.exec ys)
  | redir {c d x y mode fd} : Rel R c d → R x y → Rel R (.redir c x mode fd) (.redir d y mode fd)
  | pipe {l l' r r'} : Rel R l l' → Rel R r r' → Rel R (.pipe l r) (.pipe l' r')
  | list {l l' r r'} : Rel R l l' → Rel R r r' → Rel R (.list l r) (.list l' r')
  | back {c d} : Rel R c d → Rel R (.back c) (.back d)

/-- What the words of a command are read as gives the related command. -/
theorem Rel.map_eq {R : V → W → Prop} {f : V → W} {c : Cmd V} {d : Cmd W} (h : Rel R c d)
    (hf : ∀ x ∈ c.words, ∀ y, R x y → f x = y) : c.map f = d := by
  induction h with
  | exec h =>
    rw [map]
    congr 1
    induction h with
    | nil => rfl
    | cons hxy _ ih =>
      rw [List.map_cons, hf _ List.mem_cons_self _ hxy,
        ih fun x hx => hf x (List.mem_cons_of_mem _ hx)]
  | redir _ hxy ih =>
    rw [map, ih fun x hx => hf x (List.mem_append_left _ hx),
      hf _ (List.mem_append_right _ List.mem_cons_self) _ hxy]
  | pipe _ _ ihl ihr =>
    rw [map, ihl fun x hx => hf x (List.mem_append_left _ hx),
      ihr fun x hx => hf x (List.mem_append_right _ hx)]
  | list _ _ ihl ihr =>
    rw [map, ihl fun x hx => hf x (List.mem_append_left _ hx),
      ihr fun x hx => hf x (List.mem_append_right _ hx)]
  | back _ ih => rw [map, ih hf]

/-- Every word of a command is related to one. -/
theorem Rel.of_mem {R : V → W → Prop} {c : Cmd V} {d : Cmd W} (h : Rel R c d) :
    ∀ x ∈ c.words, ∃ y, R x y := by
  induction h with
  | exec h =>
    intro x hx
    induction h with
    | nil => cases hx
    | cons hxy _ ih =>
      rcases List.mem_cons.mp hx with rfl | hx
      · exact ⟨_, hxy⟩
      · exact ih hx
  | redir _ hxy ih =>
    intro x hx
    rcases List.mem_append.mp hx with hx | hx
    · exact ih x hx
    · rw [List.mem_singleton.mp hx]
      exact ⟨_, hxy⟩
  | pipe _ _ ihl ihr =>
    intro x hx
    exact (List.mem_append.mp hx).elim (ihl x) (ihr x)
  | list _ _ ihl ihr =>
    intro x hx
    exact (List.mem_append.mp hx).elim (ihl x) (ihr x)
  | back _ ih => exact ih

end Cmd

/-! ## Tokens -/

def whitespace : List Char := [' ', '\t', '\r', '\n', '\x0b']

def symbols : List Char := ['<', '|', '>', '&', ';', '(', ')']

def isBlank (c : Char) : Bool := whitespace.contains c

/-- A character of a word. -/
def isPlain (c : Char) : Bool := !whitespace.contains c && !symbols.contains c

/-- The kinds of redirection: `<`, `>` and `>>`. -/
inductive Op
  | read
  | write
  | append
  deriving DecidableEq

/-- The tokens, with words of type `W`. -/
inductive Token (W : Type)
  | bar
  | lparen
  | rparen
  | semi
  | amp
  | redir (op : Op)
  | word (w : W)
  deriving DecidableEq

abbrev Word := List Char

/-- The tokens of a line. -/
def tokens : List Char → List (Token Word)
  | [] => []
  | '|' :: cs => .bar :: tokens cs
  | '(' :: cs => .lparen :: tokens cs
  | ')' :: cs => .rparen :: tokens cs
  | ';' :: cs => .semi :: tokens cs
  | '&' :: cs => .amp :: tokens cs
  | '<' :: cs => .redir .read :: tokens cs
  | '>' :: '>' :: cs => .redir .append :: tokens cs
  | '>' :: cs => .redir .write :: tokens cs
  | c :: cs =>
    if isBlank c then tokens cs
    else .word (c :: cs.takeWhile isPlain) :: tokens (cs.dropWhile isPlain)
termination_by cs => cs.length
decreasing_by
  all_goals simp only [List.length_cons]
  all_goals try omega
  exact Nat.lt_succ_of_le (List.dropWhile_suffix isPlain).length_le

/-! ## The grammar -/

/-- `open` with this mode, for this file descriptor. -/
def Op.mode : Op → Nat
  | .read => 0x000
  | .write | .append => 0x201

def Op.fd : Op → Nat
  | .read => 0
  | .write | .append => 1

variable {W : Type}

/-- Redirections, the first innermost. -/
def wrap (c : Cmd W) (rs : List (Op × W)) : Cmd W :=
  rs.foldl (fun c r => .redir c r.2 r.1.mode r.1.fd) c

/-- A command followed by so many `&`. -/
def backs : Nat → Cmd W → Cmd W
  | 0, c => c
  | n + 1, c => backs n (.back c)

/-- `redir*` -/
inductive Redirs : List (Token W) → List (Op × W) → Prop
  | nil : Redirs [] []
  | cons {op w ts rs} : Redirs ts rs → Redirs (.redir op :: .word w :: ts) ((op, w) :: rs)

/-- `(word redir*)*` -/
inductive Words : List (Token W) → List W → List (Op × W) → Prop
  | nil : Words [] [] []
  | cons {w ts rs ts' ws rs'} : Redirs ts rs → Words ts' ws rs' →
      Words (.word w :: (ts ++ ts')) (w :: ws) (rs ++ rs')

mutual

inductive Line : List (Token W) → Cmd W → Prop
  | last {ts c} (n : Nat) : Pipe ts c → Line (ts ++ List.replicate n .amp) (backs n c)
  | cons {ts c ts' c'} (n : Nat) : Pipe ts c → Line ts' c' →
      Line (ts ++ (List.replicate n .amp ++ .semi :: ts')) (.list (backs n c) c')

inductive Pipe : List (Token W) → Cmd W → Prop
  | last {ts c} : Exec ts c → Pipe ts c
  | cons {ts c ts' c'} : Exec ts c → Pipe ts' c' → Pipe (ts ++ .bar :: ts') (.pipe c c')

inductive Exec : List (Token W) → Cmd W → Prop
  | block {ts c ts' rs} : Line ts c → Redirs ts' rs →
      Exec (.lparen :: (ts ++ .rparen :: ts')) (wrap c rs)
  | simple {ts rs ts' ws rs'} : Redirs ts rs → Words ts' ws rs' → ws.length < MAXARGS →
      Exec (ts ++ ts') (wrap (.exec ws) (rs ++ rs'))

end

end Xv6Mlfq.Shell
