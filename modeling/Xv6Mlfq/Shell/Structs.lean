import Xv6Mlfq.Shell.Correct
import Mathlib.Data.List.FinRange

/-!
# The structs of the parser, and their strings

`struct execcmd` has two arrays of `MAXARGS` pointers, which `parseexec` fills and ends with a null
pointer, and the loop of `nulterminate` runs to this null pointer.  The functions of `sh.c` are here
with the arrays, and the pointers `file` and `efile`; they do the same as those on lists, and the
arrays hold the list.

## Main definitions

* `Node` — `struct cmd`.
* `Structs.parseline`, …, `Structs.nulterminate`, `Structs.parsecmd` — as in `sh.c`.
* `Cmd.node` — the structs of a command.
* `Node.Sound` — the arrays end with a null pointer, and the pointers lead to strings.

## Main results

* `Structs.parsecmd_eq` — the parser returns the structs of the command.
* `nulterminate_sound` — the strings are the tokens.
-/

namespace Xv6Mlfq.Shell

open Function (update)
open Wp (wp)

/-- `char *argv[MAXARGS]` -/
abbrev Args := Fin MAXARGS → Option Ptr

/-- `struct cmd` -/
inductive Node
  | exec (argv eargv : Args)
  | redir (cmd : Node) (file efile : Ptr) (mode fd : Nat)
  | pipe (left right : Node)
  | list (left right : Node)
  | back (cmd : Node)

/-- `cmd->argv[argc] = q; cmd->eargv[argc] = eq`, in the command inside the redirections. -/
def Node.setArg (argc : Fin MAXARGS) (q eq : Option Ptr) : Node → Node
  | .exec argv eargv => .exec (update argv argc q) (update eargv argc eq)
  | .redir c file efile mode fd => .redir (c.setArg argc q eq) file efile mode fd
  | c => c

/-- A fault, or an access outside an array or through a null pointer. -/
inductive Stop
  | fault (e : Fault)
  | outside

namespace Structs

def execcmd : Node := .exec (fun _ => none) fun _ => none

def parseredirs : Nat → Node → Parser Node
  | 0, _ => throw .fuel
  | n + 1, cmd => do
      if ← peek ['<', '>'] then
        let (tok, _) ← gettoken
        let (word, q, eq) ← gettoken
        if word ≠ 'a' then throw (.panic "missing file for redirection")
        else
          match tok with
          | '<' => parseredirs n (.redir cmd q eq 0x000 0)
          | '>' => parseredirs n (.redir cmd q eq 0x201 1)
          | '+' => parseredirs n (.redir cmd q eq 0x201 1)
          | _ => parseredirs n cmd
      else return cmd

/-- The loop of `parseexec`. -/
def parseargs : Nat → Fin MAXARGS → Node → Parser (Fin MAXARGS × Node)
  | 0, _, _ => throw .fuel
  | n + 1, argc, ret => do
      if ← peek ['|', ')', '&', ';'] then return (argc, ret)
      else
        let (tok, q, eq) ← gettoken
        if tok = '\x00' then return (argc, ret)
        else if tok ≠ 'a' then throw (.panic "syntax")
        else
          let ret := ret.setArg argc (some q) (some eq)
          if h : argc + 1 < MAXARGS then
            let ret ← parseredirs n ret
            parseargs n ⟨argc + 1, h⟩ ret
          else throw (.panic "too many args")

/-- The loop of `parseline`. -/
def parsebacks : Nat → Node → Parser Node
  | 0, _ => throw .fuel
  | n + 1, cmd => do
      if ← peek ['&'] then
        let _ ← gettoken
        parsebacks n (.back cmd)
      else return cmd

mutual

def parseline : Nat → Parser Node
  | 0 => throw .fuel
  | n + 1 => do
      let cmd ← parsepipe n
      let cmd ← parsebacks n cmd
      if ← peek [';'] then
        let _ ← gettoken
        let rest ← parseline n
        return .list cmd rest
      else return cmd

def parsepipe : Nat → Parser Node
  | 0 => throw .fuel
  | n + 1 => do
      let cmd ← parseexec n
      if ← peek ['|'] then
        let _ ← gettoken
        let rest ← parsepipe n
        return .pipe cmd rest
      else return cmd

def parseblock : Nat → Parser Node
  | 0 => throw .fuel
  | n + 1 => do
      if ← peek ['('] then
        let _ ← gettoken
        let cmd ← parseline n
        if ← peek [')'] then
          let _ ← gettoken
          parseredirs n cmd
        else throw (.panic "syntax - missing )")
      else throw (.panic "parseblock")

def parseexec : Nat → Parser Node
  | 0 => throw .fuel
  | n + 1 => do
      if ← peek ['('] then parseblock n
      else
        let ret ← parseredirs n execcmd
        let (argc, ret) ← parseargs n 0 ret
        return ret.setArg argc none none

end

/-- `for(i=0; argv[i]; i++) *eargv[i] = 0`, for `i` in the list. -/
def nulArgs (argv eargv : Args) : List (Fin MAXARGS) → List Char → Option (List Char)
  | [], _ => none
  | i :: is, buf =>
    match argv i, eargv i with
    | none, _ => some buf
    | some _, none => none
    | some _, some p => nulArgs argv eargv is (store0 buf p)

def nulterminate : Node → List Char → Option (List Char)
  | .exec argv eargv, buf => nulArgs argv eargv (List.finRange MAXARGS) buf
  | .redir c _ efile _ _, buf => (nulterminate c buf).map (store0 · efile)
  | .pipe l r, buf => (nulterminate l buf).bind (nulterminate r)
  | .list l r, buf => (nulterminate l buf).bind (nulterminate r)
  | .back c, buf => nulterminate c buf

def parsecmd (fuel : Nat) (line : List Char) : Except Stop (Node × List Char) :=
  match (do
    let cmd ← parseline fuel
    let _ ← peek []
    return cmd : Parser Node) line with
  | .error e => .error (.fault e)
  | .ok (cmd, s) =>
    if s ≠ [] then .error (.fault (.panic "syntax"))
    else
      match nulterminate cmd (line ++ ['\x00']) with
      | none => .error .outside
      | some buf => .ok (cmd, buf)

end Structs

/-! ## The structs of a command -/

namespace Cmd

/-- The arrays have the words, and null pointers after them. -/
def node : Cmd Span → Node
  | exec xs => .exec (fun i => xs[i.val]?.map Prod.fst) fun i => xs[i.val]?.map Prod.snd
  | redir c x mode fd => .redir c.node x.1 x.2 mode fd
  | pipe l r => .pipe l.node r.node
  | list l r => .list l.node r.node
  | back c => .back c.node

/-- The words of the command inside the redirections. -/
def args {W : Type} : Cmd W → Option (List W)
  | exec xs => some xs
  | redir c _ _ _ => c.args
  | _ => none

variable {c : Cmd Span} {xs : List Span} {x : Span} {i : Fin MAXARGS}

theorem args_addArg (h : c.args = some xs) : (c.addArg x).args = some (xs ++ [x]) := by
  induction c with
  | exec ys =>
    cases h
    rfl
  | redir c y mode fd ih => exact ih h
  | _ => cases h

theorem update_getElem? {α β : Type} (f : α → β) (xs : List α) (x : α) (hi : i.val = xs.length) :
    update (fun j : Fin MAXARGS => xs[j.val]?.map f) i (some (f x)) =
      fun j => (xs ++ [x])[j.val]?.map f := by
  funext j
  by_cases hj : j = i
  · subst hj
    rw [Function.update_self, hi, List.getElem?_concat_length]
    rfl
  · have hne : j.val ≠ xs.length := fun h => hj (Fin.ext (h.trans hi.symm))
    rw [Function.update_of_ne hj]
    congr 1
    rcases Nat.lt_or_gt_of_ne hne with hlt | hgt
    · rw [List.getElem?_append_left hlt]
    · rw [List.getElem?_eq_none (by omega), List.getElem?_eq_none]
      rw [List.length_append, List.length_singleton]
      omega

theorem update_none {α β : Type} (f : α → β) (xs : List α) (hi : i.val = xs.length) :
    update (fun j : Fin MAXARGS => xs[j.val]?.map f) i none = fun j => xs[j.val]?.map f := by
  apply Function.update_eq_self_iff.mpr
  rw [List.getElem?_eq_none (by omega)]
  rfl

/-- A word more. -/
theorem node_addArg (h : c.args = some xs) (hi : i.val = xs.length) :
    (c.addArg x).node = c.node.setArg i (some x.1) (some x.2) := by
  induction c with
  | exec ys =>
    cases h
    rw [node, Node.setArg, update_getElem? Prod.fst xs x hi, update_getElem? Prod.snd xs x hi]
    rfl
  | redir c y mode fd ih => rw [addArg, node, ih h, node, Node.setArg]
  | _ => cases h

/-- The null pointer at the end was there. -/
theorem setArg_none (h : c.args = some xs) (hi : i.val = xs.length) :
    c.node.setArg i none none = c.node := by
  induction c with
  | exec ys =>
    cases h
    rw [node, Node.setArg, update_none Prod.fst xs hi, update_none Prod.snd xs hi]
  | redir c y mode fd ih => rw [node, Node.setArg, ih h]
  | _ => cases h

end Cmd

/-! ## The same parser -/

namespace Structs

variable {n : Nat} {c : Cmd Span} {xs : List Span}

theorem parseredirs_node (n : Nat) (c : Cmd Span) :
    parseredirs n c.node = Cmd.node <$> Shell.parseredirs n c := by
  induction n generalizing c with
  | zero => rfl
  | succ n ih =>
    rw [parseredirs, Shell.parseredirs, map_bind]
    congr 1
    funext found
    cases found with
    | false => exact (map_pure _ _).symm
    | true =>
      simp only [if_true, map_bind]
      congr 1
      funext y
      congr 1
      funext z
      obtain ⟨tok, y⟩ := y
      obtain ⟨word, x⟩ := z
      split_ifs
      · rfl
      · dsimp only
        split
        · exact ih (.redir c x 0x000 0)
        · exact ih (.redir c x 0x201 1)
        · exact ih (.redir c x 0x201 1)
        · try split
          all_goals first | contradiction | exact ih c

theorem parsebacks_node (n : Nat) (c : Cmd Span) :
    parsebacks n c.node = Cmd.node <$> Shell.parsebacks n c := by
  induction n generalizing c with
  | zero => rfl
  | succ n ih =>
    rw [parsebacks, Shell.parsebacks, map_bind]
    congr 1
    funext found
    cases found with
    | false => exact (map_pure _ _).symm
    | true =>
      simp only [if_true, map_bind]
      congr 1
      funext tok
      exact ih (.back c)

theorem wp_of_forall {α : Type} {m : Parser α} {Q : α → Ptr → Prop} {s : Ptr} (h : ∀ a s', Q a s') :
    wp (fun _ => True) m Q s := by
  unfold wp
  split
  · exact h _ _
  · trivial

theorem bind_eq_of_wp {α β : Type} {m : Parser β} {f g : β → Parser α} {s : Ptr}
    (h : wp (fun _ => True) m (fun b s' => f b s' = g b s') s) : (m >>= f) s = (m >>= g) s := by
  change (m s).bind (fun x => f x.1 x.2) = (m s).bind fun x => g x.1 x.2
  cases hm : m s with
  | ok x => exact Wp.wp_ok (Q := fun b s' => f b s' = g b s') h hm
  | error e => rfl

/-- Redirections are put around the command. -/
theorem wp_parseredirs_args (n : Nat) (c : Cmd Span) (s : Ptr) :
    wp (fun _ => True) (Shell.parseredirs n c) (fun c' _ => c'.args = c.args) s := by
  induction n generalizing c s with
  | zero => exact Wp.wp_throw.mpr trivial
  | succ n ih =>
    rw [Shell.parseredirs, Wp.wp_bind]
    apply wp_of_forall
    intro found s
    cases found with
    | false => exact Wp.wp_pure.mpr rfl
    | true =>
      simp only [if_true, Wp.wp_bind]
      apply wp_of_forall
      intro tok s
      apply wp_of_forall
      intro word s
      split_ifs
      · exact Wp.wp_throw.mpr trivial
      · split
        all_goals exact ih _ s

/-- The arguments are stored one after the other, and the null pointer after them. -/
theorem parseargs_node {argc : Fin MAXARGS} (h : c.args = some xs) (hi : argc.val = xs.length) :
    (do
      let r ← parseargs n argc c.node
      return r.2.setArg r.1 none none) = Cmd.node <$> Shell.parseargs n argc c := by
  induction n generalizing argc c xs with
  | zero => rfl
  | succ n ih =>
    have hend : (pure (c.node.setArg argc none none) : Parser Node) = Cmd.node <$> pure c := by
      rw [Cmd.setArg_none h hi, map_pure]
    rw [parseargs, Shell.parseargs, map_bind, bind_assoc]
    congr 1
    funext found
    cases found with
    | true => exact hend
    | false =>
      simp only [Bool.false_eq_true, if_false, map_bind, bind_assoc]
      congr 1
      funext z
      obtain ⟨tok, x⟩ := z
      split_ifs with hnul hword hroom hfull hfull
      · exact hend
      · rfl
      · omega
      · rw [← Cmd.node_addArg h hi, parseredirs_node, bind_map_left, bind_assoc, map_bind]
        funext s
        apply bind_eq_of_wp
        apply Wp.wp_mono (wp_parseredirs_args n (c.addArg x) s)
        intro c' s' hargs
        have hlen : (⟨argc + 1, hroom⟩ : Fin MAXARGS).val = (xs ++ [x]).length := by
          rw [List.length_append, List.length_singleton, ← hi]
        exact congrFun (ih (hargs.trans (Cmd.args_addArg h)) hlen) s'
      · rfl
      · omega

/-- The functions of one call depth. -/
structure SameAt (n : Nat) : Prop where
  line : parseline n = Cmd.node <$> Shell.parseline n
  pipe : parsepipe n = Cmd.node <$> Shell.parsepipe n
  block : parseblock n = Cmd.node <$> Shell.parseblock n
  exec : parseexec n = Cmd.node <$> Shell.parseexec n

theorem sameAt (n : Nat) : SameAt n := by
  induction n with
  | zero => exact ⟨rfl, rfl, rfl, rfl⟩
  | succ n ih =>
    constructor
    case line =>
      rw [parseline, Shell.parseline, ih.line, ih.pipe, bind_map_left, map_bind]
      congr 1
      funext c
      rw [parsebacks_node, bind_map_left, map_bind]
      congr 1
      funext c
      rw [map_bind]
      congr 1
      funext found
      cases found with
      | false => exact (map_pure _ _).symm
      | true => simp only [if_true, map_bind, bind_map_left, map_pure, Cmd.node]
    case pipe =>
      rw [parsepipe, Shell.parsepipe, ih.pipe, ih.exec, bind_map_left, map_bind]
      congr 1
      funext c
      rw [map_bind]
      congr 1
      funext found
      cases found with
      | false => exact (map_pure _ _).symm
      | true => simp only [if_true, map_bind, bind_map_left, map_pure, Cmd.node]
    case block =>
      rw [parseblock, Shell.parseblock, ih.line, map_bind]
      congr 1
      funext found
      cases found with
      | false => rfl
      | true =>
        simp only [if_true, map_bind, bind_map_left]
        congr 1
        funext tok
        congr 1
        funext c
        congr 1
        funext found
        cases found with
        | false => rfl
        | true => simp only [if_true, map_bind, parseredirs_node]
    case exec =>
      have hexec : execcmd = (Cmd.exec []).node := rfl
      rw [parseexec, Shell.parseexec, ih.block, hexec, parseredirs_node, map_bind]
      congr 1
      funext found
      cases found with
      | true => rfl
      | false =>
        simp only [Bool.false_eq_true, if_false, bind_map_left, map_bind]
        funext s
        apply bind_eq_of_wp
        apply Wp.wp_mono (wp_parseredirs_args n _ s)
        intro c s' hargs
        have hlen : (0 : Fin MAXARGS).val = ([] : List Span).length := rfl
        exact congrFun (parseargs_node hargs hlen) s'

end Structs

/-! ## Every `execcmd` has room -/

/-- The words of each `execcmd` leave room for the null pointer. -/
def Cmd.Fits {W : Type} : Cmd W → Prop
  | .exec xs => xs.length < MAXARGS
  | .redir c _ _ _ => c.Fits
  | .pipe l r => l.Fits ∧ r.Fits
  | .list l r => l.Fits ∧ r.Fits
  | .back c => c.Fits

theorem fits_wrap {W : Type} {c : Cmd W} (h : c.Fits) (rs : List (Op × W)) : (wrap c rs).Fits := by
  induction rs generalizing c with
  | nil => exact h
  | cons r rs ih => exact ih h

theorem fits_backs {W : Type} {c : Cmd W} (h : c.Fits) (n : Nat) : (backs n c).Fits := by
  induction n generalizing c with
  | zero => exact h
  | succ n ih => exact ih h

mutual

theorem Line.fits {W : Type} {ts : List (Token W)} {c : Cmd W} : Line ts c → c.Fits
  | .last n h => fits_backs h.fits n
  | .cons n h h' => ⟨fits_backs h.fits n, h'.fits⟩

theorem Pipe.fits {W : Type} {ts : List (Token W)} {c : Cmd W} : Pipe ts c → c.Fits
  | .last h => h.fits
  | .cons h h' => ⟨h.fits, h'.fits⟩

theorem Exec.fits {W : Type} {ts : List (Token W)} {c : Cmd W} : Exec ts c → c.Fits
  | .block h _ => fits_wrap h.fits _
  | .simple _ _ h => fits_wrap (c := .exec _) h _

end

theorem Cmd.Rel.fits {V W : Type} {R : V → W → Prop} {c : Cmd V} {d : Cmd W} (h : Cmd.Rel R c d)
    (hd : d.Fits) : c.Fits := by
  induction h with
  | exec h =>
    rw [Cmd.Fits, h.length_eq]
    exact hd
  | redir _ _ ih => exact ih hd
  | pipe _ _ ihl ihr => exact ⟨ihl hd.1, ihr hd.2⟩
  | list _ _ ihl ihr => exact ⟨ihl hd.1, ihr hd.2⟩
  | back _ ih => exact ih hd

namespace Structs

/-- The loop ends at the null pointer, and has gone over the words. -/
theorem nulArgs_eq {xs : List Span} (h : xs.length < MAXARGS) (buf : List Char) {k : Nat}
    (hk : k ≤ xs.length) :
    nulArgs (fun i => xs[i.val]?.map Prod.fst) (fun i => xs[i.val]?.map Prod.snd)
        ((List.finRange MAXARGS).drop k) buf =
      some ((xs.drop k).foldl (fun buf x => store0 buf x.2) buf) := by
  have hrange : k < (List.finRange MAXARGS).length := by
    rw [List.length_finRange]
    omega
  induction hm : xs.length - k generalizing k buf with
  | zero =>
    have hnil : xs.drop k = [] := List.drop_eq_nil_of_le (by omega)
    have hnone : xs[k]? = none := List.getElem?_eq_none (by omega)
    rw [List.drop_eq_getElem_cons hrange, List.getElem_finRange, nulArgs, hnil]
    simp [hnone]
  | succ m ih =>
    have hlt : k < xs.length := by omega
    rw [List.drop_eq_getElem_cons hrange, List.getElem_finRange, nulArgs,
      List.drop_eq_getElem_cons hlt]
    simp only [Fin.val_cast, List.getElem?_eq_getElem hlt, Option.map_some, List.foldl_cons]
    apply ih
    · omega
    · rw [List.length_finRange]
      omega
    · omega

theorem nulterminate_node {c : Cmd Span} (h : c.Fits) (buf : List Char) :
    nulterminate c.node buf = some (Shell.nulterminate c buf) := by
  induction c generalizing buf with
  | exec xs => exact nulArgs_eq h buf (Nat.zero_le _)
  | redir c x mode fd ih =>
    rw [Cmd.node, nulterminate, ih h]
    rfl
  | pipe l r ihl ihr =>
    rw [Cmd.node, nulterminate, ihl h.1]
    exact ihr h.2 _
  | list l r ihl ihr =>
    rw [Cmd.node, nulterminate, ihl h.1]
    exact ihr h.2 _
  | back c ih => exact ih h buf

/-- **The parser with the structs does the same as the one with lists**, and never leaves an
array. -/
theorem parsecmd_eq {line : List Char} {fuel : Nat} (hf : 4 * line.length + 4 ≤ fuel) :
    parsecmd fuel line = match Shell.parsecmd fuel line with
      | .ok (c, buf) => .ok (c.node, buf)
      | .error e => .error (.fault e) := by
  have hrun : (do
      let cmd ← parseline fuel
      let _ ← peek []
      return cmd : Parser Node) line =
        (Shell.parseline fuel line).bind fun x => .ok (x.1.node, skip x.2) := by
    rw [(sameAt fuel).line, bind_map_left]
    rfl
  have hterm : ∀ c buf, Shell.parsecmd fuel line = .ok (c, buf) →
      nulterminate c.node (line ++ ['\x00']) = some buf := by
    intro c buf h
    obtain ⟨d, hline, hrel, rfl⟩ := parsecmd_sound hf h
    exact nulterminate_node (hrel.fits hline.fits) _
  rw [parsecmd, hrun]
  rw [Shell.parsecmd_eq] at hterm ⊢
  cases hl : Shell.parseline fuel line with
  | error e => rfl
  | ok x =>
    rw [hl] at hterm
    by_cases hs : skip x.2 ≠ []
    · simp only [Except.bind, if_pos hs]
    · simp only [Except.bind, if_neg hs] at hterm ⊢
      rw [hterm _ _ rfl]

end Structs

/-! ## The strings -/

/-- From `x.1` to `x.2` the line has the token `w`.  In the buffer its text has stayed, with a NUL
after it. -/
structure Terminated (line buf : List Char) (x : Span) (w : Word) :
    Prop extends Reads line x w where
  string : stringAt buf x = w
  kept : ∀ k < w.length, buf[line.length - x.1.length + k]? = (line)[line.length - x.1.length + k]?

/-- The structs have the words of `d`. -/
def Node.Sound (line buf : List Char) : Node → Cmd Word → Prop
  | .exec argv eargv, .exec ws => ∃ argc : Fin MAXARGS, argc.val = ws.length ∧
      argv argc = none ∧ eargv argc = none ∧ ∀ i < argc, ∃ q eq w, argv i = some q ∧
        eargv i = some eq ∧ ws[i.val]? = some w ∧ Terminated line buf (q, eq) w
  | .redir c file efile mode fd, .redir d w mode' fd' =>
    c.Sound line buf d ∧ Terminated line buf (file, efile) w ∧ mode = mode' ∧ fd = fd'
  | .pipe l r, .pipe l' r' => l.Sound line buf l' ∧ r.Sound line buf r'
  | .list l r, .list l' r' => l.Sound line buf l' ∧ r.Sound line buf r'
  | .back c, .back d => c.Sound line buf d
  | _, _ => False

theorem terminated {line : List Char} {c : Cmd Span} {x : Span} {w : Word} (h : Reads line x w)
    (hx : x ∈ c.words) (hc : ∀ y ∈ c.words, ∃ v, Reads line y v) (h0 : '\x00' ∉ line) :
    Terminated line (nulterminate c (line ++ ['\x00'])) x w where
  toReads := h
  string := stringAt_nulterminate h hx hc h0
  kept := by
    intro k hk
    have hstring := stringAt_nulterminate h hx hc h0
    rw [stringAt, nulterminate_eq, length_foldl_store0, List.length_append, List.length_singleton,
      Nat.add_sub_cancel, ← nulterminate_eq] at hstring
    obtain ⟨r, hr⟩ := List.takeWhile_prefix (l := (nulterminate c (line ++ ['\x00'])).drop
      (line.length - x.1.length)) (· ≠ '\x00')
    rw [hstring] at hr
    rw [h.getElem? hk, ← List.getElem?_drop, ← hr, List.getElem?_append_left hk]

theorem sound_of_rel {line buf : List Char} {c : Cmd Span} {d : Cmd Word}
    (h : Cmd.Rel (Reads line) c d) (hd : d.Fits)
    (hterm : ∀ x ∈ c.words, ∀ w, Reads line x w → Terminated line buf x w) :
    c.node.Sound line buf d := by
  induction h with
  | @exec xs ws h =>
    have hlen : xs.length = ws.length := h.length_eq
    have hnone : xs[ws.length]? = none := List.getElem?_eq_none (by omega)
    refine ⟨⟨ws.length, hd⟩, rfl, congrArg (Option.map Prod.fst) hnone,
      congrArg (Option.map Prod.snd) hnone, ?_⟩
    intro i hi
    have hw : i.val < ws.length := hi
    have hx : i.val < xs.length := by omega
    have hread : Reads line xs[i.val] ws[i.val] := h.get hx hw
    have hsome : xs[i.val]? = some xs[i.val] := List.getElem?_eq_getElem hx
    exact ⟨xs[i.val].1, xs[i.val].2, ws[i.val], congrArg (Option.map Prod.fst) hsome,
      congrArg (Option.map Prod.snd) hsome, List.getElem?_eq_getElem hw,
      hterm _ (List.getElem_mem hx) _ hread⟩
  | redir _ hxy ih =>
    exact ⟨ih hd fun x hx => hterm x (List.mem_append_left _ hx),
      hterm _ (List.mem_append_right _ List.mem_cons_self) _ hxy, rfl, rfl⟩
  | pipe _ _ ihl ihr =>
    exact ⟨ihl hd.1 fun x hx => hterm x (List.mem_append_left _ hx),
      ihr hd.2 fun x hx => hterm x (List.mem_append_right _ hx)⟩
  | list _ _ ihl ihr =>
    exact ⟨ihl hd.1 fun x hx => hterm x (List.mem_append_left _ hx),
      ihr hd.2 fun x hx => hterm x (List.mem_append_right _ hx)⟩
  | back _ ih => exact ih hd hterm

/-- **In-place termination is sound.**  For every line that `parsecmd` accepts: the structs have the
shape of a derivation of the tokens; in each `execcmd` there is a null pointer after as many
arguments as there are words, and each argument, and each file, points to the text of its token,
which no store has changed, with a NUL after it. -/
theorem nulterminate_sound {line : List Char} {fuel : Nat} (h0 : '\x00' ∉ line)
    (hf : 4 * line.length + 4 ≤ fuel) {cmd : Node} {buf : List Char}
    (h : Structs.parsecmd fuel line = .ok (cmd, buf)) :
    ∃ d, Line (tokens line) d ∧ cmd.Sound line buf d := by
  rw [Structs.parsecmd_eq hf] at h
  cases hp : parsecmd fuel line with
  | error e =>
    rw [hp] at h
    cases h
  | ok x =>
    rw [hp] at h
    cases h
    obtain ⟨d, hline, hrel, hbuf⟩ := parsecmd_sound hf hp
    refine ⟨d, hline, sound_of_rel hrel hline.fits ?_⟩
    intro y hy w hw
    rw [hbuf]
    exact terminated hw hy hrel.of_mem h0

/-- The words of `(a b> x|c) >>y &; d` end at a blank, a symbol, and the end. -/
theorem nulterminate_sound_nested : ∃ cmd buf, Structs.parsecmd 84 nestedLine = .ok (cmd, buf) ∧
    ∃ d, Line (tokens nestedLine) d ∧ cmd.Sound nestedLine buf d := by
  have hok : (Structs.parsecmd 84 nestedLine).toOption.isSome = true := by decide +kernel
  cases hp : Structs.parsecmd 84 nestedLine with
  | ok x => exact ⟨x.1, x.2, rfl, nulterminate_sound (by decide) (by decide) hp⟩
  | error e =>
    rw [hp] at hok
    cases hok

end Xv6Mlfq.Shell
