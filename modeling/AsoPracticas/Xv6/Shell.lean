import Mathlib.Data.List.Basic
import Mathlib.Data.List.Infix
import Mathlib.Tactic

/-!
# Shell — the parser of `sh.c`

The parser of the shell is a recursive descent over the bytes of a line.  Its functions share a cursor,
which `peek` and `gettoken` move over white space.  A cursor is modelled as the bytes from it up to the
end `es` of the line; a pointer into the line, kept in a command, is such a list too.
-/

namespace AsoPracticas.Xv6.Shell

inductive Fail where
  | panic (msg : String)
  /-- the bound on calls or on the iterations of a loop was reached -/
  | fuel
  deriving DecidableEq, Repr

/-- Parsed command representation, with `α` for the words. -/
inductive Cmd (α : Type) where
  | exec (argv : List α)
  | redir (cmd : Cmd α) (file : α) (mode fd : Nat)
  | pipe (left right : Cmd α)
  | list (left right : Cmd α)
  | back (cmd : Cmd α)
  deriving DecidableEq, Repr

def MAXARGS : Nat := 10
def O_RDONLY : Nat := 0
def O_WRONLY : Nat := 1
def O_CREATE : Nat := 0x200

/-! ## Tokens -/

/-- `" \t\r\n\v"` -/
def whitespace : List UInt8 := [32, 9, 13, 10, 11]

/-- `"<|>&;()"` -/
def symbols : List UInt8 := [60, 124, 62, 38, 59, 40, 41]

/-- A word of a line: the pointers `q` and `eq`. -/
structure Word where
  q : List UInt8
  eq : List UInt8
  deriving DecidableEq, Repr

def Word.text (w : Word) : List UInt8 := w.q.take (w.q.length - w.eq.length)

/-- `while(s < es && strchr(whitespace, *s)) s++;` -/
def skip (s : List UInt8) : List UInt8 := s.dropWhile (· ∈ whitespace)

/-- What `gettoken` returns, and what it stores. -/
structure Token where
  ret : UInt8
  word : Word
  ps : List UInt8

/-- The end of the token that starts with `c`, and its kind. -/
def scan (c : UInt8) (s : List UInt8) : UInt8 × List UInt8 :=
  if c = 124 ∨ c = 40 ∨ c = 41 ∨ c = 59 ∨ c = 38 ∨ c = 60 then (c, s)
  else if c = 62 then
    match s with
    | 62 :: s => (43, s)
    | s => (62, s)
  else (97, s.dropWhile fun d => d ∉ whitespace ∧ d ∉ symbols)

def gettoken (s : List UInt8) : Token :=
  match skip s with
  | [] => { ret := 0, word := { q := [], eq := [] }, ps := [] }
  | 0 :: s => { ret := 0, word := { q := 0 :: s, eq := 0 :: s }, ps := 0 :: s }
  | c :: s =>
    let (ret, eq) := scan c s
    { ret := ret, word := { q := c :: s, eq := eq }, ps := skip eq }

/-- Whether the next byte is one of `toks`, and the cursor at it. -/
def peek (s toks : List UInt8) : Bool × List UInt8 :=
  match skip s with
  | [] => (false, [])
  | c :: s => (decide (c ≠ 0 ∧ c ∈ toks), c :: s)

/-! ## Commands -/

abbrev Redir (α : Type) := UInt8 × α

/-- `redircmd` for each kind of token; `>` and `>>` are the same. -/
def redircmd {α : Type} (cmd : Cmd α) (r : Redir α) : Cmd α :=
  if r.1 = 60 then .redir cmd r.2 O_RDONLY 0
  else .redir cmd r.2 (O_WRONLY ||| O_CREATE) 1

/-- The redirections at the cursor, in the order in which they are wrapped around the command. -/
def parseredirs : Nat → List UInt8 → Except Fail (List (Redir Word) × List UInt8)
  | 0, _ => .error .fuel
  | n + 1, s =>
    let (found, s) := peek s [60, 62]
    if found then
      let tok := gettoken s
      let file := gettoken tok.ps
      if file.ret ≠ 97 then .error (.panic "missing file for redirection")
      else do
        let (rs, s) ← parseredirs n file.ps
        return ((tok.ret, file.word) :: rs, s)
    else return ([], s)

/-- The loop of `parseexec` after `argc` words: the words and redirections that follow. -/
def parseargs : Nat → (argc : Nat) → List UInt8 → Except Fail (List Word × List (Redir Word) × List UInt8)
  | 0, _, _ => .error .fuel
  | n + 1, argc, s =>
    let (stop, s) := peek s [124, 41, 38, 59]
    if stop then return ([], [], s)
    else
      let tok := gettoken s
      if tok.ret = 0 then return ([], [], tok.ps)
      else if tok.ret ≠ 97 then .error (.panic "syntax")
      else if argc + 1 ≥ MAXARGS then .error (.panic "too many args")
      else do
        let (rs, s) ← parseredirs n tok.ps
        let (ws, rs', s) ← parseargs n (argc + 1) s
        return (tok.word :: ws, rs ++ rs', s)

/-- `while(peek(ps, es, "&")) …` -/
def parseback : Nat → Cmd Word → List UInt8 → Except Fail (Cmd Word × List UInt8)
  | 0, _, _ => .error .fuel
  | n + 1, cmd, s =>
    let (found, s) := peek s [38]
    if found then parseback n (.back cmd) (gettoken s).ps
    else return (cmd, s)

mutual

def parseline : Nat → List UInt8 → Except Fail (Cmd Word × List UInt8)
  | 0, _ => .error .fuel
  | n + 1, s => do
      let (cmd, s) ← parsepipe n s
      let (cmd, s) ← parseback n cmd s
      let (found, s) := peek s [59]
      if found then
        let (right, s) ← parseline n (gettoken s).ps
        return (.list cmd right, s)
      else return (cmd, s)

def parsepipe : Nat → List UInt8 → Except Fail (Cmd Word × List UInt8)
  | 0, _ => .error .fuel
  | n + 1, s => do
      let (cmd, s) ← parseexec n s
      let (found, s) := peek s [124]
      if found then
        let (right, s) ← parsepipe n (gettoken s).ps
        return (.pipe cmd right, s)
      else return (cmd, s)

def parseblock : Nat → List UInt8 → Except Fail (Cmd Word × List UInt8)
  | 0, _ => .error .fuel
  | n + 1, s => do
      let (opened, s) := peek s [40]
      if ¬ opened then .error (.panic "parseblock")
      else
        let (cmd, s) ← parseline n (gettoken s).ps
        let (closed, s) := peek s [41]
        if ¬ closed then .error (.panic "syntax - missing )")
        else
          let (rs, s) ← parseredirs n (gettoken s).ps
          return (rs.foldl redircmd cmd, s)

/-- The node of the words is filled in after the redirections before them have been wrapped around it. -/
def parseexec : Nat → List UInt8 → Except Fail (Cmd Word × List UInt8)
  | 0, _ => .error .fuel
  | n + 1, s =>
    let (block, s) := peek s [40]
    if block then parseblock n s
    else do
      let (rs, s) ← parseredirs n s
      let (ws, rs', s) ← parseargs n 0 s
      return ((rs ++ rs').foldl redircmd (.exec ws), s)

end

/-- NUL-terminate all the counted strings of a line of `n` bytes. -/
def nulterminate (n : Nat) : Cmd Word → List UInt8 → List UInt8
  | .exec argv, buf => argv.foldl (fun buf w => buf.set (n - w.eq.length) 0) buf
  | .redir cmd file _ _, buf => (nulterminate n cmd buf).set (n - file.eq.length) 0
  | .pipe left right, buf => nulterminate n right (nulterminate n left buf)
  | .list left right, buf => nulterminate n right (nulterminate n left buf)
  | .back cmd, buf => nulterminate n cmd buf

/-- The command of a line, and the bytes of the line with its final 0 after `nulterminate`.  No call is
deeper than four times the number of bytes left. -/
def parsecmd (s : List UInt8) : Except Fail (Cmd Word × List UInt8) := do
  let (cmd, rest) ← parseline (4 * s.length + 4) s
  let (_, rest) := peek rest []
  if rest ≠ [] then .error (.panic "syntax")
  else return (cmd, nulterminate s.length cmd (s ++ [0]))

/-- The string that starts at the pointer `q` of a word of a line of `n` bytes. -/
def Word.string (n : Nat) (buf : List UInt8) (w : Word) : List UInt8 :=
  (buf.drop (n - w.q.length)).takeWhile (· ≠ 0)

def Cmd.map {α β : Type} (f : α → β) : Cmd α → Cmd β
  | .exec argv => .exec (argv.map f)
  | .redir cmd file mode fd => .redir (cmd.map f) (f file) mode fd
  | .pipe left right => .pipe (left.map f) (right.map f)
  | .list left right => .list (left.map f) (right.map f)
  | .back cmd => .back (cmd.map f)

def Cmd.words {α : Type} : Cmd α → List α
  | .exec argv => argv
  | .redir cmd file _ _ => cmd.words ++ [file]
  | .pipe left right => left.words ++ right.words
  | .list left right => left.words ++ right.words
  | .back cmd => cmd.words

end AsoPracticas.Xv6.Shell
