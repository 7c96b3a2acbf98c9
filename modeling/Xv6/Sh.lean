import Xv6.DirCalls

/-!
# The parser of the shell

`gettoken`, `peek` and the parsing functions of `sh.c`, and `nulterminate`.  A pointer into the command line is given as the bytes
from it up to the end, so that `*s` is the first of them.  `malloc` does not fail.
-/

namespace Xv6

namespace Sh

open SysFile (O_RDONLY O_WRONLY O_CREATE O_TRUNC)

def MAXARGS : Nat := 256

/-- The bytes from a pointer into the line up to the end of the line. -/
abbrev Ptr := List UInt8

/-- The pointers `q` and `eq` to the start and past the end of a token. -/
structure Span where
  q : Ptr
  eq : Ptr
  deriving DecidableEq

/-- `struct cmd`, with arguments and file names of type `W`. -/
inductive Cmd (W : Type)
  | exec (argv : List W)
  | redir (cmd : Cmd W) (file : W) (mode fd : Nat)
  | pipe (left right : Cmd W)
  | list (left right : Cmd W)
  | back (cmd : Cmd W)
  deriving DecidableEq

/-- The other fields of a `struct redircmd`. -/
structure Redir (W : Type) where
  file : W
  mode : Nat
  fd : Nat

/-- How a function of the parser ends if it does not return: in `panic`, or with calls that go deeper than the fuel. -/
inductive Stop
  | panic (msg : String)
  | fuel
  deriving DecidableEq

/-! ### Tokens -/

def whitespace : List UInt8 := [' '.toUInt8, '\t'.toUInt8, '\r'.toUInt8, '\n'.toUInt8, 11]

def symbols : List UInt8 :=
  ['<'.toUInt8, '|'.toUInt8, '>'.toUInt8, '&'.toUInt8, ';'.toUInt8, '('.toUInt8, ')'.toUInt8]

/-- A byte of a word. -/
def inWord (c : UInt8) : Bool := c ∉ whitespace ∧ c ∉ symbols

/-- `while(s < es && strchr(whitespace, *s)) s++`. -/
def skip (s : Ptr) : Ptr := s.dropWhile (· ∈ whitespace)

/-- The answer, the token and the pointer after it. -/
def gettoken (s : Ptr) : UInt8 × Span × Ptr :=
  match skip s with
  | [] => (0, ⟨[], []⟩, [])
  | c :: s =>
    if c = '>'.toUInt8 then
      match s with
      | d :: s' =>
        if d = '>'.toUInt8 then ('+'.toUInt8, ⟨c :: s, s'⟩, skip s') else (c, ⟨c :: s, s⟩, skip s)
      | [] => (c, ⟨c :: s, s⟩, skip s)
    else if c ∈ symbols then (c, ⟨c :: s, s⟩, skip s)
    else
      let eq := (c :: s).dropWhile inWord
      ('a'.toUInt8, ⟨c :: s, eq⟩, skip eq)

def peek (s : Ptr) (toks : List UInt8) : Bool × Ptr :=
  let s := skip s
  (s.head?.any (· ∈ toks), s)

/-! ### Commands -/

/-- `redircmd(cmd, ..)` for each of the redirections, the first one inside. -/
def wrap {W : Type} (cmd : Cmd W) (rs : List (Redir W)) : Cmd W := rs.foldl (fun c r => .redir c r.file r.mode r.fd) cmd

/-- The cases of `parseredirs`. -/
def redirOf {W : Type} (tok : UInt8) (file : W) : List (Redir W) :=
  if tok = '<'.toUInt8 then [⟨file, O_RDONLY, 0⟩]
  else if tok = '>'.toUInt8 then [⟨file, O_WRONLY ||| O_CREATE ||| O_TRUNC, 1⟩]
  else if tok = '+'.toUInt8 then [⟨file, O_WRONLY ||| O_CREATE, 1⟩]
  else []

/-- The redirections that are wrapped around the command, which need not be complete yet. -/
def parseredirs : Nat → Ptr → Except Stop (List (Redir Span) × Ptr)
  | 0, _ => throw .fuel
  | fuel + 1, s =>
    let (more, s) := peek s ['<'.toUInt8, '>'.toUInt8]
    if more then
      let (tok, _, s) := gettoken s
      let (word, file, s) := gettoken s
      if word ≠ 'a'.toUInt8 then throw (.panic "missing file for redirection")
      else do
        let (rs, s) ← parseredirs fuel s
        return (redirOf tok file ++ rs, s)
    else return ([], s)

/-- The loop of `parseexec`, which adds to the arguments and the redirections. -/
def argsLoop : Nat → List Span → List (Redir Span) → Ptr → Except Stop (List Span × List (Redir Span) × Ptr)
  | 0, _, _, _ => throw .fuel
  | fuel + 1, argv, rs, s =>
    let (stop, s) := peek s ['|'.toUInt8, ')'.toUInt8, '&'.toUInt8, ';'.toUInt8]
    if stop then return (argv, rs, s)
    else
      let (tok, arg, s) := gettoken s
      if tok = 0 then return (argv, rs, s)
      else if tok ≠ 'a'.toUInt8 then throw (.panic "syntax")
      else if argv.length + 1 ≥ MAXARGS then throw (.panic "too many args")
      else do
        let (more, s) ← parseredirs fuel s
        argsLoop fuel (argv ++ [arg]) (rs ++ more) s

/-- The loop of `parseline` over `&`. -/
def backsLoop : Nat → Cmd Span → Ptr → Except Stop (Cmd Span × Ptr)
  | 0, _, _ => throw .fuel
  | fuel + 1, cmd, s =>
    let (more, s) := peek s ['&'.toUInt8]
    if more then backsLoop fuel (.back cmd) (gettoken s).2.2 else return (cmd, s)

mutual

def parseline : Nat → Ptr → Except Stop (Cmd Span × Ptr)
  | 0, _ => throw .fuel
  | fuel + 1, s => do
    let (cmd, s) ← parsepipe fuel s
    let (cmd, s) ← backsLoop fuel cmd s
    let (more, s) := peek s [';'.toUInt8]
    if more then
      let (right, s) ← parseline fuel (gettoken s).2.2
      return (.list cmd right, s)
    else return (cmd, s)

def parsepipe : Nat → Ptr → Except Stop (Cmd Span × Ptr)
  | 0, _ => throw .fuel
  | fuel + 1, s => do
    let (cmd, s) ← parseexec fuel s
    let (more, s) := peek s ['|'.toUInt8]
    if more then
      let (right, s) ← parsepipe fuel (gettoken s).2.2
      return (.pipe cmd right, s)
    else return (cmd, s)

def parseexec : Nat → Ptr → Except Stop (Cmd Span × Ptr)
  | 0, _ => throw .fuel
  | fuel + 1, s => do
    let (block, s) := peek s ['('.toUInt8]
    if block then parseblock fuel s
    else
      let (rs, s) ← parseredirs fuel s
      let (argv, rs, s) ← argsLoop fuel [] rs s
      return (wrap (.exec argv) rs, s)

def parseblock : Nat → Ptr → Except Stop (Cmd Span × Ptr)
  | 0, _ => throw .fuel
  | fuel + 1, s => do
    let (opened, s) := peek s ['('.toUInt8]
    if !opened then throw (.panic "parseblock")
    else
      let (cmd, s) ← parseline fuel (gettoken s).2.2
      let (closed, s) := peek s [')'.toUInt8]
      if !closed then throw (.panic "syntax - missing )")
      else
        let (rs, s) ← parseredirs fuel (gettoken s).2.2
        return (wrap cmd rs, s)

end

/-- The tree of a line, before `nulterminate`. -/
def parsecmd (line : List UInt8) : Except Stop (Cmd Span) := do
  let (cmd, s) ← parseline (4 * (line.length + 1)) line
  let (_, s) := peek s []
  -- the leftovers are printed first
  if s ≠ [] then throw (.panic "syntax")
  else return cmd

/-! ### Words in memory -/

/-- The offset in the line of a pointer. -/
def offset (line : List UInt8) (s : Ptr) : Nat := line.length - s.length

/-- Zeros are written at the ends of the words. -/
def nulterminate (line : List UInt8) : Cmd Span → (Nat → UInt8) → Nat → UInt8
  | .exec argv, m => argv.foldl (fun m w => Function.update m (offset line w.eq) 0) m
  | .redir cmd file _ _, m => Function.update (nulterminate line cmd m) (offset line file.eq) 0
  | .pipe left right, m => nulterminate line right (nulterminate line left m)
  | .list left right, m => nulterminate line right (nulterminate line left m)
  | .back cmd, m => nulterminate line cmd m

/-- The buffer with the line and its NUL. -/
def lineBuf (line : List UInt8) : Nat → UInt8 := fun i => line.getD i 0

/-- The string at offset `i` of a buffer that ends at offset `n`. -/
def strAt (m : Nat → UInt8) (n i : Nat) : List UInt8 := ((List.range' i (n + 1 - i)).map m).takeWhile (· ≠ 0)

namespace Cmd

variable {V W : Type}

def map (f : V → W) : Cmd V → Cmd W
  | exec argv => exec (argv.map f)
  | redir cmd file mode fd => redir (cmd.map f) (f file) mode fd
  | pipe left right => pipe (left.map f) (right.map f)
  | list left right => list (left.map f) (right.map f)
  | back cmd => back (cmd.map f)

/-- The arguments and file names. -/
def words : Cmd W → List W
  | exec argv => argv
  | redir cmd file _ _ => cmd.words ++ [file]
  | pipe left right => left.words ++ right.words
  | list left right => left.words ++ right.words
  | back cmd => cmd.words

end Cmd

/-- The tree that `runcmd` is called with: its words are read where their pointers lead to after `nulterminate`. -/
def parse (line : List UInt8) : Except Stop (Cmd (List UInt8)) := do
  let cmd ← parsecmd line
  let m := nulterminate line cmd (lineBuf line)
  return cmd.map fun w => strAt m line.length (offset line w.q)

end Sh

end Xv6
