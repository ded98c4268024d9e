import Mathlib.Data.List.Basic

/-! The parser of the shell, `sh.c`: tokens, the recursive descent over a cursor into the
command string, and the termination of the strings in place. -/
namespace Xv6

namespace Sh

def MAXARGS : ℕ := 10

def O_RDONLY : ℕ := 0x000

def O_WRONLY : ℕ := 0x001

def O_CREATE : ℕ := 0x200

def whitespace : List UInt8 := [0x20, 0x09, 0x0d, 0x0a, 0x0b]

def LESS : UInt8 := 0x3c

def BAR : UInt8 := 0x7c

def GREATER : UInt8 := 0x3e

def AMP : UInt8 := 0x26

def SEMI : UInt8 := 0x3b

def LPAREN : UInt8 := 0x28

def RPAREN : UInt8 := 0x29

def symbols : List UInt8 := [LESS, BAR, GREATER, AMP, SEMI, LPAREN, RPAREN]

/-- What `gettoken` returns: 0, a symbol, `+` for `>>`, or `a` for a word. -/
inductive Tok where
  | eof
  | bar
  | lparen
  | rparen
  | semi
  | amp
  | less
  | greater
  | append
  | word
  deriving DecidableEq, Repr

structure Slice where
  q : ℕ
  eq : ℕ
  deriving DecidableEq, Repr

/-- The byte at a position; behind the string there is a 0. -/
def byteAt (buf : List UInt8) (s : ℕ) : UInt8 := buf.getD s 0

def isSpace (c : UInt8) : Bool := c ∈ whitespace

def isWord (c : UInt8) : Bool := c ∉ whitespace ∧ c ∉ symbols

/-- `while(s < es && p(*s)) s++`. -/
def scan (p : UInt8 → Bool) (buf : List UInt8) (s : ℕ) : ℕ :=
  s + ((buf.drop s).takeWhile p).length

def symbolTok (c : UInt8) : Option Tok :=
  if c = BAR then some .bar
  else if c = LPAREN then some .lparen
  else if c = RPAREN then some .rparen
  else if c = SEMI then some .semi
  else if c = AMP then some .amp
  else if c = LESS then some .less
  else none

/-- The token at a position that is no whitespace, and where it ends. -/
def tokenAt (buf : List UInt8) (s : ℕ) : Tok × ℕ :=
  let c := byteAt buf s
  if c = 0 then (.eof, s)
  else if c = GREATER then
    if byteAt buf (s + 1) = GREATER then (.append, s + 2) else (.greater, s + 1)
  else
    match symbolTok c with
    | some tok => (tok, s + 1)
    | none => (.word, scan isWord buf s)

structure Gettoken where
  tok : Tok
  slice : Slice
  s : ℕ

def gettoken (buf : List UInt8) (s : ℕ) : Gettoken :=
  let q := scan isSpace buf s
  let t := tokenAt buf q
  ⟨t.1, ⟨q, t.2⟩, scan isSpace buf t.2⟩

def peek (buf : List UInt8) (s : ℕ) (toks : List UInt8) : Bool × ℕ :=
  let s := scan isSpace buf s
  (byteAt buf s ≠ 0 ∧ byteAt buf s ∈ toks, s)

structure Redir where
  file : Slice
  mode : ℕ
  fd : ℕ
  deriving DecidableEq, Repr

/-- The commands. `argv` and `eargv` have `MAXARGS` entries, null (`none`) or a string. -/
inductive Cmd where
  | exec (argv : List (Option Slice))
  | redir (cmd : Cmd) (r : Redir)
  | pipe (left right : Cmd)
  | list (left right : Cmd)
  | back (cmd : Cmd)
  deriving DecidableEq, Repr

/-- How the parser does not return: `panic`, or its loops have run out of fuel. -/
inductive Stop where
  | panic (msg : String)
  | fuel
  deriving DecidableEq, Repr

def redirOf (tok : Tok) (file : Slice) : Option Redir :=
  match tok with
  | .less => some ⟨file, O_RDONLY, 0⟩
  | .greater => some ⟨file, O_WRONLY ||| O_CREATE, 1⟩
  | .append => some ⟨file, O_WRONLY ||| O_CREATE, 1⟩
  | _ => none

/-- The command wrapped in the redirections, the later ones outside. -/
def wrap (c : Cmd) (rs : List Redir) : Cmd := rs.foldl .redir c

section parse

variable (buf : List UInt8)

/-- The redirections that `parseredirs` wraps around its command. -/
def parseredirs : ℕ → ℕ → Except Stop (List Redir × ℕ)
  | 0, _ => .error .fuel
  | fuel + 1, s => do
    let (more, s) := peek buf s [LESS, GREATER]
    if more then
      let t := gettoken buf s
      let g := gettoken buf t.s
      if g.tok ≠ .word then .error (.panic "missing file for redirection")
      else do
        let (rs, s) ← parseredirs fuel g.s
        return ((redirOf t.tok g.slice).toList ++ rs, s)
    else return ([], s)

/-- The loop of `parseexec`. The `execcmd` is filled in while it is already wrapped in the
redirections found so far. -/
def parseargs : ℕ → List (Option Slice) → ℕ → List Redir → ℕ → Except Stop (Cmd × ℕ)
  | 0, _, _, _, _ => .error .fuel
  | fuel + 1, argv, argc, rs, s => do
    let (stop, s) := peek buf s [BAR, RPAREN, AMP, SEMI]
    if stop then return (wrap (.exec (argv.set argc none)) rs, s)
    else
      let g := gettoken buf s
      if g.tok = .eof then return (wrap (.exec (argv.set argc none)) rs, g.s)
      else if g.tok ≠ .word then .error (.panic "syntax")
      else
        let argv := argv.set argc (some g.slice)
        let argc := argc + 1
        if argc ≥ MAXARGS then .error (.panic "too many args")
        else do
          let (rs', s) ← parseredirs buf fuel g.s
          parseargs fuel argv argc (rs ++ rs') s

/-- The loop of `parseline` for `&`. -/
def parsebacks : ℕ → Cmd → ℕ → Except Stop (Cmd × ℕ)
  | 0, _, _ => .error .fuel
  | fuel + 1, cmd, s =>
    let (more, s) := peek buf s [AMP]
    if more then parsebacks fuel (.back cmd) (gettoken buf s).s else .ok (cmd, s)

mutual

def parseline : ℕ → ℕ → Except Stop (Cmd × ℕ)
  | 0, _ => .error .fuel
  | fuel + 1, s => do
    let (cmd, s) ← parsepipe fuel s
    let (cmd, s) ← parsebacks buf fuel cmd s
    let (more, s) := peek buf s [SEMI]
    if more then
      let (right, s) ← parseline fuel (gettoken buf s).s
      return (.list cmd right, s)
    else return (cmd, s)

def parsepipe : ℕ → ℕ → Except Stop (Cmd × ℕ)
  | 0, _ => .error .fuel
  | fuel + 1, s => do
    let (cmd, s) ← parseexec fuel s
    let (more, s) := peek buf s [BAR]
    if more then
      let (right, s) ← parsepipe fuel (gettoken buf s).s
      return (.pipe cmd right, s)
    else return (cmd, s)

def parseblock : ℕ → ℕ → Except Stop (Cmd × ℕ)
  | 0, _ => .error .fuel
  | fuel + 1, s => do
    let (opened, s) := peek buf s [LPAREN]
    if ¬opened then .error (.panic "parseblock")
    else do
      let (cmd, s) ← parseline fuel (gettoken buf s).s
      let (closed, s) := peek buf s [RPAREN]
      if ¬closed then .error (.panic "syntax - missing )")
      else do
        let (rs, s) ← parseredirs buf fuel (gettoken buf s).s
        return (wrap cmd rs, s)

def parseexec : ℕ → ℕ → Except Stop (Cmd × ℕ)
  | 0, _ => .error .fuel
  | fuel + 1, s => do
    let (opened, s) := peek buf s [LPAREN]
    if opened then parseblock fuel s
    else do
      let (rs, s) ← parseredirs buf fuel s
      parseargs buf fuel (List.replicate MAXARGS none) 0 rs s

end

end parse

/-- A 0 behind each string of the tree. -/
def nulterminate : Cmd → List UInt8 → List UInt8
  | .exec argv, mem =>
    ((argv.takeWhile Option.isSome).filterMap id).foldl (fun mem a => mem.set a.eq 0) mem
  | .redir cmd r, mem => (nulterminate cmd mem).set r.file.eq 0
  | .pipe left right, mem => nulterminate right (nulterminate left mem)
  | .list left right, mem => nulterminate right (nulterminate left mem)
  | .back cmd, mem => nulterminate cmd mem

/-- The tree, and the bytes of the buffer after `parsecmd`. -/
def parsecmd (fuel : ℕ) (buf : List UInt8) : Except Stop (Cmd × List UInt8) := do
  let (cmd, s) ← parseline buf fuel 0
  let (_, s) := peek buf s []
  if s ≠ buf.length then .error (.panic "syntax")
  else return (cmd, nulterminate cmd (buf ++ [0]))

end Sh

end Xv6
