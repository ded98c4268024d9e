import Mathlib.Logic.Function.Basic
import Xv6.Lib.Run
import Xv6.Param
import Xv6.Sh.Parser

/-! `runcmd` of the shell, one system call at a time, in any interleaving of the processes it
forks. -/
namespace Xv6

namespace Sh

/-- What a descriptor refers to: one of the files the shell was started with, a file it opened, or
an end of a pipe. -/
inductive Obj where
  | original (fd : ℕ)
  | opened (file : Slice) (mode : ℕ)
  | pipeRead (n : ℕ)
  | pipeWrite (n : ℕ)
  deriving DecidableEq

abbrev Table := ℕ → Option Obj

def fdalloc (t : Table) : Option ℕ := (List.range NOFILE).find? fun fd => (t fd).isNone

def Table.close (t : Table) (fd : ℕ) : Table := Function.update t fd none

def Table.set (t : Table) (fd : ℕ) (o : Obj) : Table := Function.update t fd (some o)

def Table.alloc (t : Table) (o : Obj) : Option (ℕ × Table) :=
  (fdalloc t).map fun fd => (fd, t.set fd o)

inductive SysCall where
  | close (fd : ℕ)
  | dup (fd : ℕ)
  | opens (r : Redir)
  deriving DecidableEq

def SysCall.run (t : Table) : SysCall → Option Table
  | .close fd => some (t.close fd)
  | .dup fd => (t fd).bind fun o => (t.alloc o).map Prod.snd
  | .opens r => (t.alloc (.opened r.file r.mode)).map Prod.snd

/-- A node above a command of the tree, with what is beside the command. Pipes are numbered as they
are made. -/
inductive Frame where
  | redir (r : Redir)
  | pipeLeft (n : ℕ) (right : Cmd)
  | pipeRight (n : ℕ) (left : Cmd)
  | listLeft (right : Cmd)
  | listRight (left : Cmd)
  | back
  deriving DecidableEq

/-- Where a process is in `runcmd`. `p0` and `p1` are `p[0]` and `p[1]`. -/
inductive Ctl where
  | run (c : Cmd)
  /-- The system calls that are left before `runcmd` of a command below a node, or, in the parent of
  PIPE, before its calls of `wait()`. -/
  | arrange (calls : List SysCall) (next : Option (Frame × Cmd))
  | listWait (left right : Cmd)
  | piped (left right : Cmd) (n p0 p1 : ℕ)
  | forked (left right : Cmd) (n p0 p1 : ℕ)
  /-- The end of `runcmd`, with `k` calls of `wait()` to go before `exit()`. -/
  | waiting (k : ℕ)
  | program
  | zombie
  | reaped
  deriving DecidableEq

/-- `ctx` are the nodes above the command that the process runs, the innermost first. -/
structure Proc where
  table : Table
  ctl : Ctl
  ctx : List Frame
  parent : Option ℕ

structure ExecCall where
  ctx : List Frame
  argv : List (Option Slice)
  table : Table

structure Sys where
  procs : List Proc
  pipes : ℕ
  execs : List ExecCall

/-- A child of PIPE takes the end `p` of the pipe for its descriptor `fd`. -/
def takeEnd (fd p p0 p1 : ℕ) : List SysCall := [.close fd, .dup p, .close p0, .close p1]

def Ctl.mayFail : Ctl → Bool
  | .run (.list ..) => true
  | .run (.pipe ..) => true
  | .run (.back _) => true
  | .arrange (.opens _ :: _) _ => true
  | .piped .. => true
  | .forked .. => true
  | _ => false

namespace Sys

def set (s : Sys) (i : ℕ) (q : Proc) : Sys := { s with procs := s.procs.set i q }

/-- `fork`: the parent goes on as `q`, the child as `r` at the end of the list. -/
def fork (s : Sys) (i : ℕ) (q r : Proc) : Sys :=
  { s with procs := s.procs.set i q ++ [{ r with parent := some i }] }

/-- `exit`: the descriptors are closed. The children stay as they are: nothing waits for them. -/
def exit (s : Sys) (i : ℕ) (q : Proc) : Sys :=
  s.set i { q with table := fun _ => none, ctl := .zombie }

def wait (s : Sys) (i : ℕ) : Option Sys :=
  match s.procs.findIdx? fun r => r.parent = some i ∧ r.ctl = .zombie with
  | some j =>
    (s.procs[j]?).map fun r => s.set j { r with ctl := .reaped, parent := none }
  | none => if ∃ r ∈ s.procs, r.parent = some i then none else some s

def runcmd (s : Sys) (i : ℕ) (q : Proc) : Cmd → Option Sys
  | .exec argv =>
    if argv.head?.join = none then some (s.exit i q)
    else some { s.set i { q with ctl := .program } with
      execs := s.execs ++ [⟨q.ctx, argv, q.table⟩] }
  | .redir c r =>
    some (s.set i { q with ctl := .arrange [.close r.fd, .opens r] (some (.redir r, c)) })
  | .list left right =>
    some (s.fork i { q with ctl := .listWait left right }
      { q with ctl := .run left, ctx := .listLeft right :: q.ctx })
  | .pipe left right =>
    (q.table.alloc (.pipeRead s.pipes)).bind fun a =>
      (a.2.alloc (.pipeWrite s.pipes)).map fun b =>
        { s.set i { q with table := b.2, ctl := .piped left right s.pipes a.1 b.1 } with
          pipes := s.pipes + 1 }
  | .back c =>
    some (s.fork i { q with ctl := .waiting 0 } { q with ctl := .run c, ctx := .back :: q.ctx })

def stepProc (s : Sys) (i : ℕ) (q : Proc) : Option Sys :=
  match q.ctl with
  | .run c => s.runcmd i q c
  | .arrange (a :: calls) next =>
    (a.run q.table).map fun t => s.set i { q with table := t, ctl := .arrange calls next }
  | .arrange [] (some (f, c)) => some (s.set i { q with ctl := .run c, ctx := f :: q.ctx })
  | .arrange [] none => some (s.set i { q with ctl := .waiting 2 })
  | .listWait left right =>
    (s.wait i).map fun t => t.set i { q with ctl := .run right, ctx := .listRight left :: q.ctx }
  | .piped left right n p0 p1 =>
    some (s.fork i { q with ctl := .forked left right n p0 p1 }
      { q with ctl := .arrange (takeEnd 1 p1 p0 p1) (some (.pipeLeft n right, left)) })
  | .forked left right n p0 p1 =>
    some (s.fork i { q with ctl := .arrange [.close p0, .close p1] none }
      { q with ctl := .arrange (takeEnd 0 p0 p0 p1) (some (.pipeRight n left, right)) })
  | .waiting k =>
    if k = 0 then some (s.exit i q)
    else (s.wait i).map fun t => t.set i { q with ctl := .waiting (k - 1) }
  | .program => some (s.exit i q)
  | .zombie => none
  | .reaped => none

/-- The system call of the process at `i` fails, and the process exits: in REDIR by itself, for
`pipe` and `fork` through `panic`. -/
def fail (s : Sys) (i : ℕ) (q : Proc) : Option Sys :=
  if q.ctl.mayFail then some (s.exit i q) else none

end Sys

inductive Act where
  | go (i : ℕ)
  | fail (i : ℕ)
  deriving DecidableEq

def Sys.step (s : Sys) : Act → Option Sys
  | .go i => (s.procs[i]?).bind (s.stepProc i)
  | .fail i => (s.procs[i]?).bind (s.fail i)

def std (i o : Obj) : Table := fun fd =>
  if fd = 0 then some i else if fd = 1 then some o else if fd = 2 then some (.original 2) else none

def start (c : Cmd) : Sys :=
  ⟨[⟨std (.original 0) (.original 1), .run c, [], none⟩], 0, []⟩

end Sh

end Xv6
