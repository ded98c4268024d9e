import Xv6.Lib.CounterRing
import Xv6.Lib.Monitor

/-! The input half of `console.c`: `consoleintr` and `consoleread` under `input.lock`. -/
namespace Xv6.Console

open Monitor

def INPUT_BUF : ℕ := 128

instance : NeZero INPUT_BUF := ⟨by decide⟩

/-- Control characters: `C(x)` is `x - '@'`. -/
def ctrlD : UInt8 := 4

def ctrlH : UInt8 := 8

def newline : UInt8 := 10

def carriageReturn : UInt8 := 13

def ctrlP : UInt8 := 16

def ctrlU : UInt8 := 21

def delete : UInt8 := 127

inductive Why where
  | full
  | newline
  | eof
  | killed
  deriving DecidableEq

/-- What a call of `consoleread(ip, dst, n)` has stored in `dst`, and its result. -/
structure Ret where
  n : ℤ
  dst : List UInt8
  r : ℤ
  why : Why

/-- `input`, and the results of the calls of `consoleread`. -/
structure Input where
  buf : Fin INPUT_BUF → UInt8
  r : UInt32
  w : UInt32
  e : UInt32
  returned : List Ret

inductive Place where
  /-- `consoleintr`, with the characters that `getc` has still to deliver. -/
  | intr (cs : List UInt8)
  /-- `consoleintr` before `wakeup(&input.r)`. -/
  | wake (cs : List UInt8)
  /-- `consoleread(ip, dst, target)` with `dst` stored so far. -/
  | read (target : ℤ) (dst : List UInt8)

namespace Input

/-- `input.buf[c % INPUT_BUF]`. -/
def char (d : Input) (c : UInt32) : UInt8 := d.buf (Fin.ofNat INPUT_BUF c.toNat)

def killLine : ℕ → Input → Input
  | 0, d => d
  | fuel + 1, d =>
    if d.e ≠ d.w ∧ d.char (d.e - 1) ≠ newline then killLine fuel { d with e := d.e - 1 } else d

def put (d : Input) (c : UInt8) : Input :=
  { d with
    buf := Function.update d.buf (Fin.ofNat INPUT_BUF d.e.toNat) c
    e := d.e + 1 }

/-- One character: the new state, and whether it wakes the readers. -/
def intr (d : Input) (c : UInt8) : Input × Bool :=
  if c = ctrlP then (d, false)
  else if c = ctrlU then (killLine (d.e - d.w).toNat d, false)
  else if c = ctrlH ∨ c = delete then
    (if d.e ≠ d.w then { d with e := d.e - 1 } else d, false)
  else if c ≠ 0 ∧ d.e - d.r < INPUT_BUF.toUInt32 then
    let c := if c = carriageReturn then newline else c
    let d := d.put c
    if c = newline ∨ c = ctrlD ∨ d.e = d.r + INPUT_BUF.toUInt32 then ({ d with w := d.e }, true)
    else (d, false)
  else (d, false)

def advance (d : Input) : Input := { d with r := d.r + 1 }

def retreat (d : Input) : Input := { d with r := d.r - 1 }

def ret (d : Input) (x : Ret) : Input := { d with returned := d.returned ++ [x] }

def init (buf : Fin INPUT_BUF → UInt8) : Input := ⟨buf, 0, 0, 0, []⟩

end Input

def consoleStart : Place → Bool
  | .intr _ => true
  | .wake _ => false
  | .read _ dst => dst.isEmpty

def consoleNext : Place → Bool → Input → Op Unit Place Input
  | .intr [], _, d => .leave d
  | .intr (c :: cs), _, d =>
    if (d.intr c).2 then .compute (.wake cs) (d.intr c).1 else .compute (.intr cs) (d.intr c).1
  | .wake cs, _, _ => .wakeup () (.intr cs)
  | .read target dst, killed, d =>
    if target - dst.length > 0 then
      if d.r = d.w then
        if killed then .leave (d.ret ⟨target, dst, -1, .killed⟩) else .sleep () (.read target dst)
      else
        let c := d.char d.r
        let d := d.advance
        if c = ctrlD then
          .leave ((if target - dst.length < target then d.retreat else d).ret
            ⟨target, dst, dst.length, .eof⟩)
        else if c = newline then .leave (d.ret ⟨target, dst ++ [c], (dst ++ [c]).length, .newline⟩)
        else .compute (.read target (dst ++ [c])) d
    else .leave (d.ret ⟨target, dst, dst.length, .full⟩)

def consoleClient : Client Unit Place Input := ⟨consoleStart, consoleNext⟩

end Xv6.Console
