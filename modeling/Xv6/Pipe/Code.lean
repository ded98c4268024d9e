import Xv6.Lib.Monitor
import Xv6.Lib.CounterRing
import Mathlib.Data.UInt

/-! `pipe.c`: one pipe, and the code of `pipewrite`, `piperead` and `pipeclose` under its lock. -/
namespace Xv6.Pipes

open Monitor

def PIPESIZE : ℕ := 512

instance : NeZero PIPESIZE := ⟨by decide⟩

/-- The channels `&p->nread` and `&p->nwrite`. -/
inductive Chan where
  | nread
  | nwrite
  deriving DecidableEq

structure Pipe where
  data : Fin PIPESIZE → UInt8
  nread : UInt32
  nwrite : UInt32
  readopen : Bool
  writeopen : Bool

namespace Pipe

def full (p : Pipe) : Bool := p.nwrite == p.nread + PIPESIZE.toUInt32

def empty (p : Pipe) : Bool := p.nread == p.nwrite

def push (p : Pipe) (b : UInt8) : Pipe :=
  { p with
    data := Function.update p.data (Fin.ofNat PIPESIZE p.nwrite.toNat) b
    nwrite := p.nwrite + 1 }

def front (p : Pipe) : UInt8 := p.data (Fin.ofNat PIPESIZE p.nread.toNat)

def pop (p : Pipe) : Pipe := { p with nread := p.nread + 1 }

def close (p : Pipe) (writable : Bool) : Pipe :=
  if writable then { p with writeopen := false } else { p with readopen := false }

def ring (p : Pipe) : List UInt8 :=
  CounterRing.items p.data p.nread.toNat (p.nwrite - p.nread).toNat

end Pipe

/-- What a call has returned: `pipewrite(p, addr, n)` the value `r`, with its number, and
`piperead(p, addr, n)` the value `r` and the bytes `buf`. -/
inductive Ret where
  | wrote (id : ℕ) (addr : ℕ → UInt8) (n r : ℤ)
  | read (n : ℤ) (buf : List UInt8) (r : ℤ)

structure Shared where
  pipe : Pipe
  freed : Bool
  calls : ℕ
  /-- The bytes stored, in order, each with the number of the call. -/
  stored : List (ℕ × UInt8)
  delivered : List UInt8
  returned : List Ret

namespace Shared

def store (d : Shared) (id : ℕ) (b : UInt8) : Shared :=
  { d with pipe := d.pipe.push b, stored := d.stored ++ [(id, b)] }

def deliver (d : Shared) : Shared :=
  { d with pipe := d.pipe.pop, delivered := d.delivered ++ [d.pipe.front] }

def ret (d : Shared) (r : Ret) : Shared := { d with returned := d.returned ++ [r] }

def setPipe (d : Shared) (p : Pipe) : Shared := { d with pipe := p }

/-- `if(p->readopen == 0 && p->writeopen == 0) kfree((char*)p);`. -/
def release (d : Shared) : Shared :=
  if !d.pipe.readopen && !d.pipe.writeopen then { d with freed := true } else d

/-- The pipe after `pipealloc`, in a page with any contents. -/
def init (data : Fin PIPESIZE → UInt8) : Shared := ⟨⟨data, 0, 0, true, true⟩, false, 0, [], [], []⟩

end Shared

inductive Place where
  | write (addr : ℕ → UInt8) (n : ℤ)
  /-- In the loop at `i`; the last `wakeup(&p->nread)` was at `told`. -/
  | writing (id : ℕ) (addr : ℕ → UInt8) (n : ℤ) (i told : ℕ)
  | blocked (id : ℕ) (addr : ℕ → UInt8) (n : ℤ) (i : ℕ)
  | written (id : ℕ) (addr : ℕ → UInt8) (n : ℤ)
  | read (n : ℤ)
  | reading (n : ℤ) (buf : List UInt8)
  | readDone (n : ℤ) (buf : List UInt8)
  | close (writable : Bool)
  | closing (writable : Bool)
  | closed

def pipeStart : Place → Bool
  | .write _ _ => true
  | .read _ => true
  | .close _ => true
  | _ => false

def pipeNext : Place → Bool → Shared → Op Chan Place Shared
  | .write addr n, _, d => .compute (.writing d.calls addr n 0 0) { d with calls := d.calls + 1 }
  | .writing id addr n i told, killed, d =>
    if (i : ℤ) < n then
      if d.pipe.full then
        if !d.pipe.readopen || killed then .leave (d.ret (.wrote id addr n (-1)))
        else .wakeup .nread (.blocked id addr n i)
      else .compute (.writing id addr n (i + 1) told) (d.store id (addr i))
    else .wakeup .nread (.written id addr n)
  | .blocked id addr n i, _, _ => .sleep .nwrite (.writing id addr n i i)
  | .written id addr n, _, d => .leave (d.ret (.wrote id addr n n))
  | .read n, killed, d =>
    if d.pipe.empty && d.pipe.writeopen then
      if killed then .leave (d.ret (.read n [] (-1))) else .sleep .nread (.read n)
    else .compute (.reading n []) d
  | .reading n buf, _, d =>
    if buf.length < n ∧ d.pipe.empty = false then
      .compute (.reading n (buf ++ [d.pipe.front])) d.deliver
    else .wakeup .nwrite (.readDone n buf)
  | .readDone n buf, _, d => .leave (d.ret (.read n buf buf.length))
  | .close writable, _, d => .compute (.closing writable) (d.setPipe (d.pipe.close writable))
  | .closing writable, _, _ => .wakeup (if writable then .nread else .nwrite) .closed
  | .closed, _, d => .leave d.release

def pipeClient : Client Chan Place Shared := ⟨pipeStart, pipeNext⟩

/-- What a call can do next. -/
inductive Does (killed : Bool) (d : Shared) : Place → Op Chan Place Shared → Prop where
  | write {addr : ℕ → UInt8} {n : ℤ} : Does killed d (.write addr n)
      (.compute (.writing d.calls addr n 0 0) { d with calls := d.calls + 1 })
  | giveUp {id : ℕ} {addr : ℕ → UInt8} {n : ℤ} {i told : ℕ} : i < n → d.pipe.full = true →
      d.pipe.readopen = false ∨ killed = true →
      Does killed d (.writing id addr n i told) (.leave (d.ret (.wrote id addr n (-1))))
  | block {id : ℕ} {addr : ℕ → UInt8} {n : ℤ} {i told : ℕ} : i < n → d.pipe.full = true →
      d.pipe.readopen = true →
      Does killed d (.writing id addr n i told) (.wakeup .nread (.blocked id addr n i))
  | store {id : ℕ} {addr : ℕ → UInt8} {n : ℤ} {i told : ℕ} : i < n → d.pipe.full = false →
      Does killed d (.writing id addr n i told)
        (.compute (.writing id addr n (i + 1) told) (d.store id (addr i)))
  | finish {id : ℕ} {addr : ℕ → UInt8} {n : ℤ} {i told : ℕ} : n ≤ i →
      Does killed d (.writing id addr n i told) (.wakeup .nread (.written id addr n))
  | blocked {id : ℕ} {addr : ℕ → UInt8} {n : ℤ} {i : ℕ} :
      Does killed d (.blocked id addr n i) (.sleep .nwrite (.writing id addr n i i))
  | written {id : ℕ} {addr : ℕ → UInt8} {n : ℤ} :
      Does killed d (.written id addr n) (.leave (d.ret (.wrote id addr n n)))
  | readKilled {n : ℤ} : Does killed d (.read n) (.leave (d.ret (.read n [] (-1))))
  | readSleep {n : ℤ} : d.pipe.empty = true → d.pipe.writeopen = true →
      Does killed d (.read n) (.sleep .nread (.read n))
  | readStart {n : ℤ} : d.pipe.empty = false ∨ d.pipe.writeopen = false →
      Does killed d (.read n) (.compute (.reading n []) d)
  | deliver {n : ℤ} {buf : List UInt8} : d.pipe.empty = false →
      Does killed d (.reading n buf) (.compute (.reading n (buf ++ [d.pipe.front])) d.deliver)
  | readStop {n : ℤ} {buf : List UInt8} : n ≤ buf.length ∨ d.pipe.empty = true →
      Does killed d (.reading n buf) (.wakeup .nwrite (.readDone n buf))
  | readDone {n : ℤ} {buf : List UInt8} :
      Does killed d (.readDone n buf) (.leave (d.ret (.read n buf buf.length)))
  | close {writable : Bool} :
      Does killed d (.close writable)
        (.compute (.closing writable) (d.setPipe (d.pipe.close writable)))
  | closing {writable : Bool} :
      Does killed d (.closing writable) (.wakeup (if writable then .nread else .nwrite) .closed)
  | closed : Does killed d .closed (.leave d.release)

theorem pipeNext_does (x : Place) (killed : Bool) (d : Shared) :
    Does killed d x (pipeNext x killed d) := by
  cases x with
  | write addr n => exact .write
  | writing id addr n i told =>
    rw [pipeNext]
    split_ifs with hi hf hk
    · exact .giveUp hi hf (by simpa using hk)
    · exact .block hi hf (by grind)
    · exact .store hi (by simpa using hf)
    · exact .finish (by omega)
  | blocked id addr n i => exact .blocked
  | written id addr n => exact .written
  | read n =>
    rw [pipeNext]
    split_ifs with he hk
    · exact .readKilled
    · rw [Bool.and_eq_true] at he
      exact .readSleep he.1 he.2
    · exact .readStart (by grind)
  | reading n buf =>
    rw [pipeNext]
    split_ifs with hb
    · exact .deliver hb.2
    · refine .readStop ?_
      by_cases hn : buf.length < n
      · exact .inr (by simpa [hn] using hb)
      · exact .inl (by omega)
  | readDone n buf => exact .readDone
  | close writable => exact .close
  | closing writable => exact .closing
  | closed => exact .closed

theorem does_of_next {x : Place} {killed : Bool} {d : Shared} {op : Op Chan Place Shared}
    (h : pipeClient.next x killed d = op) : Does killed d x op :=
  h ▸ pipeNext_does x killed d

end Xv6.Pipes
