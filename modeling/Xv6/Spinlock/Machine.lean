import Mathlib.Data.Int.Notation
import Mathlib.Data.List.Nodup
import Mathlib.Logic.Function.Basic
import Xv6.Lib.Run

/-! `spinlock.c` and the switches of `proc.c` with the interrupt flag: any number of CPUs, locks
and processes. Kernel threads call `acquire`, `release`, `sleep`, `yield` and `exit` in any order,
and are interrupted wherever the flag allows it. -/
namespace Xv6

namespace Spinlock

inductive Panic where
  | acquire
  | release
  | popcliInterruptible
  | popcli
  | schedPtableLock
  | schedLocks
  | schedRunning
  | schedInterruptible
  | zombieExit
  deriving DecidableEq

/-- The fields of `struct cpu` that `pushcli` uses, and `FL_IF`. -/
structure Cpu where
  ncli : ℤ
  intena : Bool
  flag : Bool
  deriving DecidableEq

namespace Cpu

def pushcli (u : Cpu) : Cpu where
  ncli := u.ncli + 1
  intena := if u.ncli = 0 then u.flag else u.intena
  flag := false

def popcli (u : Cpu) : Except Panic Cpu :=
  if u.flag then .error .popcliInterruptible
  else if u.ncli - 1 < 0 then .error .popcli
  else .ok { u with
    ncli := u.ncli - 1
    flag := if u.ncli - 1 = 0 ∧ u.intena = true then true else u.flag }

/-- What `switchuvm` does here; the segments are not modelled. -/
def switchuvm (u : Cpu) : Except Panic Cpu := u.pushcli.popcli

end Cpu

inductive State where
  | embryo
  | sleeping
  | runnable
  | running
  | zombie
  deriving DecidableEq

inductive Place (L : Type) where
  /-- Any code that holds the locks its thread has acquired. -/
  | code
  | yield
  | yieldBack
  /-- `sleep`: `release(lk)`. -/
  | sleep (lk : L)
  /-- `sleep`: `proc->state = SLEEPING; sched()`. -/
  | sleepSched (lk : L)
  | sleepBack (lk : L)
  /-- `sleep`: `acquire(lk)`. -/
  | sleepAgain (lk : L)
  | exit
  | exitBack
  | forkret
  | start
  | enabled
  | scan
  deriving DecidableEq

/-- Where a thread is: between calls, in the loop of `acquire`, in `release` before `popcli`, or
in `swtch` with the `intena` that `sched` keeps on the stack. A new process has none. -/
inductive Point (L : Type) where
  | place (n : Place L)
  | acquiring (lk : L) (n : Place L)
  | releasing (n : Place L)
  | off (intena : Option Bool) (n : Place L)
  deriving DecidableEq

/-- The code of a thread since it was last interrupted. `before` is the interrupt flag as it was
before the outermost `acquire`. -/
structure Frame (L : Type) where
  point : Point L
  before : Bool
  deriving DecidableEq

/-- A kernel thread: what it executes, the code that interrupts have suspended, and the locks it
has acquired and not released. -/
structure Thread (L : Type) where
  top : Frame L
  below : List (Frame L)
  held : List L
  deriving DecidableEq

/-- The threads are those of the processes and the schedulers. `lock lk` is `lk->cpu` if the lock is
locked. -/
structure Sys (C P L : Type) where
  cpu : C → Cpu
  proc : C → Option P
  lock : L → Option C
  thread : P ⊕ C → Thread L
  state : P → State
  panic : Option Panic

inductive Choice (P L : Type) where
  | go
  | acquire (lk : L)
  | release (lk : L)
  | yield
  | sleep (lk : L)
  | exit
  | switchuvm
  | wakeup (p : P)
  | fork (p : P)
  | interrupt
  | iret
  | dispatch (p : P)

namespace Thread

variable {L : Type}

def goto (x : Thread L) (pt : Point L) : Thread L := { x with top := { x.top with point := pt } }

/-- The flag is recorded when no lock is held. -/
def record (x : Thread L) (flag : Bool) : Thread L :=
  if x.held = [] then { x with top := { x.top with before := flag } } else x

end Thread

namespace Sys

variable {C P L : Type} [DecidableEq C] [DecidableEq P] [DecidableEq L]

def current (s : Sys C P L) (c : C) : P ⊕ C :=
  match s.proc c with
  | some p => .inl p
  | none => .inr c

def here (s : Sys C P L) (c : C) : Thread L := s.thread (s.current c)

def set (s : Sys C P L) (c : C) (u : Cpu) (x : Thread L) : Sys C P L :=
  { s with cpu := Function.update s.cpu c u, thread := Function.update s.thread (s.current c) x }

def setLock (s : Sys C P L) (lk : L) (o : Option C) : Sys C P L :=
  { s with lock := Function.update s.lock lk o }

def setState (s : Sys C P L) (p : P) (st : State) : Sys C P L :=
  { s with state := Function.update s.state p st }

def fail (s : Sys C P L) (e : Panic) : Sys C P L := { s with panic := some e }

def goto (s : Sys C P L) (c : C) (pt : Point L) : Sys C P L :=
  s.set c (s.cpu c) ((s.here c).goto pt)

def acquire (s : Sys C P L) (c : C) (x : Thread L) (lk : L) (n : Place L) : Sys C P L :=
  let t := s.set c (s.cpu c).pushcli (x.goto (.acquiring lk n))
  if s.lock lk = some c then t.fail .acquire else t

def release (s : Sys C P L) (c : C) (lk : L) (n : Place L) : Sys C P L :=
  if s.lock lk ≠ some c then s.fail .release
  else
    (s.set c (s.cpu c)
        { (s.here c).goto (.releasing n) with held := (s.here c).held.erase lk }).setLock
      lk none

def popcli (s : Sys C P L) (c : C) (n : Place L) : Sys C P L :=
  match (s.cpu c).popcli with
  | .error e => s.fail e
  | .ok u => s.set c u ((s.here c).goto (.place n))

/-- The state of the process changes and it calls `sched`, up to `swtch`: the scheduler goes on, and
`ptable.lock` is now its own. -/
def sched (ptable : L) (s : Sys C P L) (c : C) (p : P) (st : State) (n : Place L) : Sys C P L :=
  let s := s.setState p st
  if s.lock ptable ≠ some c then s.fail .schedPtableLock
  else if (s.cpu c).ncli ≠ 1 then s.fail .schedLocks
  else if s.state p = .running then s.fail .schedRunning
  else if (s.cpu c).flag then s.fail .schedInterruptible
  else
    let x := s.thread (.inl p)
    let y := s.thread (.inr c)
    { s with
      proc := Function.update s.proc c none
      thread := Function.update
        (Function.update s.thread (.inl p)
          { x.goto (.off (some (s.cpu c).intena) n) with held := x.held.erase ptable })
        (.inr c) { y with held := ptable :: y.held } }

/-- The scheduler switches to a process, which continues in `sched`, or at `forkret` if it is new.
-/
def dispatch (ptable : L) (s : Sys C P L) (c : C) (p : P) : Option (Sys C P L) :=
  if s.state p = .runnable then
    match (s.thread (.inl p)).top.point with
    | .off intena n =>
      match (s.cpu c).switchuvm with
      | .error e => some (s.fail e)
      | .ok u =>
        let x := s.thread (.inl p)
        let y := s.thread (.inr c)
        let b := intena.getD u.intena
        some { (s.setState p .running) with
          cpu := Function.update s.cpu c { u with intena := b }
          proc := Function.update s.proc c (some p)
          thread := Function.update
            (Function.update s.thread (.inl p)
              { x with
                top := ⟨.place n, if intena = none then b else x.top.before⟩
                held := ptable :: x.held })
            (.inr c) { y with held := y.held.erase ptable } }
    | _ => none
  else none

def switchuvm (s : Sys C P L) (c : C) : Sys C P L :=
  match (s.cpu c).switchuvm with
  | .error e => s.fail e
  | .ok u => s.set c u (s.here c)

def runCode (ptable : L) (s : Sys C P L) (c : C) : Choice P L → Option (Sys C P L)
  | .acquire lk => some (s.acquire c ((s.here c).record (s.cpu c).flag) lk .code)
  | .release lk => some (s.release c lk .code)
  | .yield =>
    if (s.proc c).isSome then
      some (s.acquire c ((s.here c).record (s.cpu c).flag) ptable .yield)
    else none
  | .sleep lk =>
    if (s.proc c).isSome then
      if lk ≠ ptable then
        some (s.acquire c ((s.here c).record (s.cpu c).flag) ptable (.sleep lk))
      else some (s.goto c (.place (.sleepSched lk)))
    else none
  | .exit =>
    if (s.proc c).isSome then
      some (s.acquire c ((s.here c).record (s.cpu c).flag) ptable .exit)
    else none
  | .switchuvm => some (s.switchuvm c)
  | .wakeup p =>
    if s.lock ptable = some c ∧ s.state p = .sleeping then some (s.setState p .runnable) else none
  | .fork p => if s.state p = .embryo then some (s.setState p .runnable) else none
  | .iret =>
    match (s.here c).below with
    | f :: below =>
      if (s.here c).held = [] then
        some (s.set c { s.cpu c with flag := true } ⟨f, below, []⟩)
      else none
    | [] => none
  | _ => none

/-- A step of `scheduler`. It takes the processes in any order. -/
def runScheduler (ptable : L) (s : Sys C P L) (c : C) (n : Place L) (a : Choice P L) :
    Option (Sys C P L) :=
  match n with
  | .start => some (s.set c { s.cpu c with flag := true } ((s.here c).goto (.place .enabled)))
  | .enabled => some (s.acquire c (s.here c) ptable .scan)
  | .scan =>
    match a with
    | .go => some (s.release c ptable .start)
    | .dispatch p => s.dispatch ptable c p
    | _ => none
  | _ => none

def runPlace (ptable : L) (s : Sys C P L) (c : C) (n : Place L) (a : Choice P L) :
    Option (Sys C P L) :=
  match n with
  | .code => s.runCode ptable c a
  | .yield => (s.proc c).map fun p => s.sched ptable c p .runnable .yieldBack
  | .yieldBack => some (s.release c ptable .code)
  | .sleep lk => some (s.release c lk (.sleepSched lk))
  | .sleepSched lk => (s.proc c).map fun p => s.sched ptable c p .sleeping (.sleepBack lk)
  | .sleepBack lk =>
    if lk ≠ ptable then some (s.release c ptable (.sleepAgain lk))
    else some (s.goto c (.place .code))
  | .sleepAgain lk => some (s.acquire c (s.here c) lk .code)
  | .exit => (s.proc c).map fun p => s.sched ptable c p .zombie .exitBack
  | .exitBack => some (s.fail .zombieExit)
  | .forkret => some (s.release c ptable .code)
  | n => if s.proc c = none then s.runScheduler ptable c n a else none

def interrupt (s : Sys C P L) (c : C) : Option (Sys C P L) :=
  if (s.cpu c).flag then
    some (s.set c { s.cpu c with flag := false }
      { (s.here c) with
        top := ⟨.place .code, false⟩
        below := (s.here c).top :: (s.here c).below })
  else none

def run (ptable : L) (s : Sys C P L) (c : C) (a : Choice P L) : Option (Sys C P L) :=
  match (s.here c).top.point with
  | .place n => s.runPlace ptable c n a
  | .acquiring lk n =>
    if s.lock lk = none then
      some ((s.set c (s.cpu c)
        { (s.here c).goto (.place n) with held := lk :: (s.here c).held }).setLock lk (some c))
    else none
  | .releasing n => some (s.popcli c n)
  | .off _ _ => none

def step (ptable : L) (s : Sys C P L) (a : C × Choice P L) : Option (Sys C P L) :=
  if s.panic.isSome then none
  else
    match a.2 with
    | .interrupt => s.interrupt a.1
    | x => s.run ptable a.1 x

end Sys

def newThread (L : Type) : Thread L := ⟨⟨.off none .forkret, true⟩, [⟨.place .code, true⟩], []⟩

structure Boot {C P L : Type} (s : Sys C P L) : Prop where
  cpu : ∀ c, (s.cpu c).ncli = 0
  proc : ∀ c, s.proc c = none
  lock : ∀ lk, s.lock lk = none
  thread : ∀ p, s.thread (.inl p) = newThread L
  scheduler : ∀ c, ∃ b, s.thread (.inr c) = ⟨⟨.place .start, b⟩, [], []⟩
  state : ∀ p, s.state p = .embryo ∨ s.state p = .runnable
  panic : s.panic = none

end Spinlock

end Xv6
