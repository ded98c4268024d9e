import Xv6.Lib.Run
import Xv6.Param
import Mathlib.Data.List.FinRange

/-! The process table of `proc.c`. A machine whose actions are the sections that `fork`, `exit`,
`wait`, `kill`, `sleep`, `wakeup`, `yield` and the scheduler run under `ptable.lock`, and the steps
`fork` and `exit` take without it. A log records what the calls did. -/
namespace Xv6.Ptable

inductive ProcState where
  | unused
  | embryo
  | sleeping
  | runnable
  | running
  | zombie
  deriving DecidableEq, Repr

abbrev Slot := Fin NPROC

/-- What a process sleeps on: a `struct proc` in `wait`, or anything else. -/
inductive Chan (K : Type) where
  | proc (p : Slot)
  | other (k : K)
  deriving DecidableEq

/-- `struct proc`, without the memory, the saved registers and the name. -/
structure Proc (K : Type) where
  state : ProcState
  pid : ℤ
  parent : Option Slot
  killed : Bool
  chan : Option (Chan K)
  ofile : Fin NOFILE → Option ℕ

/-- Where a process is in the code of `fork`, `exit` and `wait`. -/
inductive Stage where
  | user
  | taken (np : Slot)
  | stacked (np : Slot)
  /-- The child has a page table and a parent, and its first `fd` descriptors. -/
  | duping (np : Slot) (fd : ℕ)
  | closing (fd : ℕ)
  | waiting
  deriving DecidableEq

inductive Event where
  | assigned (q : Slot) (pid : ℤ)
  /-- `fork` made the child in slot `q` runnable, with this `killed` flag. -/
  | forked (q : Slot) (parent child : ℤ) (killed : Bool)
  | exited (pid : ℤ)
  | reaped (parent child : ℤ)
  /-- `kill pid` returned 0 or not, when there was a process with that pid or not. -/
  | killed (pid : ℤ) (ok live : Bool)
  deriving DecidableEq

abbrev Procs (K : Type) := Slot → Proc K

def slots : List Slot := List.finRange NPROC

namespace Procs

variable {K : Type} [DecidableEq K]

def set (procs : Procs K) (p : Slot) (x : Proc K) : Procs K := Function.update procs p x

def setState (procs : Procs K) (p : Slot) (x : ProcState) : Procs K :=
  procs.set p { procs p with state := x }

def wakeup1 (procs : Procs K) (chan : Chan K) : Procs K := fun q =>
  if (procs q).state = .sleeping ∧ (procs q).chan = some chan then
    { procs q with state := .runnable }
  else procs q

/-- The loop of `exit` that passes the abandoned children of `p` to `initproc`. -/
def abandon (initproc p : Slot) : List Slot → Procs K → Procs K
  | [], procs => procs
  | q :: qs, procs =>
    if (procs q).parent = some p then
      let passed := procs.set q { procs q with parent := some initproc }
      abandon initproc p qs
        (if (procs q).state = .zombie then passed.wakeup1 (.proc initproc) else passed)
    else abandon initproc p qs procs

def wakeupParent (procs : Procs K) (p : Slot) : Procs K :=
  match (procs p).parent with
  | some r => procs.wakeup1 (.proc r)
  | none => procs

/-- The section of `exit` under `ptable.lock`. -/
def exit (procs : Procs K) (initproc p : Slot) : Procs K :=
  (abandon initproc p slots (procs.wakeupParent p)).setState p .zombie

def zombieChild (procs : Procs K) (p : Slot) : Option Slot :=
  slots.find? fun q => (procs q).parent = some p ∧ (procs q).state = .zombie

def havekids (procs : Procs K) (p : Slot) : Bool := slots.any fun q => (procs q).parent = some p

/-- What `wait` clears in the slot of a child it found. -/
def reap (procs : Procs K) (q : Slot) : Procs K :=
  procs.set q { procs q with state := .unused, pid := 0, parent := none, killed := false }

def findPid (procs : Procs K) (pid : ℤ) : Option Slot := slots.find? fun q => (procs q).pid = pid

/-- What `kill` does to the process it found. -/
def hit (procs : Procs K) (q : Slot) : Procs K :=
  procs.set q { procs q with
    killed := true
    state := if (procs q).state = .sleeping then .runnable else (procs q).state }

def live (procs : Procs K) (pid : ℤ) : Bool :=
  slots.any fun q => (procs q).state ≠ .unused ∧ (procs q).pid = pid

end Procs

/-- `ptable`, `nextpid` and `initproc`, with the place of each process in the code and the log,
newest event first. -/
structure Table (K : Type) where
  procs : Procs K
  stage : Slot → Stage
  nextpid : ℕ
  initproc : Slot
  log : List Event

namespace Table

variable {K : Type} [DecidableEq K]

inductive Act (K : Type) where
  | dispatch (p : Slot)
  | yield (p : Slot)
  | sleep (p : Slot) (k : K)
  /-- `sleep` clears `chan` after `sched` returned. -/
  | tidy (p : Slot)
  | wakeup (k : K)
  | kill (p : Slot) (pid : ℤ)
  | ofile (p : Slot) (fd : Fin NOFILE) (f : Option ℕ)
  | allocproc (p : Slot)
  | kalloc (p : Slot) (ok : Bool)
  | copyuvm (p : Slot) (ok : Bool)
  | filedup (p : Slot)
  | run (p : Slot)
  | fileclose (p : Slot)
  | exit (p : Slot)
  | wait (p : Slot)

def int32 (n : ℕ) : ℤ := Int.bmod n (2 ^ 32)

def At (s : Table K) (p : Slot) (g : Stage) : Prop := (s.procs p).state = .running ∧ s.stage p = g

instance (s : Table K) (p : Slot) (g : Stage) : Decidable (s.At p g) :=
  inferInstanceAs (Decidable (_ ∧ _))

def goto (s : Table K) (p : Slot) (g : Stage) : Table K :=
  { s with stage := Function.update s.stage p g }

def record (s : Table K) (e : Event) : Table K := { s with log := e :: s.log }

def setProc (s : Table K) (p : Slot) (x : Proc K) : Table K := { s with procs := s.procs.set p x }

def setState (s : Table K) (p : Slot) (x : ProcState) : Table K :=
  { s with procs := s.procs.setState p x }

def pid (s : Table K) (p : Slot) : ℤ := (s.procs p).pid

def unusedSlot (s : Table K) : Option Slot := slots.find? fun q => (s.procs q).state = .unused

def take (s : Table K) (p np : Slot) : Table K where
  procs := s.procs.set np { s.procs np with state := .embryo, pid := int32 s.nextpid }
  stage := Function.update s.stage p (.taken np)
  nextpid := s.nextpid + 1
  initproc := s.initproc
  log := .assigned np (int32 s.nextpid) :: s.log

/-- `allocproc`, up to the release of `ptable.lock`. -/
def allocproc (s : Table K) (p : Slot) : Table K :=
  match s.unusedSlot with
  | none => s
  | some np => s.take p np

def unfork (s : Table K) (p np : Slot) : Table K := (s.setState np .unused).goto p .user

/-- `np->parent = proc`, once the memory is copied. -/
def adopt (s : Table K) (p np : Slot) : Table K :=
  (s.setProc np { s.procs np with parent := some p }).goto p (.duping np 0)

/-- The turn of the loop of `fork` that copies descriptor `fd`. -/
def filedup (s : Table K) (p np : Slot) (fd : Fin NOFILE) : Table K :=
  let f := (s.procs p).ofile fd
  let ofile := (s.procs np).ofile
  (s.setProc np
      { s.procs np with ofile := if f.isSome then Function.update ofile fd f else ofile }).goto
    p (.duping np (fd + 1))

/-- `np->state = RUNNABLE` at the end of `fork`. The child will start at `forkret`. -/
def run (s : Table K) (p np : Slot) : Table K :=
  (((s.setState np .runnable).goto np .user).goto p .user).record
    (.forked np (s.pid p) (s.pid np) (s.procs np).killed)

def setOfile (s : Table K) (p : Slot) (fd : Fin NOFILE) (f : Option ℕ) : Table K :=
  s.setProc p { s.procs p with ofile := Function.update (s.procs p).ofile fd f }

def exit (s : Table K) (p : Slot) : Table K :=
  record { s with procs := s.procs.exit s.initproc p } (.exited (s.pid p))

def reap (s : Table K) (p q : Slot) : Table K :=
  (goto { s with procs := s.procs.reap q } p .user).record (.reaped (s.pid p) (s.pid q))

def await (s : Table K) (p : Slot) : Table K :=
  (s.setProc p { s.procs p with chan := some (.proc p), state := .sleeping }).goto p .waiting

/-- One turn of the loop of `wait`. -/
def wait (s : Table K) (p : Slot) : Table K :=
  match s.procs.zombieChild p with
  | some q => s.reap p q
  | none => if !s.procs.havekids p || (s.procs p).killed then s.goto p .user else s.await p

def kill (s : Table K) (pid : ℤ) : Table K :=
  match s.procs.findPid pid with
  | some q => record { s with procs := s.procs.hit q } (.killed pid true (s.procs.live pid))
  | none => s.record (.killed pid false (s.procs.live pid))

/-- One action, if the code can take it. `exit` panics in `initproc`, and nothing follows. -/
def step (s : Table K) : Act K → Option (Table K)
  | .dispatch p => if (s.procs p).state = .runnable then some (s.setState p .running) else none
  | .yield p => if (s.procs p).state = .running then some (s.setState p .runnable) else none
  | .sleep p k =>
    if (s.procs p).state = .running then
      some (s.setProc p { s.procs p with chan := some (.other k), state := .sleeping })
    else none
  | .tidy p =>
    if (s.procs p).state = .running then some (s.setProc p { s.procs p with chan := none })
    else none
  | .wakeup k => some { s with procs := s.procs.wakeup1 (.other k) }
  | .kill p pid => if s.At p .user then some (s.kill pid) else none
  | .ofile p fd f => if s.At p .user then some (s.setOfile p fd f) else none
  | .allocproc p => if s.At p .user then some (s.allocproc p) else none
  | .kalloc p ok =>
    match s.stage p with
    | .taken np =>
      if (s.procs p).state = .running then
        some (if ok then s.goto p (.stacked np) else s.unfork p np)
      else none
    | _ => none
  | .copyuvm p ok =>
    match s.stage p with
    | .stacked np =>
      if (s.procs p).state = .running then some (if ok then s.adopt p np else s.unfork p np)
      else none
    | _ => none
  | .filedup p =>
    match s.stage p with
    | .duping np fd =>
      if h : (s.procs p).state = .running ∧ fd < NOFILE then some (s.filedup p np ⟨fd, h.2⟩)
      else none
    | _ => none
  | .run p =>
    match s.stage p with
    | .duping np fd =>
      if (s.procs p).state = .running ∧ fd = NOFILE then some (s.run p np) else none
    | _ => none
  | .fileclose p =>
    match s.stage p with
    | .user =>
      if (s.procs p).state = .running ∧ p ≠ s.initproc then some (s.goto p (.closing 0)) else none
    | .closing fd =>
      if h : (s.procs p).state = .running ∧ fd < NOFILE then
        some ((s.setOfile p ⟨fd, h.2⟩ none).goto p (.closing (fd + 1)))
      else none
    | _ => none
  | .exit p => if s.At p (.closing NOFILE) then some (s.exit p) else none
  | .wait p => if s.At p .user ∨ s.At p .waiting then some (s.wait p) else none

/-- What the actions do, by the branch of the code they take. -/
inductive Move (s : Table K) : Act K → Table K → Prop where
  | dispatch {p : Slot} : (s.procs p).state = .runnable →
      Move s (.dispatch p) (s.setState p .running)
  | yield {p : Slot} : (s.procs p).state = .running → Move s (.yield p) (s.setState p .runnable)
  | sleep {p : Slot} {k : K} : (s.procs p).state = .running →
      Move s (.sleep p k)
        (s.setProc p { s.procs p with chan := some (.other k), state := .sleeping })
  | tidy {p : Slot} : (s.procs p).state = .running →
      Move s (.tidy p) (s.setProc p { s.procs p with chan := none })
  | wakeup {k : K} : Move s (.wakeup k) { s with procs := s.procs.wakeup1 (.other k) }
  | killed {p q : Slot} {pid : ℤ} : s.At p .user → s.procs.findPid pid = some q →
      Move s (.kill p pid)
        (record { s with procs := s.procs.hit q } (.killed pid true (s.procs.live pid)))
  | noKill {p : Slot} {pid : ℤ} : s.At p .user → s.procs.findPid pid = none →
      Move s (.kill p pid) (s.record (.killed pid false (s.procs.live pid)))
  | ofile {p : Slot} {fd : Fin NOFILE} {f : Option ℕ} : s.At p .user →
      Move s (.ofile p fd f) (s.setOfile p fd f)
  | noSlot {p : Slot} : s.At p .user → s.unusedSlot = none → Move s (.allocproc p) s
  | taken {p np : Slot} : s.At p .user → s.unusedSlot = some np →
      Move s (.allocproc p) (s.take p np)
  | stacked {p np : Slot} : s.At p (.taken np) → Move s (.kalloc p true) (s.goto p (.stacked np))
  | noStack {p np : Slot} : s.At p (.taken np) → Move s (.kalloc p false) (s.unfork p np)
  | adopted {p np : Slot} : s.At p (.stacked np) → Move s (.copyuvm p true) (s.adopt p np)
  | noMemory {p np : Slot} : s.At p (.stacked np) → Move s (.copyuvm p false) (s.unfork p np)
  | filedup {p np : Slot} {fd : Fin NOFILE} : s.At p (.duping np fd) →
      Move s (.filedup p) (s.filedup p np fd)
  | run {p np : Slot} : s.At p (.duping np NOFILE) → Move s (.run p) (s.run p np)
  | exiting {p : Slot} : s.At p .user → p ≠ s.initproc →
      Move s (.fileclose p) (s.goto p (.closing 0))
  | fileclose {p : Slot} {fd : Fin NOFILE} : s.At p (.closing fd) →
      Move s (.fileclose p) ((s.setOfile p fd none).goto p (.closing (fd + 1)))
  | exit {p : Slot} : s.At p (.closing NOFILE) → Move s (.exit p) (s.exit p)
  | reaped {p q : Slot} : (s.procs p).state = .running → s.procs.zombieChild p = some q →
      Move s (.wait p) (s.reap p q)
  | noChild {p : Slot} : (s.procs p).state = .running → s.procs.zombieChild p = none →
      s.procs.havekids p = false ∨ (s.procs p).killed = true → Move s (.wait p) (s.goto p .user)
  | waits {p : Slot} : (s.procs p).state = .running → s.procs.zombieChild p = none →
      s.procs.havekids p = true → (s.procs p).killed = false → Move s (.wait p) (s.await p)

theorem kill_move {s : Table K} {p : Slot} {pid : ℤ} (h : s.At p .user) :
    Move s (.kill p pid) (s.kill pid) := by
  rw [kill]
  cases hq : s.procs.findPid pid with
  | none => exact .noKill h hq
  | some q => exact .killed h hq

theorem allocproc_move {s : Table K} {p : Slot} (h : s.At p .user) :
    Move s (.allocproc p) (s.allocproc p) := by
  rw [allocproc]
  cases hq : s.unusedSlot with
  | none => exact .noSlot h hq
  | some np => exact .taken h hq

theorem wait_move {s : Table K} {p : Slot} (h : (s.procs p).state = .running) :
    Move s (.wait p) (s.wait p) := by
  rw [wait]
  cases hq : s.procs.zombieChild p with
  | none =>
    dsimp only
    split
    case isTrue hw => exact .noChild h hq (by simpa using hw)
    case isFalse hw =>
      simp only [Bool.or_eq_true, Bool.not_eq_true', not_or, Bool.not_eq_false,
        Bool.not_eq_true] at hw
      exact .waits h hq hw.1 hw.2
  | some q => exact .reaped h hq

theorem step_move {s t : Table K} {a : Act K} (h : s.step a = some t) : Move s a t := by
  cases a with
  | dispatch p =>
    simp only [step, Option.ite_none_right_eq_some, Option.some.injEq] at h
    exact h.2 ▸ .dispatch h.1
  | yield p =>
    simp only [step, Option.ite_none_right_eq_some, Option.some.injEq] at h
    exact h.2 ▸ .yield h.1
  | sleep p k =>
    simp only [step, Option.ite_none_right_eq_some, Option.some.injEq] at h
    exact h.2 ▸ .sleep h.1
  | tidy p =>
    simp only [step, Option.ite_none_right_eq_some, Option.some.injEq] at h
    exact h.2 ▸ .tidy h.1
  | wakeup k => exact Option.some.inj h ▸ .wakeup
  | kill p pid =>
    simp only [step, Option.ite_none_right_eq_some, Option.some.injEq] at h
    exact h.2 ▸ kill_move h.1
  | ofile p fd f =>
    simp only [step, Option.ite_none_right_eq_some, Option.some.injEq] at h
    exact h.2 ▸ .ofile h.1
  | allocproc p =>
    simp only [step, Option.ite_none_right_eq_some, Option.some.injEq] at h
    exact h.2 ▸ allocproc_move h.1
  | kalloc p ok =>
    simp only [step] at h
    split at h
    case h_2 => cases h
    case h_1 np hnp =>
      simp only [Option.ite_none_right_eq_some, Option.some.injEq] at h
      obtain ⟨hr, rfl⟩ := h
      cases ok with
      | false => exact .noStack ⟨hr, hnp⟩
      | true => exact .stacked ⟨hr, hnp⟩
  | copyuvm p ok =>
    simp only [step] at h
    split at h
    case h_2 => cases h
    case h_1 np hnp =>
      simp only [Option.ite_none_right_eq_some, Option.some.injEq] at h
      obtain ⟨hr, rfl⟩ := h
      cases ok with
      | false => exact .noMemory ⟨hr, hnp⟩
      | true => exact .adopted ⟨hr, hnp⟩
  | filedup p =>
    simp only [step] at h
    split at h
    case h_2 => cases h
    case h_1 np fd hnp =>
      simp only [Option.dite_none_right_eq_some, Option.some.injEq] at h
      obtain ⟨hr, rfl⟩ := h
      exact .filedup ⟨hr.1, hnp⟩
  | run p =>
    simp only [step] at h
    split at h
    case h_2 => cases h
    case h_1 np fd hnp =>
      simp only [Option.ite_none_right_eq_some, Option.some.injEq] at h
      obtain ⟨⟨hr, rfl⟩, rfl⟩ := h
      exact .run ⟨hr, hnp⟩
  | fileclose p =>
    simp only [step] at h
    split at h
    case h_3 => cases h
    case h_1 hg =>
      simp only [Option.ite_none_right_eq_some, Option.some.injEq] at h
      obtain ⟨⟨hr, hp⟩, rfl⟩ := h
      exact .exiting ⟨hr, hg⟩ hp
    case h_2 fd hg =>
      simp only [Option.dite_none_right_eq_some, Option.some.injEq] at h
      obtain ⟨hr, rfl⟩ := h
      exact .fileclose ⟨hr.1, hg⟩
  | exit p =>
    simp only [step, Option.ite_none_right_eq_some, Option.some.injEq] at h
    exact h.2 ▸ .exit h.1
  | wait p =>
    simp only [step, Option.ite_none_right_eq_some, Option.some.injEq] at h
    exact h.2 ▸ wait_move (h.1.elim And.left And.left)

def boot : Table K where
  procs q := ⟨if q = 0 then .runnable else .unused, if q = 0 then 1 else 0, none, false, none,
    fun _ => none⟩
  stage _ := .user
  nextpid := 2
  initproc := 0
  log := []

end Table

end Xv6.Ptable
