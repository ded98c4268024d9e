import Xv6.Log.Commit
import Xv6.Lib.Run
import Mathlib.Data.Finset.Card

/-! Group commit: `begin_op`, `log_write`, `end_op` and the commit it starts, run by any
number of processes. Each section under `log.lock` is one step; the checks of `log_write`
and the statements of `commit` run without the lock and are steps of their own. -/
namespace Xv6

/-- Where a running `commit` stands. `writeLog` and `install` carry the loop index `tail`. -/
inductive CommitPc where
  | start
  | writeLog (tail : ℕ)
  | writeHead
  | install (tail : ℕ)
  | clear
  | clearHead
  deriving DecidableEq, Repr

/-- Where a process stands with respect to the log. -/
inductive LogPc where
  | idle
  | waiting
  | asleep
  | inOp
  | logging (sector : ℕ)
  | commit (stage : CommitPc)
  | committed
  deriving DecidableEq, Repr

namespace LogPc

/-- Between the return of `begin_op` and the call of `end_op`. -/
def Active : LogPc → Prop
  | inOp | logging _ => True
  | _ => False

/-- Inside the part of `end_op` that follows `do_commit = 1`. -/
def Committing : LogPc → Prop
  | commit _ | committed => True
  | _ => False

instance : DecidablePred Active := fun c => by
  cases c <;> unfold Active <;> infer_instance

instance : DecidablePred Committing := fun c => by
  cases c <;> unfold Committing <;> infer_instance

end LogPc

/-- `struct log` and the processes using it. The last three fields only record history:
the sectors logged by each operation in progress, by the operations that ended since the last
commit, and by all operations since the last commit. -/
structure GroupState (P : Type*) where
  outstanding : ℤ
  committing : Bool
  lh : List ℕ
  pc : P → LogPc
  panic : Option String
  cur : P → List ℕ
  ended : List ℕ
  logged : List ℕ

namespace GroupState

variable {P : Type*} [DecidableEq P]

def init : GroupState P := ⟨0, false, [], fun _ => .idle, none, fun _ => [], [], []⟩

def setPc (s : GroupState P) (p : P) (c : LogPc) : GroupState P :=
  { s with pc := Function.update s.pc p c }

def wakeup (s : GroupState P) : GroupState P :=
  { s with pc := fun q => if s.pc q = .asleep then .waiting else s.pc q }

/-- One pass of the loop of `begin_op`, with the lock held. -/
def beginOp (s : GroupState P) (p : P) : GroupState P :=
  if s.committing then s.setPc p .asleep
  else if (s.lh.length : ℤ) + (s.outstanding + 1) * MAXOPBLOCKS > LOGSIZE then
    s.setPc p .asleep
  else { s.setPc p .inOp with outstanding := s.outstanding + 1 }

/-- The tests of `log_write`, made before the lock is taken. -/
def logCheck (log : LogArea) (s : GroupState P) (p : P) (sector : ℕ) : GroupState P :=
  if s.lh.length ≥ LOGSIZE ∨ (s.lh.length : ℤ) ≥ (log.size : ℤ) - 1 then
    { s with panic := some "too big a transaction" }
  else if s.outstanding < 1 then { s with panic := some "log_write outside of trans" }
  else s.setPc p (.logging sector)

/-- The loop of `log_write` and the stores after it: the sector is found in the header, or
stored behind it. -/
def absorb (lh : List ℕ) (sector : ℕ) : List ℕ :=
  let i := lh.findIdx (· == sector)
  if i = lh.length then lh ++ [sector] else lh.set i sector

def logAppend (s : GroupState P) (p : P) (sector : ℕ) : GroupState P :=
  { s.setPc p .inOp with
    lh := absorb s.lh sector
    cur := Function.update s.cur p (s.cur p ++ [sector])
    logged := s.logged ++ [sector] }

def endOp (s : GroupState P) (p : P) : GroupState P :=
  let s := { s with
    outstanding := s.outstanding - 1
    cur := Function.update s.cur p []
    ended := s.ended ++ s.cur p }
  if s.committing then { s with panic := some "log.committing" }
  else if s.outstanding = 0 then { s.setPc p (.commit .start) with committing := true }
  else (s.setPc p .idle).wakeup

/-- One statement of `commit`. -/
def commitStep (s : GroupState P) (p : P) : CommitPc → GroupState P
  | .start =>
    if 0 < s.lh.length then s.setPc p (.commit (.writeLog 0)) else s.setPc p .committed
  | .writeLog tail =>
    if tail < s.lh.length then s.setPc p (.commit (.writeLog (tail + 1)))
    else s.setPc p (.commit .writeHead)
  | .writeHead => s.setPc p (.commit (.install 0))
  | .install tail =>
    if tail < s.lh.length then s.setPc p (.commit (.install (tail + 1)))
    else s.setPc p (.commit .clear)
  | .clear => { s.setPc p (.commit .clearHead) with lh := [], ended := [], logged := [] }
  | .clearHead => s.setPc p .committed

def endCommit (s : GroupState P) (p : P) : GroupState P :=
  { (s.setPc p .idle).wakeup with committing := false }

end GroupState

/-- The steps of the processes. `wake` is a wake-up that does not come from the log, as `kill`
makes. -/
inductive LogAct (P : Type*) where
  | call (p : P)
  | test (p : P)
  | wake (p : P)
  | check (p : P) (sector : ℕ)
  | append (p : P)
  | endOp (p : P)
  | commit (p : P)
  | finish (p : P)

open GroupState in
def groupStep {P : Type*} [DecidableEq P] (log : LogArea) (s : GroupState P) :
    LogAct P → Option (GroupState P)
  | .call p => if s.panic = none ∧ s.pc p = .idle then some (s.setPc p .waiting) else none
  | .test p => if s.panic = none ∧ s.pc p = .waiting then some (s.beginOp p) else none
  | .wake p => if s.panic = none ∧ s.pc p = .asleep then some (s.setPc p .waiting) else none
  | .check p sector =>
    if s.panic = none ∧ s.pc p = .inOp then some (logCheck log s p sector) else none
  | .append p =>
    match s.pc p with
    | .logging sector => if s.panic = none then some (s.logAppend p sector) else none
    | _ => none
  | .endOp p => if s.panic = none ∧ s.pc p = .inOp then some (s.endOp p) else none
  | .commit p =>
    match s.pc p with
    | .commit c => if s.panic = none then some (s.commitStep p c) else none
    | _ => none
  | .finish p => if s.panic = none ∧ s.pc p = .committed then some (s.endCommit p) else none

/-- What a step does, with the place its process is at. -/
inductive LogMove {P : Type*} [DecidableEq P] (log : LogArea) (s : GroupState P) :
    LogAct P → GroupState P → Prop where
  | call {p : P} : s.pc p = .idle → LogMove log s (.call p) (s.setPc p .waiting)
  | test {p : P} : s.pc p = .waiting → LogMove log s (.test p) (s.beginOp p)
  | wake {p : P} : s.pc p = .asleep → LogMove log s (.wake p) (s.setPc p .waiting)
  | check {p : P} {x : ℕ} : s.pc p = .inOp → LogMove log s (.check p x) (s.logCheck log p x)
  | append {p : P} {x : ℕ} : s.pc p = .logging x → LogMove log s (.append p) (s.logAppend p x)
  | endOp {p : P} : s.pc p = .inOp → LogMove log s (.endOp p) (s.endOp p)
  | commit {p : P} {c : CommitPc} : s.pc p = .commit c →
      LogMove log s (.commit p) (s.commitStep p c)
  | finish {p : P} : s.pc p = .committed → LogMove log s (.finish p) (s.endCommit p)

theorem groupStep_move {P : Type*} [DecidableEq P] {log : LogArea} {s s' : GroupState P}
    {a : LogAct P} (hs : groupStep log s a = some s') : s.panic = none ∧ LogMove log s a s' := by
  cases a with
  | append p =>
    cases hp : s.pc p <;> simp [groupStep, hp] at hs
    exact ⟨hs.1, hs.2 ▸ .append hp⟩
  | commit p =>
    cases hp : s.pc p <;> simp [groupStep, hp] at hs
    exact ⟨hs.1, hs.2 ▸ .commit hp⟩
  | _ =>
    simp only [groupStep, Option.ite_none_right_eq_some, Option.some.injEq] at hs
    obtain ⟨⟨hn, hp⟩, rfl⟩ := hs
    exact ⟨hn, by constructor; exact hp⟩

end Xv6
