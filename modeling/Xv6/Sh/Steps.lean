import Mathlib.Algebra.BigOperators.Group.Multiset.Basic
import Xv6.Sh.Runcmd

/-! What the processes of `runcmd` have still to do, and how their number of steps goes down. -/
namespace Xv6

namespace Sh

/-- The commands of a tree that have a program to execute. -/
def Cmd.programs : Cmd → Multiset (List (Option Slice))
  | .exec argv => if argv.head?.join = none then 0 else {argv}
  | .redir c _ => c.programs
  | .pipe left right => left.programs + right.programs
  | .list left right => left.programs + right.programs
  | .back c => c.programs

/-- The steps that the processes for a tree make. -/
def Cmd.steps : Cmd → ℕ
  | .exec _ => 2
  | .redir c _ => c.steps + 4
  | .pipe left right => left.steps + right.steps + 19
  | .list left right => left.steps + right.steps + 2
  | .back c => c.steps + 2

/-- The programs that a process and the children it will have are still to execute. -/
def Ctl.programs : Ctl → Multiset (List (Option Slice))
  | .run c => c.programs
  | .arrange _ next => next.elim 0 fun x => x.2.programs
  | .listWait _ right => right.programs
  | .piped left right _ _ _ => left.programs + right.programs
  | .forked _ right _ _ _ => right.programs
  | _ => 0

def Ctl.steps : Ctl → ℕ
  | .run c => c.steps
  | .arrange calls next => (next.elim 3 fun x => x.2.steps) + calls.length + 1
  | .listWait _ right => right.steps + 1
  | .piped left right _ _ _ => left.steps + right.steps + 18
  | .forked _ right _ _ _ => right.steps + 12
  | .waiting k => k + 1
  | .program => 1
  | .zombie => 0
  | .reaped => 0

/-- What a process that does not exit becomes in one step, with the child it forks, and the program
it executes. -/
inductive Ctl.Next : Ctl → List Ctl → Multiset (List (Option Slice)) → Prop where
  | exec {argv : List (Option Slice)} (h : argv.head?.join ≠ none) :
      Next (.run (.exec argv)) [.program] {argv}
  | redir {c : Cmd} {r : Redir} {a b : SysCall} {f : Frame} :
      Next (.run (.redir c r)) [.arrange [a, b] (some (f, c))] 0
  | arrange {a : SysCall} {calls : List SysCall} {next : Option (Frame × Cmd)} :
      Next (.arrange (a :: calls) next) [.arrange calls next] 0
  | arranged {f : Frame} {c : Cmd} : Next (.arrange [] (some (f, c))) [.run c] 0
  | closed : Next (.arrange [] none) [.waiting 2] 0
  | list {left right : Cmd} : Next (.run (.list left right)) [.listWait left right, .run left] 0
  | listWait {left right : Cmd} : Next (.listWait left right) [.run right] 0
  | pipe {left right : Cmd} {n p0 p1 : ℕ} :
      Next (.run (.pipe left right)) [.piped left right n p0 p1] 0
  | piped {left right : Cmd} {n p0 p1 p : ℕ} {f : Frame} : Next (.piped left right n p0 p1)
      [.forked left right n p0 p1, .arrange (takeEnd 1 p p0 p1) (some (f, left))] 0
  | forked {left right : Cmd} {n p0 p1 p : ℕ} {f : Frame} {a b : SysCall} :
      Next (.forked left right n p0 p1)
      [.arrange [a, b] none, .arrange (takeEnd 0 p p0 p1) (some (f, right))] 0
  | waited {k : ℕ} (h : k ≠ 0) : Next (.waiting k) [.waiting (k - 1)] 0
  | back {c : Cmd} : Next (.run (.back c)) [.waiting 0, .run c] 0

section next

variable {x : Ctl} {ys : List Ctl} {a : Multiset (List (Option Slice))}

theorem Ctl.Next.programs (h : Ctl.Next x ys a) : x.programs = a + (ys.map Ctl.programs).sum := by
  cases h with
  | exec h => simp [Ctl.programs, Cmd.programs, h]
  | list => simp [Ctl.programs, Cmd.programs, add_comm]
  | piped => simp [Ctl.programs, add_comm]
  | _ => simp [Ctl.programs, Cmd.programs]

theorem Ctl.Next.steps (h : Ctl.Next x ys a) : (ys.map Ctl.steps).sum + 1 ≤ x.steps := by
  cases h <;>
    simp only [Ctl.steps, Cmd.steps, takeEnd, Option.elim, List.length_cons, List.length_nil,
      List.map_cons, List.map_nil, List.sum_cons, List.sum_nil] <;>
    omega

theorem Ctl.Next.ne_reaped (h : Ctl.Next x ys a) : ∀ y ∈ ys, y ≠ .reaped := by
  cases h <;> simp

theorem Ctl.steps_pos_of_mayFail (h : x.mayFail = true) : 0 < x.steps := by
  cases x with
  | run c => cases c <;> simp [Ctl.steps, Cmd.steps]
  | zombie => cases h
  | reaped => cases h
  | _ => simp [Ctl.steps]

end next

section machine

variable {s t : Sys} {i : ℕ} {q : Proc}

def Sys.total {M : Type*} [AddCommMonoid M] (f : Ctl → M) (s : Sys) : M :=
  (s.procs.map fun q => f q.ctl).sum

def Sys.executed (s : Sys) : Multiset (List (Option Slice)) := s.execs.map ExecCall.argv

theorem sum_map_set {α M : Type*} [AddCommMonoid M] (f : α → M) {l : List α} {a b : α}
    (ha : l[i]? = some a) : ((l.set i b).map f).sum + f a = (l.map f).sum + f b := by
  induction l generalizing i with
  | nil => cases ha
  | cons c l ih =>
    cases i with
    | zero =>
      obtain rfl : c = a := Option.some.inj ha
      simp only [List.set_cons_zero, List.map_cons, List.sum_cons]
      ac_rfl
    | succ i =>
      simp only [List.set_cons_succ, List.map_cons, List.sum_cons]
      rw [add_assoc, ih ha]
      ac_rfl

/-- A child comes after its parent, and has not been reaped. -/
def Family (procs : List Proc) : Prop :=
  ∀ j (r : Proc), procs[j]? = some r → ∀ i, r.parent = some i → i < j ∧ r.ctl ≠ .reaped

theorem Family.set {procs : List Proc} (h : Family procs) (hq : procs[i]? = some q) {q' : Proc}
    (hparent : q'.parent = q.parent ∧ q'.ctl ≠ .reaped ∨ q'.parent = none) :
    Family (procs.set i q') := by
  have hlt : i < procs.length := (List.getElem?_eq_some_iff.mp hq).1
  intro j r hr k hk
  by_cases hij : i = j
  · subst hij
    rw [List.getElem?_set_self hlt] at hr
    obtain rfl := Option.some.inj hr
    rcases hparent with ⟨hsame, hlive⟩ | hnone
    · exact ⟨(h i q hq k (hsame ▸ hk)).1, hlive⟩
    · rw [hnone] at hk
      cases hk
  · rw [List.getElem?_set_ne hij] at hr
    exact h j r hr k hk

theorem Family.fork (h : Family s.procs) (hq : s.procs[i]? = some q) {q' r : Proc}
    (hparent : q'.parent = q.parent) (hq' : q'.ctl ≠ .reaped) (hr : r.ctl ≠ .reaped) :
    Family (s.fork i q' r).procs := by
  intro j p hp k hk
  rw [Sys.fork, List.getElem?_append] at hp
  split_ifs at hp with hlt
  · exact h.set hq (.inl ⟨hparent, hq'⟩) j p hp k hk
  · have hi := (List.getElem?_eq_some_iff.mp hq).1
    rw [List.getElem?_singleton] at hp
    split_ifs at hp
    obtain rfl := Option.some.inj hp
    obtain rfl := Option.some.inj hk
    rw [List.length_set] at hlt
    exact ⟨by omega, hr⟩

theorem Sys.wait_cases (hwait : s.wait i = some t) :
    t = s ∨ ∃ j r, s.procs[j]? = some r ∧ r.parent = some i ∧ r.ctl = .zombie ∧
      t = s.set j { r with ctl := .reaped, parent := none } := by
  rw [Sys.wait] at hwait
  cases hfind : s.procs.findIdx? fun r => r.parent = some i ∧ r.ctl = .zombie with
  | none =>
    rw [hfind] at hwait
    dsimp only at hwait
    split_ifs at hwait
    exact .inl (Option.some.inj hwait).symm
  | some j =>
    rw [hfind] at hwait
    obtain ⟨r, hr, rfl⟩ := Option.map_eq_some_iff.mp hwait
    obtain ⟨hlt, hchild, -⟩ := List.findIdx?_eq_some_iff_getElem.mp hfind
    rw [List.getElem?_eq_getElem hlt] at hr
    obtain rfl := Option.some.inj hr
    have hboth : s.procs[j].parent = some i ∧ s.procs[j].ctl = .zombie := by simpa using hchild
    exact .inr ⟨j, s.procs[j], List.getElem?_eq_getElem hlt, hboth.1, hboth.2, rfl⟩

theorem Family.wait (h : Family s.procs) (hwait : s.wait i = some t) : Family t.procs := by
  rcases Sys.wait_cases hwait with rfl | ⟨j, r, hr, -, -, rfl⟩
  · exact h
  · exact h.set hr (.inr rfl)

theorem total_set {M : Type*} [AddCommMonoid M] (f : Ctl → M) (hq : s.procs[i]? = some q)
    (q' : Proc) :
    (s.set i q').total f + f q.ctl = s.total f + f q'.ctl :=
  sum_map_set (fun r : Proc => f r.ctl) hq

theorem total_fork {M : Type*} [AddCommMonoid M] (f : Ctl → M) (hq : s.procs[i]? = some q)
    (q' r : Proc) : (s.fork i q' r).total f + f q.ctl = s.total f + (f q'.ctl + f r.ctl) := by
  have hset := total_set f hq q'
  have hfork : (s.fork i q' r).total f = (s.set i q').total f + f r.ctl := by
    simp [Sys.total, Sys.fork, Sys.set]
  rw [hfork, add_right_comm, hset, add_assoc]

theorem total_wait {M : Type*} [AddCommMonoid M] (f : Ctl → M) (hf : f .zombie = f .reaped)
    (hwait : s.wait i = some t) (hq : s.procs[i]? = some q) (hlive : q.ctl ≠ .zombie) :
    t.total f = s.total f ∧ t.procs[i]? = some q := by
  rcases Sys.wait_cases hwait with rfl | ⟨j, r, hr, -, hzombie, rfl⟩
  · exact ⟨rfl, hq⟩
  · have hne : j ≠ i := by
      rintro rfl
      exact hlive (Option.some.inj (hr.symm.trans hq) ▸ hzombie)
    refine ⟨congrArg List.sum ?_, (List.getElem?_set_ne hne).trans hq⟩
    refine List.ext_getElem? fun k => ?_
    rw [Sys.set, List.getElem?_map, List.getElem?_map]
    by_cases hk : j = k
    · subst hk
      rw [hr, List.getElem?_set_self (List.getElem?_eq_some_iff.mp hr).1]
      simp [hzombie, hf]
    · rw [List.getElem?_set_ne hk]

end machine

end Sh

end Xv6
