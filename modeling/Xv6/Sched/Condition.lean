import Xv6.Sched.Signal

/-! Processes that wait for a condition under a lock, and processes that make it true and wake
them. -/
namespace Xv6.Sched

open Ptable Monitor

variable {C K σ : Type}

inductive Waiting (σ : Type) where
  /-- `while(!cond) sleep(chan, lk);`, then `use`. -/
  | wait (use : σ → σ)
  | change (fs : List (σ → σ))
  | done

def waitClient (cond : σ → Bool) (chan : K) : Client K (Waiting σ) σ where
  start
    | .wait _ => true
    | .change _ => true
    | .done => false
  next
    | .wait use, _, d => if cond d then .compute .done (use d) else .sleep chan (.wait use)
    | .change (f :: fs), _, d => .compute (.change fs) (f d)
    | .change [], _, _ => .wakeup chan .done
    | .done, _, d => .leave d

namespace Waiting

/-- The process will call `wakeup`. -/
def Pending : Waiting σ → Prop
  | .change _ => True
  | _ => False

theorem discipline (cond : σ → Bool) (chan : K) :
    Sys.Discipline (waitClient cond chan) chan (fun d => cond d = true) Pending
      fun _ _ => True where
  compute {x y b d e} _ h he := by
    cases x with
    | wait use =>
      simp only [waitClient] at h
      split at h
      case isTrue hd => exact .inr ⟨hd, nofun⟩
      case isFalse => cases h
    | change fs =>
      cases fs with
      | nil => cases h
      | cons f fs =>
        cases h
        exact .inl trivial
    | done => cases h
  wakeup {x y b d k'} _ h _ := by
    cases x with
    | wait use =>
      simp only [waitClient] at h
      split at h <;> cases h
    | change fs =>
      cases fs with
      | nil =>
        cases h
        exact .inl rfl
      | cons f fs => cases h
    | done => cases h
  sleep {x y b d k'} _ h hd := by
    cases x with
    | wait use =>
      simp only [waitClient, hd, if_true] at h
      cases h
    | change fs => cases fs <;> cases h
    | done => cases h

theorem keeps (cond : σ → Bool) (chan : K) :
    Monitor.Keeps (waitClient cond chan) (fun _ => True) fun _ _ => True :=
  ⟨fun _ _ => trivial, fun _ _ => trivial, fun _ _ => trivial,
    fun _ _ => ⟨trivial, fun _ _ => trivial⟩, fun _ _ => trivial⟩

theorem mayLeave (cond : σ → Bool) (chan : K) (s : Sys C K (Waiting σ) σ) (c : C) :
    s.MayLeave (waitClient cond chan) chan (fun d => cond d = true) Pending c := by
  intro p x d _ _ h hd
  cases x with
  | wait use =>
    simp only [waitClient] at h
    split at h <;> cases h
  | change fs => cases fs <;> cases h
  | done =>
    cases h
    exact .inl ⟨hd, nofun⟩

end Waiting

namespace Sys

variable [DecidableEq C] [DecidableEq K]

/-- Nobody sleeps on the channel while the lock is free and the condition holds. -/
theorem no_missed_wakeup (cond : σ → Bool) (chan : K) (under : Bool) {d : σ}
    {s : Sys C K (Waiting σ) σ}
    (h : Run.Reaches (step (waitClient cond chan) under) (boot d) s)
    (hlock : s.codeLock under = none) (hcond : cond s.data = true) (p : Slot) :
    ¬((s.tab.procs p).state = .sleeping ∧ (s.tab.procs p).chan = some (.other chan)) := by
  obtain ⟨as, h⟩ := h
  obtain ⟨hT, hH⟩ := heard_of_exec (Waiting.discipline cond chan) (Waiting.keeps cond chan)
    trivial (Run.along_of_forall (fun s a => Waiting.mayLeave cond chan s a.1) _ as) h
  exact hH.awake hT hlock hcond p

/-- On two CPUs: `initproc` forks, the child waits for the flag and sleeps, `initproc` sets the flag
and wakes it. -/
def waitAndWake : List (Bool × Choice Unit (Waiting Bool)) :=
  List.replicate 3 (false, .go) ++
    [(false, .act (.allocproc 0)), (false, .go), (false, .go), (false, .act (.kalloc 0 true)),
      (false, .act (.copyuvm 0 true))] ++
    List.replicate NOFILE (false, .act (.filedup 0)) ++
    [(false, .act (.run 0)), (false, .go), (false, .go)] ++
    List.replicate 4 (true, .go) ++ (true, .call (.wait id)) :: List.replicate 70 (true, .go) ++
    (false, .call (.change [fun _ => true])) :: List.replicate 6 (false, .go)

theorem no_missed_wakeup_child : ∃ s : Sys Bool Unit (Waiting Bool) Bool,
    Run.exec (step (waitClient id ()) false) (boot false) waitAndWake = some s ∧
      (s.tab.procs 1).state = .runnable ∧
      ¬((s.tab.procs 1).state = .sleeping ∧ (s.tab.procs 1).chan = some (.other ())) := by
  have hrun : (Run.exec (step (waitClient id ()) false) (boot false) waitAndWake).map
      (fun s => (s.codeLock false, s.data, (s.tab.procs 1).state)) =
      some (none, true, .runnable) := by decide +kernel
  obtain ⟨s, hs, heq⟩ := Option.map_eq_some_iff.mp hrun
  obtain ⟨hlock, hdata, hstate⟩ : s.codeLock false = none ∧ s.data = true ∧
    (s.tab.procs 1).state = .runnable := by simpa using heq
  exact ⟨s, hs, hstate, no_missed_wakeup id () false ⟨_, hs⟩ hlock hdata 1⟩

end Sys

end Xv6.Sched
