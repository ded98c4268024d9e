import Xv6.Lib.Monitor
import Xv6.Ptable.Table

/-! CPUs, locks and kernel threads of `proc.c` and `spinlock.c`: the scheduler, `sched`, `sleep` and
`wakeup` step by step, on any number of CPUs. What the sections under `ptable.lock` do to the
process table is the table's own action. The processes also run code under a lock of their own,
which sleeps and wakes, or under `ptable.lock` itself. -/
namespace Xv6.Sched

open Ptable Monitor

inductive Sect (K τ : Type) where
  | act (a : Table.Act K)
  | wakeup (k : K) (t : τ)
  | sleep (k : K) (t : τ)
  | client (t : τ)

inductive Back (τ : Type) where
  /-- `yield` and `forkret` release `ptable.lock`. -/
  | release
  | wait
  /-- `sleep` releases `ptable.lock` and acquires the other lock. -/
  | spin (t : τ)
  /-- `sleep` with `ptable.lock` returns. -/
  | client (t : τ)
  | never
  deriving DecidableEq

inductive Pc (K τ : Type) where
  | free
  | want (x : Sect K τ)
  | hold (x : Sect K τ)
  | spin (t : τ)
  | crit (t : τ)
  /-- In `sleep`, after the release of the other lock. -/
  | dozing (k : K) (t : τ)
  | sched (r : Back τ)
  | off (r : Back τ)

/-- Where a CPU is. `run` and `back` have a current process; in `back`, `swtch` has returned to
the scheduler. -/
inductive Mode where
  | idle
  | scan (i : ℕ)
  | run (p : Slot)
  | back (p : Slot)
  deriving DecidableEq

def Mode.proc : Mode → Option Slot
  | idle => none
  | scan _ => none
  | run p => some p
  | back p => some p

inductive Panic where
  | schedPtableLock
  | schedLocks
  | schedRunning
  | zombieExit
  deriving DecidableEq

structure Sys (C K τ σ : Type) where
  tab : Table K
  pc : Slot → Pc K τ
  mode : C → Mode
  ncli : C → ℕ
  /-- `ptable.lock.cpu`, when it is locked. -/
  ptable : Option C
  lk : Option C
  data : σ
  panic : Option Panic

inductive Choice (K τ : Type) where
  | go
  | act (a : Table.Act K)
  | call (t : τ)

/-- Whether `p` itself takes the action, and if so whether under `ptable.lock`. -/
def own {K : Type} (p : Slot) : Table.Act K → Option Bool
  | .yield q => if q = p then some true else none
  | .kill q _ => if q = p then some true else none
  | .allocproc q => if q = p then some true else none
  | .run q => if q = p then some true else none
  | .exit q => if q = p then some true else none
  | .wait q => if q = p then some true else none
  | .ofile q _ _ => if q = p then some false else none
  | .kalloc q _ => if q = p then some false else none
  | .copyuvm q _ => if q = p then some false else none
  | .filedup q => if q = p then some false else none
  | .fileclose q => if q = p then some false else none
  | .dispatch _ => none
  | .sleep _ _ => none
  | .tidy _ => none
  | .wakeup _ => none

def backOf {K τ : Type} : Table.Act K → Back τ
  | .wait _ => .wait
  | .exit _ => .never
  | _ => .release

namespace Sys

variable {C K τ σ : Type} [DecidableEq C] [DecidableEq K]

def setTab (s : Sys C K τ σ) (tab : Table K) : Sys C K τ σ := { s with tab := tab }

def setData (s : Sys C K τ σ) (d : σ) : Sys C K τ σ := { s with data := d }

def setPc (s : Sys C K τ σ) (p : Slot) (x : Pc K τ) : Sys C K τ σ :=
  { s with pc := Function.update s.pc p x }

def setMode (s : Sys C K τ σ) (c : C) (m : Mode) : Sys C K τ σ :=
  { s with mode := Function.update s.mode c m }

def acquire (s : Sys C K τ σ) (c : C) : Sys C K τ σ :=
  { s with ptable := some c, ncli := Function.update s.ncli c (s.ncli c + 1) }

def release (s : Sys C K τ σ) (c : C) : Sys C K τ σ :=
  { s with ptable := none, ncli := Function.update s.ncli c (s.ncli c - 1) }

def acquireLk (s : Sys C K τ σ) (c : C) : Sys C K τ σ :=
  { s with lk := some c, ncli := Function.update s.ncli c (s.ncli c + 1) }

def releaseLk (s : Sys C K τ σ) (c : C) : Sys C K τ σ :=
  { s with lk := none, ncli := Function.update s.ncli c (s.ncli c - 1) }

/-- The slot whose context `allocproc` sets up to start at `forkret`. -/
def newContext (s : Sys C K τ σ) : Table.Act K → Option Slot
  | .kalloc p true =>
    match s.tab.stage p with
    | .taken np => some np
    | _ => none
  | _ => none

def free (s : Sys C K τ σ) (a : Table.Act K) (tab : Table K) : Sys C K τ σ :=
  match s.newContext a with
  | some np => (s.setTab tab).setPc np (.off .release)
  | none => s.setTab tab

/-- A section of `proc.c`, after which the table is `tab`. It ends with `release`, or with `sched`
when it changed `proc->state`. -/
def close (s : Sys C K τ σ) (c : C) (p : Slot) (a : Table.Act K) (tab : Table K) : Sys C K τ σ :=
  if (tab.procs p).state = .running then ((s.setTab tab).release c).setPc p .free
  else (s.setTab tab).setPc p (.sched (backOf a))

def sched (s : Sys C K τ σ) (c : C) (p : Slot) (r : Back τ) : Sys C K τ σ :=
  if s.ptable ≠ some c then { s with panic := some .schedPtableLock }
  else if s.ncli c ≠ 1 then { s with panic := some .schedLocks }
  else if (s.tab.procs p).state = .running then { s with panic := some .schedRunning }
  else (s.setMode c (.back p)).setPc p (.off r)

def killed (s : Sys C K τ σ) (p : Slot) : Bool := (s.tab.procs p).killed

def runClient (s : Sys C K τ σ) (c : C) (p : Slot) : Op K τ σ → Sys C K τ σ
  | .compute t d => (s.setData d).setPc p (.crit t)
  | .wakeup k t => s.setPc p (.want (.wakeup k t))
  | .sleep k t => s.setPc p (.want (.sleep k t))
  | .leave d => ((s.setData d).releaseLk c).setPc p .free

def runUnder (s : Sys C K τ σ) (c : C) (p : Slot) : Op K τ σ → Option (Sys C K τ σ)
  | .compute t d => some ((s.setData d).setPc p (.hold (.client t)))
  | .wakeup k t =>
    (s.tab.step (.wakeup k)).map fun tab => (s.setTab tab).setPc p (.hold (.client t))
  | .sleep k t =>
    (s.tab.step (.sleep p k)).map fun tab => (s.setTab tab).setPc p (.sched (.client t))
  | .leave d => some (((s.setData d).release c).setPc p .free)

/-- One step of the kernel thread of `p` on the CPU `c`. With `under`, the lock of the other code
is `ptable.lock`. -/
def procStep (P : Client K τ σ) (under : Bool) (s : Sys C K τ σ) (c : C) (p : Slot)
    (x : Choice K τ) : Option (Sys C K τ σ) :=
  match s.pc p with
  | .free =>
    match x with
    | .go => none
    | .act a =>
      match own p a with
      | none => none
      | some false => (s.tab.step a).map (s.free a)
      | some true => if (s.tab.step a).isSome then some (s.setPc p (.want (.act a))) else none
    | .call t =>
      if s.tab.At p .user ∧ P.start t then
        some (s.setPc p (if under then .want (.client t) else .spin t))
      else none
  | .want y => if s.ptable = none then some ((s.acquire c).setPc p (.hold y)) else none
  | .hold (.act a) => (s.tab.step a).map (s.close c p a)
  | .hold (.wakeup k t) =>
    (s.tab.step (.wakeup k)).map fun tab => ((s.setTab tab).release c).setPc p (.crit t)
  | .hold (.sleep k t) => some ((s.releaseLk c).setPc p (.dozing k t))
  | .hold (.client t) => s.runUnder c p (P.next t (s.killed p) s.data)
  | .spin t => if s.lk = none then some ((s.acquireLk c).setPc p (.crit t)) else none
  | .crit t => some (s.runClient c p (P.next t (s.killed p) s.data))
  | .dozing k t =>
    (s.tab.step (.sleep p k)).map fun tab => (s.setTab tab).setPc p (.sched (.spin t))
  | .sched r => some (s.sched c p r)
  | .off .release => some ((s.release c).setPc p .free)
  | .off .wait =>
    (s.tab.step (.tidy p)).map fun tab => (s.setTab tab).setPc p (.hold (.act (.wait p)))
  | .off (.spin t) =>
    (s.tab.step (.tidy p)).map fun tab => ((s.setTab tab).release c).setPc p (.spin t)
  | .off (.client t) =>
    (s.tab.step (.tidy p)).map fun tab => (s.setTab tab).setPc p (.hold (.client t))
  | .off .never => some { s with panic := some .zombieExit }

def schedulerStep (s : Sys C K τ σ) (c : C) : Option (Sys C K τ σ) :=
  match s.mode c with
  | .idle => if s.ptable = none then some ((s.acquire c).setMode c (.scan 0)) else none
  | .scan i =>
    if h : i < NPROC then
      match s.tab.step (.dispatch ⟨i, h⟩) with
      | some tab => some ((s.setTab tab).setMode c (.run ⟨i, h⟩))
      | none => some (s.setMode c (.scan (i + 1)))
    else some ((s.release c).setMode c .idle)
  | .back p => some (s.setMode c (.scan (p + 1)))
  | .run _ => none

def step (P : Client K τ σ) (under : Bool) (s : Sys C K τ σ) (a : C × Choice K τ) :
    Option (Sys C K τ σ) :=
  if s.panic.isSome then none
  else
    match s.mode a.1 with
    | .run p => s.procStep P under a.1 p a.2
    | _ => s.schedulerStep a.1

inductive ProcMove (P : Client K τ σ) (under : Bool) (s : Sys C K τ σ) (c : C) (p : Slot) :
    Pc K τ → Sys C K τ σ → Prop where
  | free {a : Table.Act K} {tab : Table K} : s.pc p = .free → own p a = some false →
      s.tab.step a = some tab → ProcMove P under s c p .free (s.free a tab)
  | enter {a : Table.Act K} : s.pc p = .free → own p a = some true → (s.tab.step a).isSome →
      ProcMove P under s c p (.want (.act a)) (s.setPc p (.want (.act a)))
  | call {t : τ} : s.pc p = .free → P.start t → under = false →
      ProcMove P under s c p (.spin t) (s.setPc p (.spin t))
  | callUnder {t : τ} : s.pc p = .free → P.start t → under = true →
      ProcMove P under s c p (.want (.client t)) (s.setPc p (.want (.client t)))
  | acquire {y : Sect K τ} : s.pc p = .want y → s.ptable = none →
      ProcMove P under s c p (.hold y) ((s.acquire c).setPc p (.hold y))
  | close {a : Table.Act K} {tab : Table K} : s.pc p = .hold (.act a) → s.tab.step a = some tab →
      (tab.procs p).state = .running →
      ProcMove P under s c p .free (((s.setTab tab).release c).setPc p .free)
  | cede {a : Table.Act K} {tab : Table K} : s.pc p = .hold (.act a) → s.tab.step a = some tab →
      (tab.procs p).state ≠ .running →
      ProcMove P under s c p (.sched (backOf a)) ((s.setTab tab).setPc p (.sched (backOf a)))
  | wakeup {k : K} {t : τ} {tab : Table K} : s.pc p = .hold (.wakeup k t) →
      s.tab.step (.wakeup k) = some tab →
      ProcMove P under s c p (.crit t) (((s.setTab tab).release c).setPc p (.crit t))
  | releaseLk {k : K} {t : τ} : s.pc p = .hold (.sleep k t) →
      ProcMove P under s c p (.dozing k t) ((s.releaseLk c).setPc p (.dozing k t))
  | underCompute {t t' : τ} {d : σ} : s.pc p = .hold (.client t) →
      P.next t (s.killed p) s.data = .compute t' d →
      ProcMove P under s c p (.hold (.client t')) ((s.setData d).setPc p (.hold (.client t')))
  | underWakeup {t t' : τ} {k : K} {tab : Table K} : s.pc p = .hold (.client t) →
      P.next t (s.killed p) s.data = .wakeup k t' → s.tab.step (.wakeup k) = some tab →
      ProcMove P under s c p (.hold (.client t')) ((s.setTab tab).setPc p (.hold (.client t')))
  | underSleep {t t' : τ} {k : K} {tab : Table K} : s.pc p = .hold (.client t) →
      P.next t (s.killed p) s.data = .sleep k t' → s.tab.step (.sleep p k) = some tab →
      ProcMove P under s c p (.sched (.client t')) ((s.setTab tab).setPc p (.sched (.client t')))
  | underLeave {t : τ} {d : σ} : s.pc p = .hold (.client t) →
      P.next t (s.killed p) s.data = .leave d →
      ProcMove P under s c p .free (((s.setData d).release c).setPc p .free)
  | acquireLk {t : τ} : s.pc p = .spin t → s.lk = none →
      ProcMove P under s c p (.crit t) ((s.acquireLk c).setPc p (.crit t))
  | compute {t t' : τ} {d : σ} : s.pc p = .crit t →
      P.next t (s.killed p) s.data = .compute t' d →
      ProcMove P under s c p (.crit t') ((s.setData d).setPc p (.crit t'))
  | callWakeup {t t' : τ} {k : K} : s.pc p = .crit t →
      P.next t (s.killed p) s.data = .wakeup k t' →
      ProcMove P under s c p (.want (.wakeup k t')) (s.setPc p (.want (.wakeup k t')))
  | callSleep {t t' : τ} {k : K} : s.pc p = .crit t →
      P.next t (s.killed p) s.data = .sleep k t' →
      ProcMove P under s c p (.want (.sleep k t')) (s.setPc p (.want (.sleep k t')))
  | leave {t : τ} {d : σ} : s.pc p = .crit t → P.next t (s.killed p) s.data = .leave d →
      ProcMove P under s c p .free (((s.setData d).releaseLk c).setPc p .free)
  | doze {k : K} {t : τ} {tab : Table K} : s.pc p = .dozing k t →
      s.tab.step (.sleep p k) = some tab →
      ProcMove P under s c p (.sched (.spin t)) ((s.setTab tab).setPc p (.sched (.spin t)))
  | resume : s.pc p = .off .release → ProcMove P under s c p .free ((s.release c).setPc p .free)
  | resumeWait {tab : Table K} : s.pc p = .off .wait → s.tab.step (.tidy p) = some tab →
      ProcMove P under s c p (.hold (.act (.wait p)))
        ((s.setTab tab).setPc p (.hold (.act (.wait p))))
  | resumeSpin {t : τ} {tab : Table K} : s.pc p = .off (.spin t) → s.tab.step (.tidy p) = some tab →
      ProcMove P under s c p (.spin t) (((s.setTab tab).release c).setPc p (.spin t))
  | resumeUnder {t : τ} {tab : Table K} : s.pc p = .off (.client t) →
      s.tab.step (.tidy p) = some tab →
      ProcMove P under s c p (.hold (.client t)) ((s.setTab tab).setPc p (.hold (.client t)))

inductive Move (P : Client K τ σ) (under : Bool) (s : Sys C K τ σ) (c : C) :
    Sys C K τ σ → Prop where
  | proc {p : Slot} {g : Pc K τ} {t : Sys C K τ σ} : s.mode c = .run p →
      ProcMove P under s c p g t → Move P under s c t
  | swtch {p : Slot} {r : Back τ} : s.mode c = .run p → s.pc p = .sched r →
      Move P under s c (s.sched c p r)
  | zombieExit {p : Slot} : s.mode c = .run p → s.pc p = .off .never →
      Move P under s c { s with panic := some .zombieExit }
  | acquire : s.mode c = .idle → s.ptable = none →
      Move P under s c ((s.acquire c).setMode c (.scan 0))
  | dispatch {p : Slot} {tab : Table K} : s.mode c = .scan p → s.tab.step (.dispatch p) = some tab →
      Move P under s c ((s.setTab tab).setMode c (.run p))
  | skip {i : ℕ} : s.mode c = .scan i → Move P under s c (s.setMode c (.scan (i + 1)))
  | release {i : ℕ} : s.mode c = .scan i → Move P under s c ((s.release c).setMode c .idle)
  | back {p : Slot} : s.mode c = .back p → Move P under s c (s.setMode c (.scan (p + 1)))

section

variable {P : Client K τ σ} {under : Bool} {s t : Sys C K τ σ} {c : C} {p : Slot}

theorem runUnder_move (hc : s.mode c = .run p) {x : τ} (hpc : s.pc p = .hold (.client x))
    (h : s.runUnder c p (P.next x (s.killed p) s.data) = some t) : Move P under s c t := by
  cases hop : P.next x (s.killed p) s.data with
  | compute t' d =>
    rw [hop, runUnder, Option.some.injEq] at h
    exact h ▸ .proc hc (.underCompute hpc hop)
  | wakeup k t' =>
    rw [hop, runUnder, Option.map_eq_some_iff] at h
    obtain ⟨tab, htab, rfl⟩ := h
    exact .proc hc (.underWakeup hpc hop htab)
  | sleep k t' =>
    rw [hop, runUnder, Option.map_eq_some_iff] at h
    obtain ⟨tab, htab, rfl⟩ := h
    exact .proc hc (.underSleep hpc hop htab)
  | leave d =>
    rw [hop, runUnder, Option.some.injEq] at h
    exact h ▸ .proc hc (.underLeave hpc hop)

theorem runClient_move (hc : s.mode c = .run p) {x : τ} (hpc : s.pc p = .crit x) :
    Move P under s c (s.runClient c p (P.next x (s.killed p) s.data)) := by
  cases hop : P.next x (s.killed p) s.data with
  | compute t' d => exact .proc hc (.compute hpc hop)
  | wakeup k t' => exact .proc hc (.callWakeup hpc hop)
  | sleep k t' => exact .proc hc (.callSleep hpc hop)
  | leave d => exact .proc hc (.leave hpc hop)

theorem close_move (hc : s.mode c = .run p) {a : Table.Act K} {tab : Table K}
    (hpc : s.pc p = .hold (.act a)) (htab : s.tab.step a = some tab) :
    Move P under s c (s.close c p a tab) := by
  rw [close]
  split
  case isTrue hr => exact .proc hc (.close hpc htab hr)
  case isFalse hr => exact .proc hc (.cede hpc htab hr)

theorem free_move (hc : s.mode c = .run p) {x : Choice K τ} (hpc : s.pc p = .free)
    (h : s.procStep P under c p x = some t) : Move P under s c t := by
  simp only [procStep, hpc] at h
  cases x with
  | go => cases h
  | act a =>
    dsimp only at h
    cases ho : own p a with
    | none =>
      rw [ho] at h
      cases h
    | some locked =>
      rw [ho] at h
      cases locked with
      | false =>
        obtain ⟨tab, htab, rfl⟩ := Option.map_eq_some_iff.mp h
        exact .proc hc (.free hpc ho htab)
      | true =>
        simp only [Option.ite_none_right_eq_some, Option.some.injEq] at h
        exact h.2 ▸ .proc hc (.enter hpc ho h.1)
  | call t' =>
    simp only [Option.ite_none_right_eq_some, Option.some.injEq] at h
    obtain ⟨⟨-, hstart⟩, rfl⟩ := h
    cases under with
    | false => exact .proc hc (.call hpc hstart rfl)
    | true => exact .proc hc (.callUnder hpc hstart rfl)

theorem procStep_move (hc : s.mode c = .run p) {x : Choice K τ}
    (h : s.procStep P under c p x = some t) : Move P under s c t := by
  cases hpc : s.pc p with
  | free => exact free_move hc hpc h
  | want y =>
    simp only [procStep, hpc, Option.ite_none_right_eq_some, Option.some.injEq] at h
    exact h.2 ▸ .proc hc (.acquire hpc h.1)
  | hold y =>
    cases y with
    | act a =>
      simp only [procStep, hpc, Option.map_eq_some_iff] at h
      obtain ⟨tab, htab, rfl⟩ := h
      exact close_move hc hpc htab
    | wakeup k t' =>
      simp only [procStep, hpc, Option.map_eq_some_iff] at h
      obtain ⟨tab, htab, rfl⟩ := h
      exact .proc hc (.wakeup hpc htab)
    | sleep k t' =>
      simp only [procStep, hpc, Option.some.injEq] at h
      exact h ▸ .proc hc (.releaseLk hpc)
    | client t' =>
      simp only [procStep, hpc] at h
      exact runUnder_move hc hpc h
  | spin t' =>
    simp only [procStep, hpc, Option.ite_none_right_eq_some, Option.some.injEq] at h
    exact h.2 ▸ .proc hc (.acquireLk hpc h.1)
  | crit t' =>
    simp only [procStep, hpc, Option.some.injEq] at h
    exact h ▸ runClient_move hc hpc
  | dozing k t' =>
    simp only [procStep, hpc, Option.map_eq_some_iff] at h
    obtain ⟨tab, htab, rfl⟩ := h
    exact .proc hc (.doze hpc htab)
  | sched r =>
    simp only [procStep, hpc, Option.some.injEq] at h
    exact h ▸ .swtch hc hpc
  | off r =>
    cases r with
    | release =>
      simp only [procStep, hpc, Option.some.injEq] at h
      exact h ▸ .proc hc (.resume hpc)
    | wait =>
      simp only [procStep, hpc, Option.map_eq_some_iff] at h
      obtain ⟨tab, htab, rfl⟩ := h
      exact .proc hc (.resumeWait hpc htab)
    | spin t' =>
      simp only [procStep, hpc, Option.map_eq_some_iff] at h
      obtain ⟨tab, htab, rfl⟩ := h
      exact .proc hc (.resumeSpin hpc htab)
    | client t' =>
      simp only [procStep, hpc, Option.map_eq_some_iff] at h
      obtain ⟨tab, htab, rfl⟩ := h
      exact .proc hc (.resumeUnder hpc htab)
    | never =>
      simp only [procStep, hpc, Option.some.injEq] at h
      exact h ▸ .zombieExit hc hpc

theorem step_move {a : C × Choice K τ} (h : s.step P under a = some t) :
    s.panic = none ∧ Move P under s a.1 t := by
  rw [step] at h
  split at h
  case isTrue => cases h
  case isFalse hp =>
    refine ⟨by simpa using hp, ?_⟩
    cases hm : s.mode a.1 with
    | run p =>
      rw [hm] at h
      exact procStep_move hm h
    | idle =>
      simp only [hm, schedulerStep, Option.ite_none_right_eq_some, Option.some.injEq] at h
      exact h.2 ▸ .acquire hm h.1
    | scan i =>
      simp only [hm, schedulerStep] at h
      split at h
      case isTrue hi =>
        split at h
        case h_1 tab htab => exact Option.some.inj h ▸ .dispatch hm htab
        case h_2 => exact Option.some.inj h ▸ .skip hm
      case isFalse => exact Option.some.inj h ▸ .release hm
    | back p =>
      simp only [hm, schedulerStep, Option.some.injEq] at h
      exact h ▸ .back hm

end

/-- The machine after `userinit`, when the first CPU enters `scheduler`. -/
def boot (d : σ) : Sys C K τ σ where
  tab := Table.boot
  pc _ := .off .release
  mode _ := .idle
  ncli _ := 0
  ptable := none
  lk := none
  data := d
  panic := none

end Sys

end Xv6.Sched
