import Xv6.Sched.Sound

/-! The machine of CPUs and locks is one of the process table, and in it no process runs on two
CPUs. -/
namespace Xv6.Sched

open Ptable Monitor

variable {C K τ σ : Type}

namespace Sys

theorem boot_sound (d : σ) : (boot d : Sys C K τ σ).Sound := by
  refine ⟨Table.boot_sane.tree, nofun, nofun, fun p hp => ?_, nofun, nofun, fun _ _ => ⟨_, rfl⟩,
    fun _ _ => ⟨nofun, nofun⟩, nofun, fun _ _ ha => ha.elim nofun nofun, fun _ => ⟨nofun, nofun⟩,
    fun _ => ⟨nofun, nofun⟩, fun _ => rfl, rfl⟩
  have hp : (if p = 0 then ProcState.runnable else .unused) = .running := hp
  split at hp <;> cases hp

theorem free_tab (s : Sys C K τ σ) (a : Table.Act K) (tab : Table K) :
    (s.free a tab).tab = tab := by
  rw [free]
  cases s.newContext a <;> rfl

variable [DecidableEq C]

theorem sched_tab (s : Sys C K τ σ) (c : C) (p : Slot) (r : Back τ) :
    (s.sched c p r).tab = s.tab := by
  rw [sched]
  split_ifs <;> rfl

variable [DecidableEq K] {P : Client K τ σ} {under : Bool}

/-- Who may act on the table: the scheduler, a process under `ptable.lock`, and a process by itself
where the code takes no lock. -/
inductive MayAct (s : Sys C K τ σ) (c : C) : Table.Act K → Prop where
  | dispatch {p : Slot} : s.mode c = .scan p → MayAct s c (.dispatch p)
  | locked {p : Slot} {a : Table.Act K} : s.mode c = .run p → (s.pc p).leaving = false →
      (s.pc p).ptable = true → MayAct s c a
  | free {p : Slot} {a : Table.Act K} : s.mode c = .run p → s.pc p = .free → own p a = some false →
      MayAct s c a

theorem Move.tab {s t : Sys C K τ σ} {c : C} (h : Move P under s c t) :
    t.tab = s.tab ∨ ∃ a, s.tab.step a = some t.tab ∧ MayAct s c a := by
  cases h with
  | acquire _ _ => exact .inl rfl
  | dispatch hc hstep => exact .inr ⟨_, hstep, .dispatch hc⟩
  | skip _ => exact .inl rfl
  | release _ => exact .inl rfl
  | back _ => exact .inl rfl
  | swtch _ _ => exact .inl (sched_tab ..)
  | zombieExit _ _ => exact .inl rfl
  | proc hc h =>
    cases h with
    | free hpc ho hstep =>
      rw [free_tab]
      exact .inr ⟨_, hstep, .free hc hpc ho⟩
    | enter _ _ _ => exact .inl rfl
    | call _ _ _ => exact .inl rfl
    | callUnder _ _ _ => exact .inl rfl
    | acquire _ _ => exact .inl rfl
    | close hpc hstep _ => exact .inr ⟨_, hstep, .locked hc (hpc ▸ rfl) (hpc ▸ rfl)⟩
    | cede hpc hstep _ => exact .inr ⟨_, hstep, .locked hc (hpc ▸ rfl) (hpc ▸ rfl)⟩
    | wakeup hpc hstep => exact .inr ⟨_, hstep, .locked hc (hpc ▸ rfl) (hpc ▸ rfl)⟩
    | releaseLk _ => exact .inl rfl
    | underCompute _ _ => exact .inl rfl
    | underWakeup hpc _ hstep => exact .inr ⟨_, hstep, .locked hc (hpc ▸ rfl) (hpc ▸ rfl)⟩
    | underSleep hpc _ hstep => exact .inr ⟨_, hstep, .locked hc (hpc ▸ rfl) (hpc ▸ rfl)⟩
    | underLeave _ _ => exact .inl rfl
    | acquireLk _ _ => exact .inl rfl
    | compute _ _ => exact .inl rfl
    | callWakeup _ _ => exact .inl rfl
    | callSleep _ _ => exact .inl rfl
    | leave _ _ => exact .inl rfl
    | doze hpc hstep => exact .inr ⟨_, hstep, .locked hc (hpc ▸ rfl) (hpc ▸ rfl)⟩
    | resume _ => exact .inl rfl
    | resumeWait hpc hstep => exact .inr ⟨_, hstep, .locked hc (hpc ▸ rfl) (hpc ▸ rfl)⟩
    | resumeSpin hpc hstep => exact .inr ⟨_, hstep, .locked hc (hpc ▸ rfl) (hpc ▸ rfl)⟩
    | resumeUnder hpc hstep => exact .inr ⟨_, hstep, .locked hc (hpc ▸ rfl) (hpc ▸ rfl)⟩

theorem sound_of_reaches {d : σ} {s : Sys C K τ σ}
    (h : Run.Reaches (step P under) (boot d) s) : s.Sound :=
  h.invariant (fun _ _ _ hs hst => hs.move (step_move hst).2) (boot_sound d)

/-- Where each process runs, what `wait` frees, and the checks of `sched`. -/
structure OneCpu (P : Client K τ σ) (under : Bool) (s : Sys C K τ σ) : Prop where
  running : s.ptable = none → ∀ p, (s.tab.procs p).state = .running →
    ∃! c, (s.mode c).proc = some p
  current : s.ptable = none → ∀ c p, (s.mode c).proc = some p → (s.tab.procs p).state = .running
  freed : ∀ a t q, s.step P under a = some t → (s.tab.procs q).state = .zombie →
    (t.tab.procs q).state = .unused → ∀ c, (s.mode c).proc ≠ some q
  checks : s.panic = none

/-- No process runs on two CPUs. -/
theorem runs_on_one_cpu {d : σ} {s : Sys C K τ σ} (h : Run.Reaches (step P under) (boot d) s) :
    OneCpu P under s := by
  have hs := sound_of_reaches h
  refine ⟨fun _ p hp => ?_, fun hfree c p hc => ?_, fun a t q hst hz hu c hc => ?_, hs.panic⟩
  · obtain ⟨c, hc⟩ := hs.on_cpu p hp
    have hcp : (s.mode c).proc = some p := hc ▸ rfl
    exact ⟨c, hcp, fun c' hc' => hs.unique c' c p hc' hcp⟩
  · by_contra hne
    cases hfree.symm.trans (hs.holds_of_ne_running hc hne)
  · have hlock := hs.zombie_holds hc (Proc.kind_eq_zombie.mpr hz)
    rcases (step_move hst).2.tab with heq | ⟨act, hact, hmay⟩
    · rw [heq, hz] at hu
      cases hu
    have hne : (t.tab.procs q).kind ≠ .zombie := by rw [Proc.kind, hu]; rintro ⟨⟩
    obtain ⟨r, rfl, -⟩ := ((Table.step_move hact).zombie hs.tree
      (Proc.kind_eq_zombie.mpr hz)).resolve_left hne
    cases hmay with
    | @locked p _ hm hleave hpt =>
      obtain rfl : c = a.1 := Option.some.inj (hlock.symm.trans ((hs.ptable_iff hm).mpr hpt))
      rw [hm] at hc
      obtain rfl : p = q := Option.some.inj hc
      cases hz.symm.trans ((hs.runs _ p hm).mp hleave)
    | free hm hpc ho =>
      rw [own] at ho
      grind

def idleClient : Client Unit Unit Unit := ⟨fun _ => false, fun _ _ d => .leave d⟩

/-- `initproc` forks on the first of two CPUs, and the second one runs the child. -/
def forkRun : List (Bool × Choice Unit Unit) :=
  let go (c : Bool) : Bool × Choice Unit Unit := (c, .go)
  let act (a : Table.Act Unit) : Bool × Choice Unit Unit := (false, .act a)
  List.replicate 3 (go false) ++ [act (.allocproc 0), go false, go false, act (.kalloc 0 true),
      act (.copyuvm 0 true)] ++ List.replicate NOFILE (act (.filedup 0)) ++
    [act (.run 0), go false, go false] ++ List.replicate 4 (go true)

theorem runs_on_one_cpu_fork : ∃ s : Sys Bool Unit Unit Unit,
    Run.exec (step idleClient false) (boot ()) forkRun = some s ∧ s.ptable = none ∧
      s.mode false = .run 0 ∧ s.mode true = .run 1 ∧ OneCpu idleClient false s := by
  have hrun : (Run.exec (step idleClient false) (boot () : Sys Bool Unit Unit Unit) forkRun).map
      (fun s => (s.ptable, s.mode false, s.mode true)) = some (none, .run 0, .run 1) := by
    decide +kernel
  obtain ⟨s, hs, he⟩ := Option.map_eq_some_iff.mp hrun
  simp only [Prod.mk.injEq] at he
  exact ⟨s, hs, he.1, he.2.1, he.2.2, runs_on_one_cpu ⟨forkRun, hs⟩⟩

end Sys

end Xv6.Sched
