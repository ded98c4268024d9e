import Xv6.Sh.Wiring

/-! Every run of a command tree ends, and then every command of the tree has been executed. -/
namespace Xv6

namespace Sh

section machine

variable {root : Cmd} {lost : Multiset (List (Option Slice))} {n : ℕ} {s : Sys} {i : ℕ} {q : Proc}

theorem Good.blocked (h : Good root q.ctx q.table q.ctl) (hnone : s.stepProc i q = none) :
    (q.ctl = .zombie ∨ q.ctl = .reaped) ∨ s.wait i = none := by
  obtain ⟨table, ctl, ctx, parent⟩ := q
  dsimp only at h
  cases ctl with
  | run c =>
    cases c with
    | exec argv =>
      simp only [Sys.stepProc, Sys.runcmd] at hnone
      split_ifs at hnone
    | pipe left right =>
      obtain ⟨-, rfl⟩ := h
      simp only [Sys.stepProc, Sys.runcmd, wired_pipe, Option.bind_some, Option.map_some,
        reduceCtorEq] at hnone
    | _ => cases hnone
  | arrange calls next =>
    cases calls with
    | nil => cases next <;> cases hnone
    | cons a calls =>
      obtain ⟨u, hu, -⟩ := runCalls_cons h.2
      simp only [Sys.stepProc, hu, Option.map_some, reduceCtorEq] at hnone
  | listWait left right => exact .inr (Option.map_eq_none_iff.mp hnone)
  | waiting k =>
    dsimp only [Sys.stepProc] at hnone
    split_ifs at hnone
    exact .inr (Option.map_eq_none_iff.mp hnone)
  | zombie => exact .inl (.inl rfl)
  | reaped => exact .inl (.inr rfl)
  | _ => cases hnone

theorem Sys.wait_none (hwait : s.wait i = none) :
    ∃ (j : ℕ) (r : Proc), s.procs[j]? = some r ∧ r.parent = some i ∧ r.ctl ≠ .zombie := by
  rw [Sys.wait] at hwait
  cases hfind : s.procs.findIdx? fun r => r.parent = some i ∧ r.ctl = .zombie with
  | none =>
    rw [hfind] at hwait
    dsimp only at hwait
    split_ifs at hwait with hchild
    obtain ⟨r, hr, hparent⟩ := hchild
    obtain ⟨j, hj⟩ := List.mem_iff_getElem?.mp hr
    have hnot := List.findIdx?_eq_none_iff.mp hfind r hr
    exact ⟨j, r, hj, hparent, fun hzombie => by simp [hparent, hzombie] at hnot⟩
  | some j =>
    rw [hfind] at hwait
    have hlt := (List.findIdx?_eq_some_iff_getElem.mp hfind).1
    dsimp only at hwait
    rw [List.getElem?_eq_getElem hlt] at hwait
    cases hwait

/-- Where nothing can go on, everything has exited: a process in `wait` has a child after it. -/
theorem Inv.exited_of_stuck (h : Inv root lost n s) (hstuck : ∀ a, s.step a = none) (j : ℕ)
    (hq : s.procs[j]? = some q) :
    q.ctl = .zombie ∨ q.ctl = .reaped := by
  induction hn : s.procs.length - j using Nat.strong_induction_on generalizing j q with
  | _ n ih =>
    have hnone := hstuck (.go j)
    rw [Sys.step, hq, Option.bind_some] at hnone
    refine ((h.procs q (List.mem_of_getElem? hq)).blocked hnone).resolve_right fun hwait => ?_
    obtain ⟨k, r, hr, hparent, hlive⟩ := Sys.wait_none hwait
    obtain ⟨hlt, hnot⟩ := h.family k r hr j hparent
    have hk := (List.getElem?_eq_some_iff.mp hr).1
    rcases ih (s.procs.length - k) (by omega) k hr rfl with hzombie | hreaped
    · exact hlive hzombie
    · exact hnot hreaped

theorem programs_of_exited (h : ∀ q ∈ s.procs, q.ctl = .zombie ∨ q.ctl = .reaped) :
    s.total Ctl.programs = 0 := by
  refine List.sum_eq_zero fun m hm => ?_
  obtain ⟨q, hq, rfl⟩ := List.mem_map.mp hm
  rcases h q hq with hctl | hctl <;> rw [hctl] <;> rfl

end machine

section parsed

variable {ts : List Token} {c : Cmd}

theorem Cmd.InOut.backs (h : c.InOut) (n : ℕ) : (Cmd.back^[n] c).InOut := by
  induction n with
  | zero => exact h
  | succ n ih =>
    rw [Function.iterate_succ_apply']
    exact ih

theorem Cmd.InOut.wrap {rs : List Redir} (h : c.InOut) (hrs : ∀ r ∈ rs, r.fd = 0 ∨ r.fd = 1) :
    (wrap c rs).InOut := by
  induction rs generalizing c with
  | nil => exact h
  | cons r rs ih =>
    exact ih ⟨h, hrs r List.mem_cons_self⟩ fun r' hr' => hrs r' (List.mem_cons_of_mem r hr')

theorem redirOf_fd {tok : Tok} {file : Slice} {r : Redir} (h : redirOf tok file = some r) :
    r.fd = 0 ∨ r.fd = 1 := by
  cases tok <;> cases h <;> simp

theorem Redirs.inOut {rs : List Redir} (h : Redirs ts rs) : ∀ r ∈ rs, r.fd = 0 ∨ r.fd = 1 := by
  induction h with
  | nil => simp
  | cons hr _ _ ih => exact List.forall_mem_cons.mpr ⟨redirOf_fd hr, ih⟩

theorem Words.inOut {ws : List Slice} {rs : List Redir} (h : Words ts ws rs) :
    ∀ r ∈ rs, r.fd = 0 ∨ r.fd = 1 := by
  induction h with
  | nil => simp
  | cons _ hr _ ih => exact List.forall_mem_append.mpr ⟨hr.inOut, ih⟩

theorem Line.inOut : Line ts c → c.InOut := by
  refine @Line.rec (fun _ c _ => c.InOut) (fun _ c _ => c.InOut) (fun _ c _ => c.InOut)
    ?_ ?_ ?_ ?_ ?_ ?_ ts c
  · intro p as c _ _ hp
    exact hp.backs _
  · intro p as l c d t _ _ _ _ hp hl
    exact ⟨hp.backs _, hl⟩
  · intro e c _ he
    exact he
  · intro e p c d t _ _ _ he hp
    exact ⟨he, hp⟩
  · intro l r c rs t t' _ _ _ hr hl
    exact hl.wrap hr.inOut
  · intro r ts ws rs rs' hr hw _
    exact Cmd.InOut.wrap trivial (List.forall_mem_append.mpr ⟨hr.inOut, hw.inOut⟩)

end parsed

/-- A command that the parser accepts runs to its end in every interleaving: a run has a bounded
number of steps, it executes no program that the command does not have, it stops only when every
process has exited, and if no call failed it has then executed every program of the command. -/
theorem parsed_command_completes (buf : List UInt8) (hnul : 0 ∉ buf) (fuel : ℕ)
    (hfuel : 4 * (lex 0 buf).length + 4 ≤ fuel) (c : Cmd) (mem : List UInt8)
    (hok : parsecmd fuel buf = .ok (c, mem)) (as : List Act) (s : Sys)
    (hs : Run.exec Sys.step (start c) as = some s) :
    as.length ≤ c.steps ∧ s.executed ≤ c.programs ∧
      ((∀ a, s.step a = none) → (∀ q ∈ s.procs, q.ctl = .zombie ∨ q.ctl = .reaped) ∧
        ((∀ i, .fail i ∉ as) → s.executed = c.programs)) := by
  have hio : c.InOut := (parsecmd_ok hnul hfuel hok).1.inOut
  obtain ⟨lost, hinv, hlost⟩ := exec_inv (inv_start c) hio hs
  have hprograms := hinv.programs
  refine ⟨?_, ?_, fun hstuck => ?_⟩
  · have hsteps := hinv.steps
    omega
  · rw [← hprograms, add_assoc]
    exact Multiset.le_add_right _ _
  · have hexited : ∀ q ∈ s.procs, q.ctl = .zombie ∨ q.ctl = .reaped := by
      intro q hq
      obtain ⟨j, hj⟩ := List.mem_iff_getElem?.mp hq
      exact hinv.exited_of_stuck hstuck j hj
    refine ⟨hexited, fun hgo => ?_⟩
    rwa [programs_of_exited hexited, hlost hgo, add_zero, add_zero] at hprograms

def pipelineEnd : List Act := pipelineRun ++ [2, 3, 1, 1, 1, 1, 1, 1, 0].map Act.go

theorem step_of_exited {s : Sys} (h : ∀ q ∈ s.procs, q.ctl = .zombie ∨ q.ctl = .reaped) (a : Act) :
    s.step a = none := by
  cases a with
  | go i =>
    refine Option.bind_eq_none_iff.mpr fun q hq => ?_
    rw [Sys.stepProc]
    rcases h q (List.mem_of_getElem? hq) with hctl | hctl <;> rw [hctl]
  | fail i =>
    refine Option.bind_eq_none_iff.mpr fun q hq => ?_
    rw [Sys.fail]
    rcases h q (List.mem_of_getElem? hq) with hctl | hctl <;> rw [hctl] <;> rfl

theorem parsed_command_completes_pipeline : ∃ s,
    Run.exec Sys.step (start pipelineTree) pipelineEnd = some s ∧
      (∀ a, s.step a = none) ∧ s.executed = pipelineTree.programs := by
  have hrun : (Run.exec Sys.step (start pipelineTree) pipelineEnd).map
      (fun s => s.procs.all fun q => q.ctl = .zombie ∨ q.ctl = .reaped) = some true := by
    decide +kernel
  obtain ⟨s, hs, hall⟩ := Option.map_eq_some_iff.mp hrun
  have hexited : ∀ q ∈ s.procs, q.ctl = .zombie ∨ q.ctl = .reaped := by
    simpa only [List.all_eq_true, decide_eq_true_eq] using hall
  have hstuck := step_of_exited hexited
  have hok : parsecmd 32 pipeline = .ok (pipelineTree, [0x61, 0, 0x62, 0, 0x63, 0, 0]) := by
    decide +kernel
  have hgo : ∀ i, .fail i ∉ pipelineEnd := by simp [pipelineEnd, pipelineRun]
  exact ⟨s, hs, hstuck,
    ((parsed_command_completes pipeline (by decide) 32 (by decide +kernel) _ _ hok
    pipelineEnd s hs).2.2 hstuck).2 hgo⟩

end Sh

end Xv6
