import Xv6.Sh.Accept
import Xv6.Sh.Steps

/-! Every command of the tree is executed with the descriptors that the nodes above it give it. -/
namespace Xv6

namespace Sh

def Frame.fill : Frame → Cmd → Cmd
  | .redir r, c => .redir c r
  | .pipeLeft _ right, c => .pipe c right
  | .pipeRight _ left, c => .pipe left c
  | .listLeft right, c => .list c right
  | .listRight left, c => .list left c
  | .back, c => .back c

/-- The tree in which the command stands below the nodes. -/
def plug (ctx : List Frame) (c : Cmd) : Cmd := ctx.foldl (fun c f => f.fill c) c

def Frame.sets (fd : ℕ) : Frame → Option Obj
  | .redir r => if r.fd = fd then some (.opened r.file r.mode) else none
  | .pipeLeft n _ => if fd = 1 then some (.pipeWrite n) else none
  | .pipeRight n _ => if fd = 0 then some (.pipeRead n) else none
  | _ => none

/-- What a descriptor should be: the innermost node that sets it decides. -/
def source (fd : ℕ) (ctx : List Frame) : Obj := (ctx.findSome? (Frame.sets fd)).getD (.original fd)

def wired (ctx : List Frame) : Table := std (source 0 ctx) (source 1 ctx)

/-- The redirections that the parser makes are of descriptor 0 or 1. -/
def Cmd.InOut : Cmd → Prop
  | .exec _ => True
  | .redir c r => c.InOut ∧ (r.fd = 0 ∨ r.fd = 1)
  | .pipe left right => left.InOut ∧ right.InOut
  | .list left right => left.InOut ∧ right.InOut
  | .back c => c.InOut

def withPipe (t : Table) (n : ℕ) : Table := (t.set 3 (.pipeRead n)).set 4 (.pipeWrite n)

def runCalls (t : Table) (calls : List SysCall) : Option Table := calls.foldlM SysCall.run t

/-- What is true of a process below the nodes `ctx`, by where it is. -/
def Good (root : Cmd) (ctx : List Frame) (t : Table) : Ctl → Prop
  | .run c => plug ctx c = root ∧ t = wired ctx
  | .arrange calls next => (next.elim True fun x => plug (x.1 :: ctx) x.2 = root) ∧
    runCalls t calls = some (wired (next.elim ctx fun x => x.1 :: ctx))
  | .listWait left right => plug (.listRight left :: ctx) right = root ∧ t = wired ctx
  | .piped left right n p0 p1 =>
    plug ctx (.pipe left right) = root ∧ p0 = 3 ∧ p1 = 4 ∧ t = withPipe (wired ctx) n
  | .forked left right n p0 p1 =>
    plug ctx (.pipe left right) = root ∧ p0 = 3 ∧ p1 = 4 ∧ t = withPipe (wired ctx) n
  | .waiting _ => t = wired ctx
  | .program => t = wired ctx
  | .zombie => t = fun _ => none
  | .reaped => t = fun _ => none

/-- The invariant after `n` steps, with the programs that failed calls have lost. -/
structure Inv (root : Cmd) (lost : Multiset (List (Option Slice))) (n : ℕ) (s : Sys) : Prop where
  procs : ∀ q ∈ s.procs, Good root q.ctx q.table q.ctl
  execs : ∀ e ∈ s.execs, plug e.ctx (.exec e.argv) = root ∧ e.table = wired e.ctx
  family : Family s.procs
  programs : s.executed + s.total Ctl.programs + lost = root.programs
  steps : s.total Ctl.steps + n ≤ root.steps

section tables

variable {t u : Table} {ctx : List Frame}

theorem wired_pipe (ctx : List Frame) (n : ℕ) :
    (wired ctx).alloc (.pipeRead n) = some (3, (wired ctx).set 3 (.pipeRead n)) ∧
      ((wired ctx).set 3 (.pipeRead n)).alloc (.pipeWrite n) = some (4, withPipe (wired ctx) n) :=
  ⟨rfl, rfl⟩

theorem wired_ends (ctx : List Frame) (n : ℕ) (other : Cmd) :
    runCalls (withPipe (wired ctx) n) [.close 3, .close 4] = some (wired ctx) ∧
      runCalls (withPipe (wired ctx) n) (takeEnd 1 4 3 4) =
      some (wired (.pipeLeft n other :: ctx)) ∧
      runCalls (withPipe (wired ctx) n) (takeEnd 0 3 3 4) =
        some (wired (.pipeRight n other :: ctx)) := by
  refine ⟨congrArg some ?_, congrArg some ?_, congrArg some ?_⟩ <;> funext k <;>
    rcases k with _ | _ | _ | _ | _ | k <;> rfl

theorem wired_redir {r : Redir} (hfd : r.fd = 0 ∨ r.fd = 1) :
    runCalls (wired ctx) [.close r.fd, .opens r] = some (wired (.redir r :: ctx)) := by
  obtain ⟨file, mode, fd⟩ := r
  rcases hfd with rfl | rfl <;> refine congrArg some (funext fun k => ?_) <;>
    rcases k with _ | _ | _ | k <;> rfl

theorem runCalls_cons {a : SysCall} {calls : List SysCall} (h : runCalls t (a :: calls) = some u) :
    ∃ t', a.run t = some t' ∧ runCalls t' calls = some u :=
  Option.bind_eq_some_iff.mp h

end tables

theorem Cmd.InOut.of_plug {ctx : List Frame} {c : Cmd} (h : (plug ctx c).InOut) : c.InOut := by
  induction ctx generalizing c with
  | nil => exact h
  | cons f ctx ih =>
    have hfill : (f.fill c).InOut := ih h
    cases f with
    | redir r => exact hfill.1
    | pipeLeft n right => exact hfill.1
    | pipeRight n left => exact hfill.2
    | listLeft right => exact hfill.1
    | listRight left => exact hfill.2
    | back => exact hfill

section step

variable {root : Cmd} {lost a : Multiset (List (Option Slice))} {n : ℕ} {s t : Sys} {i : ℕ}
  {q q' r : Proc} {x : Ctl}

theorem Inv.next {ys : List Ctl} (h : Inv root lost n s) (hnext : Ctl.Next x ys a)
    (hprocs : ∀ q ∈ t.procs, Good root q.ctx q.table q.ctl)
    (hexecs : ∀ e ∈ t.execs, plug e.ctx (.exec e.argv) = root ∧ e.table = wired e.ctx)
    (hfamily : Family t.procs) (hexecuted : t.executed = s.executed + a)
    (htotal : ∀ {M : Type} [AddCommMonoid M] (f : Ctl → M), f .zombie = f .reaped →
      t.total f + f x = s.total f + (ys.map f).sum) : Inv root lost (n + 1) t := by
  refine ⟨hprocs, hexecs, hfamily, ?_, ?_⟩
  · have hprograms := htotal Ctl.programs rfl
    rw [hnext.programs, add_comm a, ← add_assoc, add_right_comm, add_left_inj] at hprograms
    rw [hexecuted, add_assoc s.executed, add_comm a, hprograms]
    exact h.programs
  · have hsteps := htotal Ctl.steps rfl
    have hless := hnext.steps
    have hbound := h.steps
    omega

theorem Good.of_mem_set {procs : List Proc} (h : ∀ q ∈ procs, Good root q.ctx q.table q.ctl)
    (hgood : Good root r.ctx r.table r.ctl) :
    ∀ q ∈ procs.set i r, Good root q.ctx q.table q.ctl := by
  intro p hp
  rcases List.mem_or_eq_of_mem_set hp with hmem | rfl
  · exact h p hmem
  · exact hgood

theorem Inv.set (h : Inv root lost n s) (hq : s.procs[i]? = some q)
    (hnext : Ctl.Next q.ctl [r.ctl] 0) (hgood : Good root r.ctx r.table r.ctl)
    (hparent : r.parent = q.parent) : Inv root lost (n + 1) (s.set i r) := by
  refine h.next hnext (Good.of_mem_set h.procs hgood) h.execs
    (h.family.set hq (.inl ⟨hparent, hnext.ne_reaped _ (by simp)⟩)) (add_zero _).symm fun f _ => ?_
  simpa using total_set f hq r

theorem Inv.fork (h : Inv root lost n s) (hq : s.procs[i]? = some q)
    (hnext : Ctl.Next q.ctl [q'.ctl, r.ctl] 0) (hgood : Good root q'.ctx q'.table q'.ctl)
    (hchild : Good root r.ctx r.table r.ctl) (hparent : q'.parent = q.parent) :
    Inv root lost (n + 1) (s.fork i q' r) := by
  refine h.next hnext (fun p hp => ?_) h.execs (h.family.fork hq hparent
    (hnext.ne_reaped _ (by simp)) (hnext.ne_reaped _ (by simp))) (add_zero _).symm fun f _ => ?_
  · rcases List.mem_append.mp hp with hmem | hmem
    · exact Good.of_mem_set h.procs hgood p hmem
    · rw [List.mem_singleton.mp hmem]
      exact hchild
  · simpa using total_fork f hq q' r

theorem Inv.wait {u : Sys} (h : Inv root lost n s) (hq : s.procs[i]? = some q)
    (hlive : q.ctl ≠ .zombie) (hwait : s.wait i = some u) (hnext : Ctl.Next q.ctl [q'.ctl] 0)
    (hgood : Good root q'.ctx q'.table q'.ctl) (hparent : q'.parent = q.parent) :
    Inv root lost (n + 1) (u.set i q') := by
  have hq' := (total_wait Ctl.steps rfl hwait hq hlive).2
  have hexecs : u.execs = s.execs := by
    rcases Sys.wait_cases hwait with rfl | ⟨j, r, -, -, -, rfl⟩ <;> rfl
  have hprocs : ∀ p ∈ u.procs, Good root p.ctx p.table p.ctl := by
    rcases Sys.wait_cases hwait with rfl | ⟨j, r, hr, -, hzombie, rfl⟩
    · exact h.procs
    · have hdead := h.procs r (List.mem_of_getElem? hr)
      rw [hzombie] at hdead
      exact Good.of_mem_set h.procs hdead
  refine h.next hnext (Good.of_mem_set hprocs hgood) (hexecs ▸ h.execs)
    ((h.family.wait hwait).set hq' (.inl ⟨hparent, hnext.ne_reaped _ (by simp)⟩)) ?_ fun f hf => ?_
  · rw [add_zero, Sys.executed, Sys.executed, ← hexecs]
    rfl
  · have hset := total_set f hq' q'
    rw [(total_wait f hf hwait hq hlive).1] at hset
    simpa using hset

/-- A process exits; what it had still to execute is lost. -/
theorem Inv.exit (h : Inv root lost n s) (hq : s.procs[i]? = some q) (hpos : 0 < q.ctl.steps) :
    Inv root (q.ctl.programs + lost) (n + 1) (s.exit i q) := by
  have htotal {M : Type} [AddCommMonoid M] (f : Ctl → M) :
      (s.exit i q).total f + f q.ctl = s.total f + f .zombie := total_set f hq _
  refine ⟨Good.of_mem_set h.procs rfl, h.execs, h.family.set hq (.inl ⟨rfl, by simp⟩), ?_, ?_⟩
  · have hprograms := (htotal Ctl.programs).trans (add_zero _)
    rw [← h.programs, ← hprograms, ← add_assoc, ← add_assoc]
    rfl
  · have hsteps := (htotal Ctl.steps).trans (add_zero _)
    have hbound := h.steps
    omega

theorem Inv.exit_done (h : Inv root lost n s) (hq : s.procs[i]? = some q) (hpos : 0 < q.ctl.steps)
    (hnone : q.ctl.programs = 0) : Inv root lost (n + 1) (s.exit i q) := by
  have hexit := h.exit hq hpos
  rwa [hnone, zero_add] at hexit

theorem Inv.runcmd (h : Inv root lost n s) (hio : root.InOut) {c : Cmd} {ctx : List Frame}
    {parent : Option ℕ} (hq : s.procs[i]? = some ⟨wired ctx, .run c, ctx, parent⟩)
    (hplug : plug ctx c = root) (ht : s.runcmd i ⟨wired ctx, .run c, ctx, parent⟩ c = some t) :
    Inv root lost (n + 1) t := by
  cases c with
  | exec argv =>
    simp only [Sys.runcmd] at ht
    split_ifs at ht with hargv
    · obtain rfl := Option.some.inj ht
      exact h.exit_done hq Nat.two_pos (if_pos hargv)
    · obtain rfl := Option.some.inj ht
      refine h.next (.exec hargv) (Good.of_mem_set h.procs rfl) (fun e he => ?_)
        (h.family.set hq (.inl ⟨rfl, by simp⟩)) ?_ fun f _ => ?_
      · rcases List.mem_append.mp he with hmem | hmem
        · exact h.execs e hmem
        · rw [List.mem_singleton.mp hmem]
          exact ⟨hplug, rfl⟩
      · rw [Sys.executed, List.map_append]
        rfl
      · rw [List.map_singleton, List.sum_singleton]
        exact total_set f hq ⟨wired ctx, .program, ctx, parent⟩
  | redir c r =>
    obtain rfl := Option.some.inj ht
    have hsub : (plug ctx (.redir c r)).InOut := hplug ▸ hio
    exact h.set hq .redir ⟨hplug, wired_redir hsub.of_plug.2⟩ rfl
  | list left right =>
    obtain rfl := Option.some.inj ht
    exact h.fork hq .list ⟨hplug, rfl⟩ ⟨hplug, rfl⟩ rfl
  | pipe left right =>
    simp only [Sys.runcmd, wired_pipe, Option.bind_some, Option.map_some] at ht
    obtain rfl := Option.some.inj ht
    have hset := h.set (r := ⟨_, .piped left right s.pipes 3 4, ctx, parent⟩) hq .pipe
      ⟨hplug, rfl, rfl, (rfl : withPipe (wired ctx) s.pipes = _)⟩ rfl
    exact ⟨hset.procs, hset.execs, hset.family, hset.programs, hset.steps⟩
  | back c =>
    obtain rfl := Option.some.inj ht
    exact h.fork hq .back (rfl : wired ctx = _) ⟨hplug, rfl⟩ rfl

theorem Inv.stepProc (h : Inv root lost n s) (hio : root.InOut) (hq : s.procs[i]? = some q)
    (ht : s.stepProc i q = some t) : Inv root lost (n + 1) t := by
  have hgood := h.procs q (List.mem_of_getElem? hq)
  obtain ⟨table, ctl, ctx, parent⟩ := q
  dsimp only at hgood
  cases ctl with
  | run c =>
    obtain ⟨hplug, rfl⟩ := hgood
    exact h.runcmd hio hq hplug ht
  | arrange calls next =>
    obtain ⟨hplug, hcalls⟩ := hgood
    cases calls with
    | cons a calls =>
      obtain ⟨u, hu, hcalls⟩ := runCalls_cons hcalls
      dsimp only [Sys.stepProc] at ht
      rw [hu] at ht
      obtain rfl := Option.some.inj ht
      exact h.set hq .arrange ⟨hplug, hcalls⟩ rfl
    | nil =>
      cases next with
      | none =>
        obtain rfl := Option.some.inj ht
        exact h.set hq .closed (Option.some.inj hcalls) rfl
      | some x =>
        obtain rfl := Option.some.inj ht
        exact h.set hq .arranged ⟨hplug, Option.some.inj hcalls⟩ rfl
  | listWait left right =>
    obtain ⟨u, hu, rfl⟩ := Option.map_eq_some_iff.mp ht
    exact h.wait hq (by simp) hu .listWait hgood rfl
  | piped left right n p0 p1 =>
    obtain rfl := Option.some.inj ht
    obtain ⟨hplug, rfl, rfl, rfl⟩ := hgood
    exact h.fork hq .piped ⟨hplug, rfl, rfl, rfl⟩ ⟨hplug, (wired_ends ctx n right).2.1⟩ rfl
  | forked left right n p0 p1 =>
    obtain rfl := Option.some.inj ht
    obtain ⟨hplug, rfl, rfl, rfl⟩ := hgood
    have hends := wired_ends ctx n left
    exact h.fork hq .forked ⟨trivial, hends.1⟩ ⟨hplug, hends.2.2⟩ rfl
  | waiting k =>
    dsimp only [Sys.stepProc] at ht
    split_ifs at ht with hk
    · obtain rfl := Option.some.inj ht
      exact h.exit_done hq (Nat.succ_pos k) rfl
    · obtain ⟨u, hu, rfl⟩ := Option.map_eq_some_iff.mp ht
      exact h.wait hq (by simp) hu (.waited hk) hgood rfl
  | program =>
    obtain rfl := Option.some.inj ht
    exact h.exit_done hq Nat.one_pos rfl
  | zombie => cases ht
  | reaped => cases ht

theorem step_inv {a : Act} (h : Inv root lost n s) (hio : root.InOut) (ht : s.step a = some t) :
    ∃ lost', Inv root lost' (n + 1) t ∧ ((∀ i, a ≠ .fail i) → lost' = lost) := by
  cases a with
  | go i =>
    obtain ⟨q, hq, ht⟩ := Option.bind_eq_some_iff.mp ht
    exact ⟨lost, h.stepProc hio hq ht, fun _ => rfl⟩
  | fail i =>
    obtain ⟨q, hq, ht⟩ := Option.bind_eq_some_iff.mp ht
    rw [Sys.fail] at ht
    split_ifs at ht with hmay
    obtain rfl := Option.some.inj ht
    exact ⟨_, h.exit hq (Ctl.steps_pos_of_mayFail hmay), fun hgo => absurd rfl (hgo i)⟩

theorem exec_inv {as : List Act} (h : Inv root lost n s) (hio : root.InOut)
    (hs : Run.exec Sys.step s as = some t) :
    ∃ lost', Inv root lost' (n + as.length) t ∧ ((∀ i, .fail i ∉ as) → lost' = lost) := by
  induction as generalizing s lost n with
  | nil =>
    obtain rfl := Option.some.inj hs
    exact ⟨lost, h, fun _ => rfl⟩
  | cons a as ih =>
    obtain ⟨u, hu, hs⟩ := Run.exec_cons hs
    obtain ⟨lost', h', hlost'⟩ := step_inv h hio hu
    obtain ⟨lost'', h'', hlost''⟩ := ih h' hs
    refine ⟨lost'', by rwa [List.length_cons, Nat.add_comm as.length, ← Nat.add_assoc],
      fun hgo => ?_⟩
    rw [hlost'' fun i hmem => hgo i (List.mem_cons_of_mem a hmem),
      hlost' fun i heq => hgo i (heq ▸ List.mem_cons_self)]

end step

def Ctl.wiring : Ctl → Bool
  | .piped .. => true
  | .forked .. => true
  | .arrange .. => true
  | _ => false

theorem Good.table_eq {root : Cmd} {ctx : List Frame} {t : Table} {x : Ctl} (h : Good root ctx t x)
    (hwiring : x.wiring = false) :
    t = if x = .zombie ∨ x = .reaped then fun _ => none else wired ctx := by
  cases x with
  | run c => exact h.2
  | listWait left right => exact h.2
  | waiting k => exact h
  | program => exact h
  | zombie => exact h
  | reaped => exact h
  | _ => cases hwiring

theorem inv_start (root : Cmd) : Inv root 0 0 (start root) := by
  refine ⟨fun q hq => ?_, (fun e he => by cases he), fun j r hr i hi => ?_, ?_, le_rfl⟩
  · obtain rfl := List.mem_singleton.mp hq
    exact ⟨rfl, rfl⟩
  · obtain rfl := List.mem_singleton.mp (List.mem_of_getElem? hr)
    cases hi
  · exact (add_zero _).trans ((zero_add _).trans (add_zero root.programs))

/-- In every interleaving of the processes that run a tree, and whichever calls fail, each `exec` is
of a command of the tree and has exactly the descriptors 0, 1 and 2, of which 0 and 1 are set by the
innermost nodes above the command that set them. The same are the descriptors of every process of
the shell that is not just arranging them, so that it has no end of a pipe beside them, until it
exits and has none. -/
theorem runcmd_wires (root : Cmd) (hio : root.InOut) (s : Sys)
    (hs : Run.Reaches Sys.step (start root) s) :
    (∀ e ∈ s.execs, plug e.ctx (.exec e.argv) = root ∧
        e.table = std (source 0 e.ctx) (source 1 e.ctx)) ∧
      ∀ q ∈ s.procs, q.ctl.wiring = false →
        q.table = if q.ctl = .zombie ∨ q.ctl = .reaped then fun _ => none
          else std (source 0 q.ctx) (source 1 q.ctx) := by
  obtain ⟨as, hs⟩ := hs
  obtain ⟨lost, hinv, -⟩ := exec_inv (inv_start root) hio hs
  exact ⟨hinv.execs, fun q hq hwiring => (hinv.procs q hq).table_eq hwiring⟩

def pipelineRun : List Act :=
  ([0, 1, 1, 1] ++ List.replicate 6 2 ++ List.replicate 10 3).map Act.go

theorem runcmd_wires_pipeline : ∃ s, Run.exec Sys.step (start pipelineTree) pipelineRun = some s ∧
    s.execs.length = 2 ∧ ∀ e ∈ s.execs, plug e.ctx (.exec e.argv) = pipelineTree ∧
      e.table = std (source 0 e.ctx) (source 1 e.ctx) := by
  have hrun : ((Run.exec Sys.step (start pipelineTree) pipelineRun).map fun s => s.execs.length) =
      some 2 := by
    decide +kernel
  obtain ⟨s, hs, hlen⟩ := Option.map_eq_some_iff.mp hrun
  have hio : pipelineTree.InOut := ⟨trivial, trivial, .inr rfl⟩
  exact ⟨s, hs, hlen, (runcmd_wires pipelineTree hio s ⟨_, hs⟩).1⟩

end Sh

end Xv6
