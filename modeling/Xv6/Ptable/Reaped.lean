import Xv6.Ptable.Tree

/-! Descriptors, pids and the log of the process table, and that each child is returned by one
`wait`. -/
namespace Xv6.Ptable

variable {K : Type}

def Proc.Closed (x : Proc K) (n : ℕ) : Prop := ∀ i : Fin NOFILE, i < n → x.ofile i = none

theorem Proc.closed_congr {x y : Proc K} (h : y.ofile = x.ofile) (n : ℕ) :
    y.Closed n ↔ x.Closed n := by
  rw [Closed, Closed, h]

theorem Proc.Closed.close {x : Proc K} {fd : Fin NOFILE} (h : x.Closed fd) :
    Proc.Closed { x with ofile := Function.update x.ofile fd none } (fd + 1) := by
  intro i hi
  dsimp only
  rw [Function.update_apply]
  split
  case isTrue => rfl
  case isFalse hne => exact h i (by omega)

namespace Table

/-- Slots without a process have no open files, and `exit` has closed what it has passed. -/
structure Files (s : Table K) : Prop where
  unused : ∀ q, (s.procs q).kind = .unused → (s.procs q).Closed NOFILE
  zombie : ∀ q, (s.procs q).kind = .zombie → (s.procs q).Closed NOFILE
  fresh : ∀ p np, s.stage p = .taken np ∨ s.stage p = .stacked np → (s.procs np).Closed NOFILE
  closing : ∀ p fd, (s.procs p).kind = .alive → s.stage p = .closing fd → (s.procs p).Closed fd

theorem Files.quiet {s t : Table K} (h : s.Files) (hq : Quiet s t) : t.Files := by
  have hk := fun q => (hq.procs q).kind
  have hc := fun q n => Proc.closed_congr (hq.procs q).ofile n
  have hst := hq.stage
  obtain ⟨h1, h2, h3, h4⟩ := h
  refine ⟨?_, ?_, ?_, ?_⟩ <;> grind

theorem Files.revise {s t : Table K} (h : s.Files) {p np : Slot} {g : Stage} {k : Kind}
    {r : Option Slot} (hr : Revised s t p g np k r)
    (ho : ∀ q, (t.procs q).ofile = (s.procs q).ofile) (hk : k ≠ .alive ∨ (s.procs np).kind = .alive)
    (hnp : k = .unused ∨ k = .zombie → (s.procs np).Closed NOFILE)
    (hg : ∀ q, g = .taken q ∨ g = .stacked q → (s.procs q).Closed NOFILE)
    (hcl : ∀ fd, g = .closing fd → (s.procs p).Closed fd) : t.Files := by
  have hc := fun q n => Proc.closed_congr (ho q) n
  obtain ⟨hst, hkind, -, -⟩ := hr
  obtain ⟨h1, h2, h3, h4⟩ := h
  refine ⟨?_, ?_, ?_, ?_⟩ <;> grind

theorem Files.reopen {s t : Table K} (h : s.Files) {p np : Slot} {g : Stage}
    (hr : Revised s t p g np (s.procs np).kind (s.procs np).parent)
    (ho : ∀ q, q ≠ np → (t.procs q).ofile = (s.procs q).ofile)
    (hk : (s.procs np).kind = .alive ∨ (s.procs np).kind = .embryo)
    (hfresh : ∀ q, q ≠ p → (s.stage q).making ≠ some np)
    (hg : ∀ q, g ≠ .taken q ∧ g ≠ .stacked q)
    (hcl : ∀ fd, g = .closing fd → p = np ∧ (t.procs np).Closed fd)
    (hnp : (s.procs np).kind = .alive → p = np) : t.Files := by
  have hc := fun q hq n => Proc.closed_congr (ho q hq) n
  obtain ⟨hst, hkind, -, -⟩ := hr
  obtain ⟨h1, h2, h3, h4⟩ := h
  refine ⟨?_, ?_, ?_, ?_⟩ <;> grind [Stage.making]

theorem setOfile_other (s : Table K) (p : Slot) (fd : Fin NOFILE) (f : Option ℕ) (q : Slot)
    (hq : q ≠ p) : ((s.setOfile p fd f).procs q).ofile = (s.procs q).ofile := by
  rw [setOfile, setProc, Procs.ofile_set, if_neg hq]

theorem setOfile_self (s : Table K) (p : Slot) (fd : Fin NOFILE) (f : Option ℕ) :
    (s.setOfile p fd f).procs p =
      { s.procs p with ofile := Function.update (s.procs p).ofile fd f } := Function.update_self ..

theorem goto_procs (s : Table K) (p : Slot) (g : Stage) : (s.goto p g).procs = s.procs := rfl

theorem setOfile_revised (s : Table K) (p : Slot) (fd : Fin NOFILE) (f : Option ℕ) (g : Stage) :
    Revised s ((s.setOfile p fd f).goto p g) p g p (s.procs p).kind (s.procs p).parent :=
  revised rfl rfl rfl rfl rfl

theorem Tree.not_making {s : Table K} (ht : s.Tree) {p : Slot} (hp : (s.procs p).kind = .alive)
    (q : Slot) : (s.stage q).making ≠ some p := by
  intro hq
  have := (ht.maker q p hq).2
  grind

theorem goto_same {s : Table K} {p : Slot} {g : Stage} (h : s.stage p = g) : s.goto p g = s := by
  subst h
  rw [goto, Function.update_eq_self]

theorem Files.exit [DecidableEq K] {s : Table K} (h : s.Files) {p : Slot}
    (hp : s.At p (.closing NOFILE)) : (s.exit p).Files := by
  have hk := exit_kind s p
  have hc : ∀ q n, ((s.exit p).procs q).Closed n ↔ (s.procs q).Closed n :=
    fun q => Proc.closed_congr (s.procs.exit_passed s.initproc p q).2.2.1
  have hst : ∀ q, (s.exit p).stage q = s.stage q := fun _ => rfl
  have hclosed := h.closing p NOFILE (Proc.kind_running hp.1) hp.2
  obtain ⟨h1, h2, h3, h4⟩ := h
  generalize s.exit p = t at *
  refine ⟨?_, ?_, ?_, ?_⟩ <;> grind

theorem Files.run {s : Table K} (h : s.Files) (p np : Slot) : (s.run p np).Files := by
  have hst := run_stage s p np
  have hk := run_kind s p np
  have ho : ∀ q, ((s.run p np).procs q).ofile = (s.procs q).ofile := Procs.ofile_set_same rfl
  have hc := fun q n => Proc.closed_congr (ho q) n
  obtain ⟨h1, h2, h3, h4⟩ := h
  generalize s.run p np = t at *
  refine ⟨?_, ?_, ?_, ?_⟩ <;> grind

theorem Files.change [DecidableEq K] {s t : Table K} (h : s.Files) (ht : s.Tree)
    (hc : Change s t) : t.Files := by
  cases hc with
  | quiet hq => exact h.quiet hq
  | @ofile p fd f hp =>
    have hk := Proc.kind_running hp.1
    have hr := setOfile_revised s p fd f .user
    rw [goto_same (s := s.setOfile p fd f) hp.2] at hr
    exact h.reopen hr (setOfile_other s p fd f) (.inl hk) (fun q _ => ht.not_making hk q)
      (fun _ => ⟨by simp, by simp⟩) (by simp) fun _ => rfl
  | @take p np hp hnp =>
    have hr : Revised s (s.take p np) p (.taken np) np .embryo (s.procs np).parent :=
      revised rfl rfl rfl rfl rfl
    have hnew := h.unused np (unusedSlot_kind hnp)
    exact h.revise hr (Procs.ofile_set_same rfl) (.inl (by simp)) (fun _ => hnew) (by grind)
      (by simp)
  | @stacked p np hp =>
    have hnew := h.fresh p np (.inl hp.2)
    have hk := Proc.kind_running hp.1
    exact h.revise (goto_revised s p _) (fun _ => rfl) (.inr hk) (by grind) (by grind) (by simp)
  | @unfork p np hp =>
    have hr : Revised s (s.unfork p np) p .user np .unused (s.procs np).parent :=
      revised rfl rfl rfl rfl rfl
    exact h.revise hr (Procs.ofile_set_same rfl) (.inl (by simp)) (fun _ => h.fresh p np hp)
      (by simp) (by simp)
  | @adopt p np hp =>
    have hr : Revised s (s.adopt p np) p (.duping np 0) np (s.procs np).kind (some p) :=
      revised rfl rfl rfl rfl rfl
    have hk := (ht.maker p np (hp.2 ▸ rfl)).2
    exact h.revise hr (Procs.ofile_set_same rfl) (.inl (by grind)) (by grind) (by simp) (by simp)
  | @filedup p np fd hp =>
    have hr : Revised s (s.filedup p np fd) p (.duping np (fd + 1)) np (s.procs np).kind
        (s.procs np).parent := revised rfl rfl rfl rfl rfl
    have hm : (s.stage p).making = some np := hp.2 ▸ rfl
    have hk := (ht.maker p np hm).2
    refine h.reopen hr (fun q hq => ?_) (.inr hk)
      (fun q hq hqm => hq (ht.maker_unique q p np hqm hm))
      (fun _ => ⟨by simp, by simp⟩) (by simp) (by grind)
    rw [Table.filedup, goto, setProc, Procs.ofile_set, if_neg hq]
  | run _ => exact h.run _ _
  | @exiting p hp hne =>
    have hk := Proc.kind_running hp.1
    exact h.revise (goto_revised s p _) (fun _ => rfl) (.inr hk) (by grind) (by simp)
      (fun fd hfd => by cases hfd; exact fun _ hi => absurd hi (Nat.not_lt_zero _))
  | @fileclose p fd hp =>
    have hk := Proc.kind_running hp.1
    refine h.reopen (setOfile_revised s p fd none _) (setOfile_other s p fd none) (.inl hk)
      (fun q _ => ht.not_making hk q) (fun _ => ⟨by simp, by simp⟩) (fun n hn => ⟨rfl, ?_⟩)
      fun _ => rfl
    cases hn
    rw [goto_procs, setOfile_self]
    exact (h.closing p fd hk hp.2).close
  | exit hp => exact h.exit hp
  | @reap p q hp hq =>
    have hr : Revised s (s.reap p q) p .user q .unused none := revised rfl rfl rfl rfl rfl
    exact h.revise hr (Procs.ofile_set_same rfl) (.inl (by simp))
      (fun _ => h.zombie q (Procs.zombieChild_kind hq).2) (by simp) (by simp)

/-- Pids in use are distinct, and `nextpid` is above them. -/
structure Pids (s : Table K) : Prop where
  range : ∀ q, (s.procs q).kind ≠ .unused → 0 < s.pid q ∧ s.pid q < s.nextpid
  distinct : ∀ p q, (s.procs p).kind ≠ .unused → (s.procs q).kind ≠ .unused →
    s.pid p = s.pid q → p = q

theorem Pids.frame {s t : Table K} (h : s.Pids) (hn : t.nextpid = s.nextpid)
    (hq : ∀ q, (t.procs q).kind ≠ .unused →
      (s.procs q).kind ≠ .unused ∧ t.pid q = s.pid q) : t.Pids := by
  obtain ⟨h1, h2⟩ := h
  refine ⟨?_, ?_⟩ <;> grind

theorem int32_eq {n : ℕ} (h : n < 2 ^ 31) : int32 n = n := by
  exact Int.bmod_eq_of_le_mul_two (by omega) (by omega)

theorem take_pid (s : Table K) (p np q : Slot) :
    (s.take p np).pid q = if q = np then int32 s.nextpid else s.pid q := by
  rw [pid, take, Procs.pid_set, pid]

theorem Pids.take {s : Table K} (h : s.Pids) (p np : Slot) (hpos : 0 < s.nextpid)
    (hn : s.nextpid < 2 ^ 31) : (s.take p np).Pids := by
  have hk := take_kind s p np
  have hi := take_pid s p np
  rw [int32_eq hn] at hi
  have hnext : ((s.take p np).nextpid : ℤ) = s.nextpid + 1 := Nat.cast_succ _
  obtain ⟨h1, h2⟩ := h
  refine ⟨?_, ?_⟩ <;> grind

/-- Which slots are in use, and their pids, changes only in `allocproc`, `wait` and failing forks.
-/
theorem Change.pids [DecidableEq K] {s t : Table K} (h : Change s t) (ht : s.Tree) :
    (∃ p np, s.unusedSlot = some np ∧ t = s.take p np) ∨ t.nextpid = s.nextpid ∧
      ∀ q, (t.procs q).kind ≠ .unused → (s.procs q).kind ≠ .unused ∧ t.pid q = s.pid q := by
  have hset : ∀ {np : Slot} {x : Proc K},
      (x.kind ≠ .unused → (s.procs np).kind ≠ .unused ∧ x.pid = (s.procs np).pid) →
      ∀ q, (s.procs.set np x q).kind ≠ .unused →
        (s.procs q).kind ≠ .unused ∧ (s.procs.set np x q).pid = (s.procs q).pid := by
    intro np x hx q hq
    rw [Procs.kind_set] at hq
    rw [Procs.pid_set]
    grind
  cases h with
  | quiet hq =>
    exact .inr ⟨hq.nextpid, fun q hk => ⟨(hq.procs q).kind ▸ hk, (hq.procs q).pid⟩⟩
  | ofile _ => exact .inr ⟨rfl, hset fun hk => ⟨hk, rfl⟩⟩
  | take _ hnp => exact .inl ⟨_, _, hnp, rfl⟩
  | stacked _ => exact .inr ⟨rfl, fun q hk => ⟨hk, rfl⟩⟩
  | unfork _ => exact .inr ⟨rfl, hset fun hk => absurd rfl hk⟩
  | adopt _ => exact .inr ⟨rfl, hset fun hk => ⟨hk, rfl⟩⟩
  | filedup _ => exact .inr ⟨rfl, hset fun hk => ⟨hk, rfl⟩⟩
  | @run p np hp =>
    have hk := (ht.maker p np (hp.2 ▸ rfl)).2
    exact .inr ⟨rfl, hset fun _ => ⟨by rw [hk]; nofun, rfl⟩⟩
  | exiting _ _ => exact .inr ⟨rfl, fun q hk => ⟨hk, rfl⟩⟩
  | fileclose _ => exact .inr ⟨rfl, hset fun hk => ⟨hk, rfl⟩⟩
  | @exit p hp =>
    have hpass := s.procs.exit_passed s.initproc p
    refine .inr ⟨rfl, fun q hk => ⟨?_, (hpass q).2.1⟩⟩
    change (s.procs.exit s.initproc p q).kind ≠ .unused at hk
    have hpk := Proc.kind_running hp.1
    rw [(hpass q).1] at hk
    grind
  | reap _ _ => exact .inr ⟨rfl, hset fun hk => absurd rfl hk⟩

def Forked (log : List Event) (a b : ℤ) : Prop := ∃ q killed, .forked q a b killed ∈ log

/-- The process that forked `c` has exited. -/
def Orphaned (log : List Event) (c : ℤ) : Prop := ∃ a, Forked log a c ∧ .exited a ∈ log

/-- What had happened when `wait` returned `c` to `b`. -/
structure Reapable (init : ℤ) (log : List Event) (b c : ℤ) : Prop where
  exited : .exited c ∈ log
  first : ∀ b', .reaped b' c ∉ log
  parent : Forked log b c ∨ b = init ∧ Orphaned log c

def Reaps (init : ℤ) : List Event → Prop
  | [] => True
  | e :: log => (∀ b c, e = .reaped b c → Reapable init log b c) ∧ Reaps init log

structure Records (s : Table K) : Prop where
  exited : ∀ q, (s.procs q).kind = .zombie → .exited (s.pid q) ∈ s.log
  parent : ∀ q p, (s.procs q).kind = .alive ∨ (s.procs q).kind = .zombie → q ≠ s.initproc →
    (s.procs q).parent = some p →
    Forked s.log (s.pid p) (s.pid q) ∨ p = s.initproc ∧ Orphaned s.log (s.pid q)
  gone : ∀ b c : ℤ, .reaped b c ∈ s.log →
    c < s.nextpid ∧ ∀ q, (s.procs q).kind ≠ .unused → s.pid q ≠ c
  reaps : Reaps (s.pid s.initproc) s.log

theorem Forked.append {log : List Event} {a b : ℤ} (h : Forked log a b) (es : List Event) :
    Forked (es ++ log) a b := by
  obtain ⟨q, k, h⟩ := h
  exact ⟨q, k, List.mem_append_right _ h⟩

theorem Orphaned.append {log : List Event} {c : ℤ} (h : Orphaned log c) (es : List Event) :
    Orphaned (es ++ log) c := by
  obtain ⟨a, h, ha⟩ := h
  exact ⟨a, h.append es, List.mem_append_right _ ha⟩

theorem Reaps.append {init : ℤ} {es log : List Event} (h : Reaps init log)
    (hes : ∀ b c, .reaped b c ∉ es) : Reaps init (es ++ log) := by
  induction es with
  | nil => exact h
  | cons e es ih =>
    simp only [List.mem_cons, not_or] at hes
    exact ⟨fun b c he => absurd he.symm (hes b c).1, ih fun b c => (hes b c).2⟩

theorem Records.extend {s t : Table K} (h : s.Records) (es : List Event)
    (hlog : t.log = es ++ s.log)
    (hes : ∀ b c, .reaped b c ∉ es) (hi : t.initproc = s.initproc)
    (hpid : ∀ q, (t.procs q).kind = .alive ∨ (t.procs q).kind = .zombie → t.pid q = s.pid q)
    (hinit : (t.procs s.initproc).kind = .alive)
    (hz : ∀ q, (t.procs q).kind = .zombie → (s.procs q).kind = .zombie ∨ .exited (s.pid q) ∈ es)
    (hpar : ∀ q p, (t.procs q).kind = .alive ∨ (t.procs q).kind = .zombie → q ≠ s.initproc →
      (t.procs q).parent = some p → t.pid p = s.pid p ∧
      (((s.procs q).kind = .alive ∨ (s.procs q).kind = .zombie) ∧ (s.procs q).parent = some p ∨
      Forked t.log (s.pid p) (s.pid q) ∨ p = s.initproc ∧ Orphaned t.log (s.pid q)))
    (hgone : ∀ c : ℤ, c < s.nextpid → (∀ q, (s.procs q).kind ≠ .unused → s.pid q ≠ c) →
      c < t.nextpid ∧ ∀ q, (t.procs q).kind ≠ .unused → t.pid q ≠ c) : t.Records := by
  refine ⟨fun q hq => ?_, fun q p hq hne hp => ?_, fun b c hbc => ?_, ?_⟩
  · rw [hpid q (.inr hq), hlog]
    rcases hz q hq with hz | hz
    · exact List.mem_append_right _ (h.exited q hz)
    · exact List.mem_append_left _ hz
  · rw [hi] at hne ⊢
    obtain ⟨hpp, hp⟩ := hpar q p hq hne hp
    rw [hpid q hq, hpp]
    rcases hp with ⟨hq, hp⟩ | hp
    · rw [hlog]
      exact (h.parent q p hq hne hp).imp (·.append es) fun ho => ⟨ho.1, ho.2.append es⟩
    · exact hp
  · rw [hlog, List.mem_append] at hbc
    obtain ⟨hc, hq⟩ := h.gone b c (hbc.resolve_left (hes b c))
    exact hgone c hc hq
  · rw [hi, hpid _ (.inl hinit), hlog]
    exact h.reaps.append hes

theorem Records.frame {s t : Table K} (h : s.Records) (ht : s.Tree) (hi : t.initproc = s.initproc)
    (hlog : ∃ es, t.log = es ++ s.log ∧ ∀ b c, .reaped b c ∉ es)
    (hk : ∀ q, (s.procs q).kind = .alive ∨ (t.procs q).kind = .alive ∨ (t.procs q).kind = .zombie →
      (t.procs q).kind = (s.procs q).kind ∧ (t.procs q).parent = (s.procs q).parent ∧
        t.pid q = s.pid q)
    (hgone : ∀ c : ℤ, c < s.nextpid → (∀ q, (s.procs q).kind ≠ .unused → s.pid q ≠ c) →
      c < t.nextpid ∧ ∀ q, (t.procs q).kind ≠ .unused → t.pid q ≠ c) : t.Records := by
  obtain ⟨es, hlog, hes⟩ := hlog
  have hpa := ht.parent_alive
  have hia := ht.init_alive
  refine h.extend es hlog hes hi ?_ ?_ ?_ ?_ hgone <;> grind

theorem Records.take {s : Table K} (h : s.Records) (ht : s.Tree) {p np : Slot}
    (hnp : s.unusedSlot = some np) (hn : s.nextpid < 2 ^ 31) : (s.take p np).Records := by
  have hk := take_kind s p np
  have hpar : ∀ q, ((s.take p np).procs q).parent =
      if q = np then (s.procs np).parent else (s.procs q).parent :=
    fun q => Procs.parent_set ..
  have hpid := take_pid s p np
  rw [int32_eq hn] at hpid
  have hnext : ((s.take p np).nextpid : ℤ) = s.nextpid + 1 := Nat.cast_succ _
  have hnk := unusedSlot_kind hnp
  refine h.frame ht rfl ⟨[_], rfl, by simp⟩ (fun q hq => ?_) (fun c hc hq => ⟨?_, fun q hqk => ?_⟩)
  · grind
  · omega
  · rw [hpid]
    grind

theorem Records.run {s : Table K} (h : s.Records) (ht : s.Tree) {p np : Slot}
    (hp : s.At p (.duping np NOFILE)) : (s.run p np).Records := by
  have hk := run_kind s p np
  have hpar := run_parent s p np
  have hpid : ∀ q, (s.run p np).pid q = s.pid q := Procs.pid_set_same rfl
  have hnp := ht.child_parent p np _ hp.2
  have hforked : Forked (s.run p np).log (s.pid p) (s.pid np) := ⟨_, _, List.mem_cons_self⟩
  have hia := ht.init_alive
  have hnk := (ht.maker p np (hp.2 ▸ rfl)).2
  have hkn : ∀ q, ((s.run p np).procs q).kind ≠ .unused → (s.procs q).kind ≠ .unused := by grind
  exact h.extend [_] rfl (by simp) rfl (fun q _ => hpid q) (by grind) (by grind) (by grind)
    fun c hc hq => ⟨hc, fun q hqk => hpid q ▸ hq q (hkn q hqk)⟩

theorem Records.exit [DecidableEq K] {s : Table K} (h : s.Records) (ht : s.Tree) {p : Slot}
    (hp : s.At p (.closing NOFILE)) : (s.exit p).Records := by
  have hk := exit_kind s p
  have hpar := exit_parent s p
  have hpid := exit_pid s p
  have hpk := Proc.kind_running hp.1
  have hne := ht.closing_init p _ hp.2 hpk
  have hkn : ∀ q, ((s.exit p).procs q).kind ≠ .unused → (s.procs q).kind ≠ .unused := by grind
  have hexited : .exited (s.pid p) ∈ (s.exit p).log := List.mem_cons_self
  have hia := ht.init_alive
  refine h.extend [.exited (s.pid p)] rfl (by simp) rfl (fun q _ => hpid q) (by grind)
    (by grind) (fun q r hq hqi hr => ⟨hpid r, ?_⟩)
    fun c hc hq => ⟨hc, fun q hqk => hpid q ▸ hq q (hkn q hqk)⟩
  by_cases hqp : (s.procs q).parent = some p
  · right; right
    have hqk : (s.procs q).kind = .alive ∨ (s.procs q).kind = .zombie := by grind
    have := (h.parent q p hqk hqi hqp).resolve_right fun hx => hne hx.1
    refine ⟨by grind, s.pid p, this.append [_], hexited⟩
  · left
    grind

theorem Records.reap {s : Table K} (h : s.Records) (ht : s.Tree) (hpids : s.Pids) {p q : Slot}
    (hq : s.procs.zombieChild p = some q) : (s.reap p q).Records := by
  obtain ⟨hqp, hqz⟩ := Procs.zombieChild_kind hq
  have hk : ∀ r, ((s.reap p q).procs r).kind = if r = q then .unused else (s.procs r).kind :=
    fun r => Procs.kind_set ..
  have hpar : ∀ r, ((s.reap p q).procs r).parent = if r = q then none else (s.procs r).parent :=
    fun r => Procs.parent_set ..
  have hpid : ∀ r, (s.reap p q).pid r = if r = q then 0 else s.pid r := fun r => Procs.pid_set ..
  have hlog : (s.reap p q).log = .reaped (s.pid p) (s.pid q) :: s.log := rfl
  have hi : (s.reap p q).initproc = s.initproc := rfl
  have hnext : (s.reap p q).nextpid = s.nextpid := rfl
  have hia := ht.init_alive
  have hpa := ht.parent_alive
  refine ⟨fun r hr => ?_, fun r r' hr hri hrp => ?_, fun b c hbc => ?_, ?_⟩
  · have hx := h.exited r
    grind
  · have hx := h.parent r r'
    have : Forked s.log (s.pid r') (s.pid r) ∨ r' = s.initproc ∧
        Orphaned s.log (s.pid r) := by grind
    rw [hpid, hpid, hlog, hi, if_neg (by grind), if_neg (by grind)]
    exact this.imp (·.append [_]) fun ho => ⟨ho.1, ho.2.append [_]⟩
  · rw [hlog, List.mem_cons, Event.reaped.injEq] at hbc
    have hin := (hpids.range q (by rw [hqz]; nofun)).2
    have hd := hpids.distinct q
    have hx := h.gone b c
    rw [hnext]
    grind
  · have hfirst : ∀ b, .reaped b (s.pid q) ∉ s.log := fun b hb =>
      (h.gone b _ hb).2 q (by rw [hqz]; nofun) rfl
    have hqi : q ≠ s.initproc := by grind
    rw [hi, hpid, if_neg (Ne.symm hqi), hlog]
    refine ⟨fun b c hbc => ?_, h.reaps⟩
    cases hbc
    exact ⟨h.exited q hqz, hfirst, (h.parent q p (.inr hqz) hqi hqp).imp id fun ho =>
      ⟨by rw [ho.1], ho.2⟩⟩

theorem Records.change [DecidableEq K] {s t : Table K} (h : s.Records) (ht : s.Tree)
    (hpids : s.Pids) (hn : t.nextpid ≤ 2 ^ 31) (hc : Change s t) : t.Records := by
  rcases hc.pids ht with ⟨p, np, hnp, rfl⟩ | ⟨hnext, hin⟩
  · exact h.take ht hnp hn
  have hgone : ∀ c : ℤ, c < s.nextpid → (∀ q, (s.procs q).kind ≠ .unused → s.pid q ≠ c) →
      c < t.nextpid ∧ ∀ q, (t.procs q).kind ≠ .unused → t.pid q ≠ c :=
    fun c hc hq => ⟨hnext ▸ hc, fun q hk => (hin q hk).2 ▸ hq q (hin q hk).1⟩
  have hset : ∀ {np : Slot} {x : Proc K},
      x.kind = (s.procs np).kind ∧ x.parent = (s.procs np).parent ∧ x.pid = (s.procs np).pid ∨
        (s.procs np).kind = .embryo ∧ (x.kind = .embryo ∨ x.kind = .unused) →
      ∀ q, (s.procs q).kind = .alive ∨ (s.procs.set np x q).kind = .alive ∨
        (s.procs.set np x q).kind = .zombie →
        (s.procs.set np x q).kind = (s.procs q).kind ∧
        (s.procs.set np x q).parent = (s.procs q).parent ∧
        (s.procs.set np x q).pid = (s.procs q).pid := by
    intro np x hx q hq
    rw [Procs.kind_set] at hq ⊢
    rw [Procs.pid_set, Procs.parent_set]
    grind
  cases hc with
  | quiet hq =>
    refine h.frame ht hq.initproc ?_ (fun q _ => ⟨(hq.procs q).kind, (hq.procs q).parent,
      (hq.procs q).pid⟩) hgone
    rcases hq.log with hlog | ⟨pid, ok, live, hlog⟩
    · exact ⟨[], hlog, by simp⟩
    · exact ⟨[_], hlog, by simp⟩
  | ofile _ => exact h.frame ht rfl ⟨[], rfl, by simp⟩ (hset (.inl ⟨rfl, rfl, rfl⟩)) hgone
  | take _ hnp => exact h.take ht hnp hn
  | stacked _ => exact h.frame ht rfl ⟨[], rfl, by simp⟩ (fun _ _ => ⟨rfl, rfl, rfl⟩) hgone
  | @unfork p np hp =>
    have hk := (ht.maker p np (hp.elim (· ▸ rfl) (· ▸ rfl))).2
    exact h.frame ht rfl ⟨[], rfl, by simp⟩ (hset (.inr ⟨hk, .inr rfl⟩)) hgone
  | @adopt p np hp =>
    have hk := (ht.maker p np (hp.2 ▸ rfl)).2
    exact h.frame ht rfl ⟨[], rfl, by simp⟩ (hset (.inr ⟨hk, .inl hk⟩)) hgone
  | filedup _ => exact h.frame ht rfl ⟨[], rfl, by simp⟩ (hset (.inl ⟨rfl, rfl, rfl⟩)) hgone
  | run hp => exact h.run ht hp
  | exiting _ _ => exact h.frame ht rfl ⟨[], rfl, by simp⟩ (fun _ _ => ⟨rfl, rfl, rfl⟩) hgone
  | fileclose _ => exact h.frame ht rfl ⟨[], rfl, by simp⟩ (hset (.inl ⟨rfl, rfl, rfl⟩)) hgone
  | exit hp => exact h.exit ht hp
  | reap _ hq => exact h.reap ht hpids hq

/-- Everything the code of `proc.c` keeps about the table. -/
structure Sane (s : Table K) : Prop where
  tree : s.Tree
  files : s.Files
  pids : s.Pids
  records : s.Records
  nextpid_pos : 0 < s.nextpid

theorem Change.nextpid_le [DecidableEq K] {s t : Table K} (h : Change s t) (ht : s.Tree) :
    s.nextpid ≤ t.nextpid := by
  rcases h.pids ht with ⟨p, np, -, rfl⟩ | ⟨h, -⟩
  · exact Nat.le_succ _
  · exact h.ge

theorem Sane.change [DecidableEq K] {s t : Table K} (h : s.Sane) (hc : Change s t)
    (hn : t.nextpid ≤ 2 ^ 31) : t.Sane := by
  have hpids : t.Pids := by
    rcases hc.pids h.tree with ⟨p, np, -, rfl⟩ | ⟨hnext, hin⟩
    · exact h.pids.take p np h.nextpid_pos hn
    · exact h.pids.frame hnext hin
  exact ⟨h.tree.change hc, h.files.change h.tree hc, hpids, h.records.change h.tree h.pids hn hc,
    h.nextpid_pos.trans_le (hc.nextpid_le h.tree)⟩

theorem boot_kind (q : Slot) :
    ((boot : Table K).procs q).kind = if q = 0 then .alive else .unused := by
  rw [Proc.kind, boot, apply_ite ProcState.kind, ProcState.kind, ProcState.kind]

theorem boot_sane : (boot : Table K).Sane := by
  have hk := boot_kind (K := K)
  have hst : ∀ q, (boot : Table K).stage q = .user := fun _ => rfl
  have hpar : ∀ q, ((boot : Table K).procs q).parent = none := fun _ => rfl
  have hcl : ∀ q n, ((boot : Table K).procs q).Closed n := fun _ _ _ _ => rfl
  have hpid : ∀ q, (boot : Table K).pid q = if q = 0 then 1 else 0 := fun _ => rfl
  have hi : (boot : Table K).initproc = 0 := rfl
  have hn : (boot : Table K).nextpid = 2 := rfl
  have hlog : (boot : Table K).log = [] := rfl
  generalize (boot : Table K) = s at *
  refine ⟨⟨?_, ?_, ?_, ?_, ?_, ?_, ?_, ?_, ?_, ?_, ?_⟩, ⟨?_, ?_, ?_, ?_⟩, ⟨?_, ?_⟩,
    ⟨?_, ?_, ?_, ?_⟩, ?_⟩ <;>
    grind [Stage.making, Reaps]

theorem Move.zombie [DecidableEq K] {s t : Table K} {a : Act K} (h : Move s a t) (ht : s.Tree)
    {q : Slot} (hq : (s.procs q).kind = .zombie) :
    (t.procs q).kind = .zombie ∨
      ∃ p, a = .wait p ∧ (s.procs q).parent = some p ∧ t = s.reap p q := by
  have hset : ∀ {p : Slot} {x : Proc K}, (s.procs p).kind ≠ .zombie ∨ x.kind = (s.procs p).kind →
      (s.procs.set p x q).kind = .zombie := by
    intro p x hx
    rw [Procs.kind_set]
    grind
  have hruns : ∀ {p : Slot}, (s.procs p).state = .running → (s.procs p).kind ≠ .zombie :=
    fun hp => by rw [Proc.kind_running hp]; rintro ⟨⟩
  have hmade : ∀ {p np : Slot} {g : Stage}, s.At p g → g.making = some np →
      (s.procs np).kind ≠ .zombie := fun hp hg => by rw [(ht.maker _ _ (hp.2 ▸ hg)).2]; rintro ⟨⟩
  cases h with
  | dispatch hp => exact .inl (hset (.inl (by rw [Proc.kind, hp]; rintro ⟨⟩)))
  | yield hp => exact .inl (hset (.inl (hruns hp)))
  | sleep hp => exact .inl (hset (.inl (hruns hp)))
  | tidy hp => exact .inl (hset (.inl (hruns hp)))
  | wakeup => exact .inl ((Procs.wakeup1_alike _ _ q).kind.trans hq)
  | killed _ _ => exact .inl ((Procs.hit_alike _ _ q).kind.trans hq)
  | noKill _ _ => exact .inl hq
  | ofile _ => exact .inl (hset (.inr rfl))
  | noSlot _ _ => exact .inl hq
  | taken hp hnp => exact .inl (hset (.inl (by rw [unusedSlot_kind hnp]; rintro ⟨⟩)))
  | stacked _ => exact .inl hq
  | noStack hp => exact .inl (hset (.inl (hmade hp rfl)))
  | adopted _ => exact .inl (hset (.inr rfl))
  | noMemory hp => exact .inl (hset (.inl (hmade hp rfl)))
  | filedup _ => exact .inl (hset (.inr rfl))
  | run hp => exact .inl (hset (.inl (hmade hp rfl)))
  | exiting _ _ => exact .inl hq
  | fileclose _ => exact .inl (hset (.inr rfl))
  | @exit p _ =>
    refine .inl ((s.procs.exit_passed s.initproc p q).1.trans ?_)
    rw [hq, ite_self]
  | @reaped p r _ hr =>
    by_cases hqr : q = r
    · subst hqr
      exact .inr ⟨p, rfl, (Procs.zombieChild_kind hr).1, rfl⟩
    · exact .inl ((Procs.kind_set ..).trans ((if_neg hqr).trans hq))
  | noChild _ _ _ => exact .inl hq
  | waits hp _ _ _ => exact .inl (hset (.inl (hruns hp)))

/-- The process tree is sound, and `wait` returned each child once, after its exit. -/
structure SoundTree [DecidableEq K] (s : Table K) : Prop where
  parent : ∀ q, (s.procs q).state ≠ .unused → (s.procs q).state ≠ .embryo → q ≠ s.initproc →
    ∃ p, (s.procs q).parent = some p ∧ (s.procs p).state ≠ .unused ∧
      (s.procs p).state ≠ .embryo ∧ (s.procs p).state ≠ .zombie
  unused : ∀ q, (s.procs q).state = .unused →
    (s.procs q).parent = none ∧ ∀ fd, (s.procs q).ofile fd = none
  pids : ∀ p q, (s.procs p).state ≠ .unused → (s.procs q).state ≠ .unused →
    s.pid p = s.pid q → p = q
  reaped : ∀ newer older b c, s.log = newer ++ .reaped b c :: older →
    Reapable (s.pid s.initproc) older b c
  zombie : ∀ a t q, s.step a = some t → (s.procs q).state = .zombie → (t.procs q).state ≠ .zombie →
    ∃ p, a = .wait p ∧ (s.procs q).parent = some p ∧ t = s.reap p q

theorem Reaps.at {init : ℤ} {newer older : List Event} {b c : ℤ}
    (h : Reaps init (newer ++ .reaped b c :: older)) : Reapable init older b c := by
  induction newer with
  | nil => exact h.1 b c rfl
  | cons e newer ih => exact ih h.2

theorem sane_of_reaches [DecidableEq K] {s : Table K} (h : Run.Reaches step boot s)
    (hn : s.nextpid ≤ 2 ^ 31) : s.Sane := by
  refine (h.invariant (I := fun s => s.Tree ∧ (s.nextpid ≤ 2 ^ 31 → s.Sane)) ?_
    ⟨boot_sane.tree, fun _ => boot_sane⟩).2 hn
  intro s a t hs hst
  have hc := (step_move hst).change
  refine ⟨hs.1.change hc, fun hn => ?_⟩
  exact (hs.2 ((hc.nextpid_le hs.1).trans hn)).change hc hn

theorem process_tree_sound [DecidableEq K] {s : Table K} (h : Run.Reaches step boot s)
    (hn : s.nextpid ≤ 2 ^ 31) : s.SoundTree := by
  have hs := sane_of_reaches h hn
  refine ⟨fun q hu he hi => ?_, fun q hu => ?_, fun p q hp hq => ?_, fun newer older b c hlog => ?_,
    fun a t q ht hq hne => ?_⟩
  · have hq : (s.procs q).kind = .alive ∨ (s.procs q).kind = .zombie := by
      rw [Proc.kind_eq_alive, Proc.kind_eq_zombie]
      tauto
    obtain ⟨p, hp⟩ := Option.isSome_iff_exists.mp (hs.tree.has_parent q hq hi)
    exact ⟨p, hp, Proc.kind_eq_alive.mp (hs.tree.parent_alive q p hp)⟩
  · have hk := Proc.kind_eq_unused.mpr hu
    exact ⟨hs.tree.unused_parent q hk, fun fd => hs.files.unused q hk fd fd.isLt⟩
  · exact hs.pids.distinct p q (mt Proc.kind_eq_unused.mp hp) (mt Proc.kind_eq_unused.mp hq)
  · exact (hlog ▸ hs.records.reaps).at
  · exact ((step_move ht).zombie hs.tree (Proc.kind_eq_zombie.mpr hq)).resolve_left
      (mt Proc.kind_eq_zombie.mp hne)

def initForks : List (Act Unit) :=
  [.allocproc 0, .kalloc 0 true, .copyuvm 0 true] ++ List.replicate NOFILE (.filedup 0) ++ [.run 0]

/-- `initproc` forks the process 2, which exits, and waits for it. -/
def forkExitWait : List (Act Unit) :=
  .dispatch 0 :: initForks ++ .dispatch 1 :: List.replicate (NOFILE + 1) (.fileclose 1) ++
    [.exit 1, .wait 0]

theorem process_tree_sound_reaped : ∃ s : Table Unit, Run.exec step boot forkExitWait = some s ∧
    s.log = [.reaped 1 2, .exited 2, .forked 1 1 2 false, .assigned 1 2] ∧ s.SoundTree := by
  have hrun : (Run.exec step boot forkExitWait).map (fun s => (s.log, s.nextpid)) =
      some ([.reaped 1 2, .exited 2, .forked 1 1 2 false, .assigned 1 2], 3) := by decide +kernel
  obtain ⟨s, hs, heq⟩ := Option.map_eq_some_iff.mp hrun
  have hn : s.nextpid = 3 := congrArg Prod.snd heq
  exact ⟨s, hs, congrArg Prod.fst heq, process_tree_sound ⟨_, hs⟩ (by rw [hn]; decide)⟩

end Table

end Xv6.Ptable
