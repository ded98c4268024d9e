import Xv6.Ptable.Table

/-! The process tree: parents are alive, slots are filled by one fork at a time, and `wait` returns
each child once. -/
namespace Xv6.Ptable

variable {K : Type}

inductive Kind where
  | unused
  | embryo
  | alive
  | zombie
  deriving DecidableEq

def ProcState.kind : ProcState → Kind
  | .unused => .unused
  | .embryo => .embryo
  | .sleeping => .alive
  | .runnable => .alive
  | .running => .alive
  | .zombie => .zombie

def Proc.kind (x : Proc K) : Kind := x.state.kind

/-- The tree does not tell the two apart. -/
structure Proc.Alike (x y : Proc K) : Prop where
  kind : y.kind = x.kind
  pid : y.pid = x.pid
  parent : y.parent = x.parent
  ofile : y.ofile = x.ofile

theorem Proc.Alike.refl (x : Proc K) : x.Alike x := ⟨rfl, rfl, rfl, rfl⟩

theorem Proc.kind_running {x : Proc K} (h : x.state = .running) : x.kind = .alive := by
  rw [Proc.kind, h, ProcState.kind]

theorem Proc.kind_eq_unused {x : Proc K} : x.kind = .unused ↔ x.state = .unused := by
  rw [Proc.kind]
  cases x.state <;> simp [ProcState.kind]

theorem Proc.kind_eq_zombie {x : Proc K} : x.kind = .zombie ↔ x.state = .zombie := by
  rw [Proc.kind]
  cases x.state <;> simp [ProcState.kind]

theorem Proc.kind_eq_alive {x : Proc K} :
    x.kind = .alive ↔ x.state ≠ .unused ∧ x.state ≠ .embryo ∧ x.state ≠ .zombie := by
  rw [Proc.kind]
  cases x.state <;> simp [ProcState.kind]

namespace Procs

@[grind =]
theorem set_apply (procs : Procs K) (p q : Slot) (x : Proc K) :
    procs.set p x q = if q = p then x else procs q := Function.update_apply ..

theorem kind_set (procs : Procs K) (p q : Slot) (x : Proc K) :
    (procs.set p x q).kind = if q = p then x.kind else (procs q).kind := by
  rw [set_apply, apply_ite Proc.kind]

theorem parent_set (procs : Procs K) (p q : Slot) (x : Proc K) :
    (procs.set p x q).parent = if q = p then x.parent else (procs q).parent := by
  rw [set_apply, apply_ite Proc.parent]

theorem ofile_set (procs : Procs K) (p q : Slot) (x : Proc K) :
    (procs.set p x q).ofile = if q = p then x.ofile else (procs q).ofile := by
  rw [set_apply, apply_ite Proc.ofile]

theorem ofile_set_same {procs : Procs K} {p : Slot} {x : Proc K} (h : x.ofile = (procs p).ofile)
    (q : Slot) : (procs.set p x q).ofile = (procs q).ofile := by
  rw [ofile_set]
  exact ite_eq_right_iff.mpr fun hq => hq ▸ h

theorem pid_set (procs : Procs K) (p q : Slot) (x : Proc K) :
    (procs.set p x q).pid = if q = p then x.pid else (procs q).pid := by
  rw [set_apply, apply_ite Proc.pid]

theorem pid_set_same {procs : Procs K} {p : Slot} {x : Proc K} (h : x.pid = (procs p).pid)
    (q : Slot) : (procs.set p x q).pid = (procs q).pid := by
  rw [pid_set]
  exact ite_eq_right_iff.mpr fun hq => hq ▸ h

theorem set_alike {procs : Procs K} {p : Slot} {x : Proc K} (h : (procs p).Alike x) (q : Slot) :
    (procs q).Alike (procs.set p x q) := by
  rw [set_apply]
  split
  case isTrue hq => exact hq ▸ h
  case isFalse => exact .refl _

theorem zombieChild_kind {procs : Procs K} {p q : Slot} (h : procs.zombieChild p = some q) :
    (procs q).parent = some p ∧ (procs q).kind = .zombie := by
  rw [Proc.kind_eq_zombie]
  simpa using List.find?_some h

theorem zombieChild_none {procs : Procs K} {p q : Slot} (h : procs.zombieChild p = none)
    (hq : (procs q).parent = some p) : (procs q).kind ≠ .zombie := by
  have := List.find?_eq_none.mp h q (List.mem_finRange q)
  simp only [decide_eq_true_eq, not_and, ← Proc.kind_eq_zombie] at this
  exact this hq

theorem hit_alike (procs : Procs K) (q r : Slot) : (procs r).Alike (procs.hit q r) := by
  apply set_alike
  refine ⟨?_, rfl, rfl, rfl⟩
  rw [Proc.kind, Proc.kind]
  dsimp only
  split
  case isTrue h => rw [h]; rfl
  case isFalse => rfl

variable [DecidableEq K]

theorem wakeup1_alike (procs : Procs K) (chan : Chan K) (q : Slot) :
    (procs q).Alike (procs.wakeup1 chan q) := by
  rw [wakeup1]
  split
  case isTrue h => exact ⟨by rw [Proc.kind, Proc.kind, h.1]; rfl, rfl, rfl, rfl⟩
  case isFalse => exact .refl _

theorem wakeupParent_alike (procs : Procs K) (p q : Slot) :
    (procs q).Alike (procs.wakeupParent p q) := by
  rw [wakeupParent]
  cases (procs p).parent with
  | none => exact .refl _
  | some r => exact wakeup1_alike ..

/-- What the loop of `exit` leaves in a slot. -/
structure Passed (initproc p : Slot) (qs : List Slot) (q : Slot) (x y : Proc K) : Prop where
  kind : y.kind = x.kind
  pid : y.pid = x.pid
  parent : y.parent = if q ∈ qs ∧ x.parent = some p then some initproc else x.parent
  ofile : y.ofile = x.ofile

theorem abandon_passed (initproc p : Slot) (qs : List Slot) (procs : Procs K) (q : Slot) :
    Passed initproc p qs q (procs q) (abandon initproc p qs procs q) := by
  induction qs generalizing procs with
  | nil => exact ⟨rfl, rfl, by simp [abandon], rfl⟩
  | cons r qs ih =>
    rw [abandon]
    split
    case isFalse hr =>
      obtain ⟨hk, hi, hp, ho⟩ := ih procs
      refine ⟨hk, hi, ?_, ho⟩
      grind
    case isTrue hr =>
      set passed := procs.set r { procs r with parent := some initproc } with hpassed
      have hset : (passed q).kind = (procs q).kind ∧ (passed q).pid = (procs q).pid ∧
          (passed q).ofile = (procs q).ofile ∧
          (passed q).parent = if q = r then some initproc else (procs q).parent := by
        rw [hpassed, set_apply]
        split
        case isTrue h => exact h ▸ ⟨rfl, rfl, rfl, rfl⟩
        case isFalse => exact ⟨rfl, rfl, rfl, rfl⟩
      have hwake : (passed q).Alike
          ((if (procs r).state = .zombie then passed.wakeup1 (.proc initproc) else passed) q) := by
        split
        · exact wakeup1_alike ..
        · exact .refl _
      obtain ⟨hk, hi, hp, ho⟩ := ih (if (procs r).state = .zombie then
        passed.wakeup1 (.proc initproc) else passed)
      refine ⟨by rw [hk, hwake.kind, hset.1], by rw [hi, hwake.pid, hset.2.1], ?_,
        by rw [ho, hwake.ofile, hset.2.2.1]⟩
      rw [hp, hwake.parent, hset.2.2.2]
      grind

theorem exit_passed (procs : Procs K) (initproc p q : Slot) :
    (procs.exit initproc p q).kind = (if q = p then .zombie else (procs q).kind) ∧
      (procs.exit initproc p q).pid = (procs q).pid ∧
      (procs.exit initproc p q).ofile = (procs q).ofile ∧
      (procs.exit initproc p q).parent =
        if (procs q).parent = some p then some initproc else (procs q).parent := by
  have hwake := procs.wakeupParent_alike p q
  obtain ⟨hk, hi, hp, ho⟩ := abandon_passed initproc p slots (procs.wakeupParent p) q
  have hq : q ∈ slots := List.mem_finRange q
  rw [hwake.kind] at hk
  rw [hwake.pid] at hi
  rw [hwake.ofile] at ho
  simp only [hq, true_and, hwake.parent] at hp
  rw [exit, setState, set_apply]
  split
  case isTrue h =>
    subst h
    exact ⟨rfl, hi, ho, hp⟩
  case isFalse => exact ⟨hk, hi, ho, hp⟩

end Procs

/-- The slot that a process at this place of `fork` is filling. -/
def Stage.making : Stage → Option Slot
  | .taken np => some np
  | .stacked np => some np
  | .duping np _ => some np
  | _ => none

namespace Table

theorem unusedSlot_kind {s : Table K} {q : Slot} (h : s.unusedSlot = some q) :
    (s.procs q).kind = .unused := by
  rw [Proc.kind_eq_unused]
  simpa using List.find?_some h

/-- Nothing happens that the tree sees: processes run, sleep and wake, and `wait` and `kill` look
around. -/
structure Quiet (s t : Table K) : Prop where
  procs : ∀ q, (s.procs q).Alike (t.procs q)
  stage : ∀ q, t.stage q = s.stage q ∨ t.stage q = .user ∨ t.stage q = .waiting
  nextpid : t.nextpid = s.nextpid
  initproc : t.initproc = s.initproc
  log : t.log = s.log ∨ ∃ pid ok live, t.log = .killed pid ok live :: s.log

inductive Change [DecidableEq K] (s : Table K) : Table K → Prop where
  | quiet {t : Table K} : Quiet s t → Change s t
  | ofile {p : Slot} {fd : Fin NOFILE} {f : Option ℕ} : s.At p .user → Change s (s.setOfile p fd f)
  | take {p np : Slot} : s.At p .user → s.unusedSlot = some np → Change s (s.take p np)
  | stacked {p np : Slot} : s.At p (.taken np) → Change s (s.goto p (.stacked np))
  | unfork {p np : Slot} : s.stage p = .taken np ∨ s.stage p = .stacked np →
      Change s (s.unfork p np)
  | adopt {p np : Slot} : s.At p (.stacked np) → Change s (s.adopt p np)
  | filedup {p np : Slot} {fd : Fin NOFILE} : s.At p (.duping np fd) →
      Change s (s.filedup p np fd)
  | run {p np : Slot} : s.At p (.duping np NOFILE) → Change s (s.run p np)
  | exiting {p : Slot} : s.At p .user → p ≠ s.initproc → Change s (s.goto p (.closing 0))
  | fileclose {p : Slot} {fd : Fin NOFILE} : s.At p (.closing fd) →
      Change s ((s.setOfile p fd none).goto p (.closing (fd + 1)))
  | exit {p : Slot} : s.At p (.closing NOFILE) → Change s (s.exit p)
  | reap {p q : Slot} : (s.procs p).state = .running → s.procs.zombieChild p = some q →
      Change s (s.reap p q)

theorem quiet_setProc {s : Table K} {p : Slot} {x : Proc K} (h : (s.procs p).Alike x) :
    Quiet s (s.setProc p x) :=
  ⟨Procs.set_alike h, fun _ => .inl rfl, rfl, rfl, .inl rfl⟩

theorem goto_stage (s : Table K) (p q : Slot) (g : Stage) :
    (s.goto p g).stage q = if q = p then g else s.stage q := Function.update_apply ..

theorem Quiet.goto {s t : Table K} (h : Quiet s t) {p : Slot} {g : Stage}
    (hg : g = .user ∨ g = .waiting) : Quiet s (t.goto p g) := by
  refine ⟨h.procs, fun q => ?_, h.nextpid, h.initproc, h.log⟩
  rw [goto_stage]
  split
  · exact .inr hg
  · exact h.stage q

theorem Quiet.refl (s : Table K) : Quiet s s :=
  ⟨fun _ => .refl _, fun _ => .inl rfl, rfl, rfl, .inl rfl⟩

theorem alike_state {x : Proc K} {st : ProcState} {chan : Option (Chan K)}
    (h : st.kind = x.kind) : x.Alike { x with state := st, chan := chan } := ⟨h, rfl, rfl, rfl⟩

theorem Move.change [DecidableEq K] {s t : Table K} {a : Act K} (h : Move s a t) : Change s t := by
  have hset : ∀ {p : Slot} {st : ProcState} {chan : Option (Chan K)}, st.kind = (s.procs p).kind →
      Quiet s (s.setProc p { s.procs p with state := st, chan := chan }) :=
    fun hk => quiet_setProc (alike_state hk)
  cases h with
  | dispatch hp => exact .quiet (hset (by rw [Proc.kind, hp]; rfl))
  | yield hp => exact .quiet (hset (by rw [Proc.kind, hp]; rfl))
  | sleep hp => exact .quiet (hset (by rw [Proc.kind, hp]; rfl))
  | tidy hp => exact .quiet (hset rfl)
  | wakeup =>
    exact .quiet ⟨Procs.wakeup1_alike _ _, fun _ => .inl rfl, rfl, rfl, .inl rfl⟩
  | killed _ _ =>
    exact .quiet ⟨Procs.hit_alike _ _, fun _ => .inl rfl, rfl, rfl, .inr ⟨_, _, _, rfl⟩⟩
  | noKill _ _ =>
    exact .quiet ⟨fun _ => .refl _, fun _ => .inl rfl, rfl, rfl, .inr ⟨_, _, _, rfl⟩⟩
  | ofile hp => exact .ofile hp
  | noSlot _ _ => exact .quiet (.refl s)
  | taken hp hnp => exact .take hp hnp
  | stacked hp => exact .stacked hp
  | noStack hp => exact .unfork (.inl hp.2)
  | adopted hp => exact .adopt hp
  | noMemory hp => exact .unfork (.inr hp.2)
  | filedup hp => exact .filedup hp
  | run hp => exact .run hp
  | exiting hp hne => exact .exiting hp hne
  | fileclose hp => exact .fileclose hp
  | exit hp => exact .exit hp
  | reaped hp hq => exact .reap hp hq
  | noChild hp hq hw => exact .quiet ((Quiet.refl s).goto (.inl rfl))
  | waits hp hq hw hk =>
    exact .quiet ((hset (by rw [Proc.kind, hp]; rfl)).goto (.inr rfl))

structure Tree (s : Table K) : Prop where
  maker : ∀ p np, (s.stage p).making = some np →
    (s.procs p).kind = .alive ∧ (s.procs np).kind = .embryo
  maker_unique : ∀ p q np, (s.stage p).making = some np → (s.stage q).making = some np → p = q
  parent_alive : ∀ q p, (s.procs q).parent = some p → (s.procs p).kind = .alive
  has_parent : ∀ q, (s.procs q).kind = .alive ∨ (s.procs q).kind = .zombie → q ≠ s.initproc →
    (s.procs q).parent.isSome
  unused_parent : ∀ q, (s.procs q).kind = .unused → (s.procs q).parent = none
  fresh_parent : ∀ p np, s.stage p = .taken np ∨ s.stage p = .stacked np →
    (s.procs np).parent = none
  child_parent : ∀ p np fd, s.stage p = .duping np fd → (s.procs np).parent = some p
  init_alive : (s.procs s.initproc).kind = .alive
  closing_init : ∀ p fd, s.stage p = .closing fd → (s.procs p).kind = .alive → p ≠ s.initproc
  init_parent : (s.procs s.initproc).parent = none
  parent_ne : ∀ q, (s.procs q).parent ≠ some q

/-- The tree stays when nothing it sees changes but processes leave `fork` or `exit`. -/
theorem Tree.frame {s t : Table K} (h : s.Tree) (hk : ∀ q, (t.procs q).kind = (s.procs q).kind)
    (hp : ∀ q, (t.procs q).parent = (s.procs q).parent)
    (hst : ∀ q, t.stage q = s.stage q ∨ t.stage q = .user ∨ t.stage q = .waiting)
    (hi : t.initproc = s.initproc) : t.Tree := by
  obtain ⟨h1, h2, h3, h4, h5, h6, h7, h8, h9, h10, h11⟩ := h
  refine ⟨?_, ?_, ?_, ?_, ?_, ?_, ?_, ?_, ?_, ?_, ?_⟩ <;> grind [Stage.making]

/-- Process `p` is now at `g`, and the slot `np` has the kind `k` and the parent `r`. -/
structure Revised (s t : Table K) (p : Slot) (g : Stage) (np : Slot) (k : Kind) (r : Option Slot) :
    Prop where
  stage : ∀ q, t.stage q = if q = p then g else s.stage q
  kind : ∀ q, (t.procs q).kind = if q = np then k else (s.procs q).kind
  parent : ∀ q, (t.procs q).parent = if q = np then r else (s.procs q).parent
  initproc : t.initproc = s.initproc

theorem revised {s t : Table K} {p np : Slot} {g : Stage} {k : Kind} {r : Option Slot} {x : Proc K}
    (hst : t.stage = Function.update s.stage p g) (hpr : t.procs = s.procs.set np x)
    (hk : x.kind = k) (hr : x.parent = r) (hi : t.initproc = s.initproc) :
    Revised s t p g np k r := by
  subst hk hr
  exact ⟨fun _ => hst ▸ Function.update_apply .., fun _ => hpr ▸ Procs.kind_set ..,
    fun _ => hpr ▸ Procs.parent_set .., hi⟩

theorem goto_revised (s : Table K) (p : Slot) (g : Stage) :
    Revised s (s.goto p g) p g p (s.procs p).kind (s.procs p).parent :=
  ⟨fun q => goto_stage s p q g, fun _ => (ite_eq_right_iff.mpr fun hq => hq ▸ rfl).symm,
    fun _ => (ite_eq_right_iff.mpr fun hq => hq ▸ rfl).symm, rfl⟩

theorem Tree.take {s : Table K} (h : s.Tree) {p np : Slot} (hp : s.At p .user)
    (hnp : s.unusedSlot = some np) : (s.take p np).Tree := by
  have hr : Revised s (s.take p np) p (.taken np) np .embryo (s.procs np).parent :=
    revised rfl rfl rfl rfl rfl
  have hpk := Proc.kind_running hp.1
  have hnk := unusedSlot_kind hnp
  obtain ⟨hst, hk, hpar, hi⟩ := hr
  obtain ⟨h1, h2, h3, h4, h5, h6, h7, h8, h9, h10, h11⟩ := h
  generalize s.take p np = t at *
  refine ⟨?_, ?_, ?_, ?_, ?_, ?_, ?_, ?_, ?_, ?_, ?_⟩ <;> grind [Stage.making]

theorem Tree.unfork {s : Table K} (h : s.Tree) {p np : Slot}
    (hp : s.stage p = .taken np ∨ s.stage p = .stacked np) : (s.unfork p np).Tree := by
  have hr : Revised s (s.unfork p np) p .user np .unused (s.procs np).parent :=
    revised rfl rfl rfl rfl rfl
  obtain ⟨hst, hk, hpar, hi⟩ := hr
  obtain ⟨h1, h2, h3, h4, h5, h6, h7, h8, h9, h10, h11⟩ := h
  generalize s.unfork p np = t at *
  refine ⟨?_, ?_, ?_, ?_, ?_, ?_, ?_, ?_, ?_, ?_, ?_⟩ <;> grind [Stage.making]

theorem Tree.adopt {s : Table K} (h : s.Tree) {p np : Slot} (hp : s.At p (.stacked np)) :
    (s.adopt p np).Tree := by
  have hr : Revised s (s.adopt p np) p (.duping np 0) np (s.procs np).kind (some p) :=
    revised rfl rfl rfl rfl rfl
  have hpk := Proc.kind_running hp.1
  have hpg := hp.2
  obtain ⟨hst, hk, hpar, hi⟩ := hr
  obtain ⟨h1, h2, h3, h4, h5, h6, h7, h8, h9, h10, h11⟩ := h
  generalize s.adopt p np = t at *
  refine ⟨?_, ?_, ?_, ?_, ?_, ?_, ?_, ?_, ?_, ?_, ?_⟩ <;> grind [Stage.making]

theorem Tree.advance {s t : Table K} (h : s.Tree) {p : Slot} {g : Stage}
    (hk : ∀ q, (t.procs q).kind = (s.procs q).kind)
    (hpar : ∀ q, (t.procs q).parent = (s.procs q).parent)
    (hst : ∀ q, t.stage q = if q = p then g else s.stage q) (hi : t.initproc = s.initproc)
    (hm : g.making = (s.stage p).making)
    (hfresh : ∀ np, g = .stacked np → s.stage p = .taken np) (htaken : ∀ np, g ≠ .taken np)
    (hdup : ∀ np fd, g = .duping np fd → ∃ fd, s.stage p = .duping np fd)
    (hclosing : ∀ fd, g = .closing fd → p ≠ s.initproc) : t.Tree := by
  obtain ⟨h1, h2, h3, h4, h5, h6, h7, h8, h9, h10, h11⟩ := h
  refine ⟨?_, ?_, ?_, ?_, ?_, ?_, ?_, ?_, ?_, ?_, ?_⟩ <;> grind

theorem Tree.stacked {s : Table K} (h : s.Tree) {p np : Slot} (hp : s.At p (.taken np)) :
    (s.goto p (.stacked np)).Tree :=
  h.advance (fun _ => rfl) (fun _ => rfl) (fun _ => Function.update_apply ..) rfl (hp.2 ▸ rfl)
    (fun _ hg => by cases hg; exact hp.2) nofun nofun nofun

theorem Tree.filedup {s : Table K} (h : s.Tree) {p np : Slot} {fd : Fin NOFILE}
    (hp : s.At p (.duping np fd)) : (s.filedup p np fd).Tree := by
  have hr : Revised s (s.filedup p np fd) p (.duping np (fd + 1)) np (s.procs np).kind
      (s.procs np).parent := revised rfl rfl rfl rfl rfl
  exact h.advance (fun q => by rw [hr.kind]; grind) (fun q => by rw [hr.parent]; grind) hr.stage rfl
    (hp.2 ▸ rfl) nofun nofun (fun _ _ hg => by cases hg; exact ⟨fd, hp.2⟩) nofun

theorem run_stage (s : Table K) (p np q : Slot) :
    (s.run p np).stage q = if q = p ∨ q = np then .user else s.stage q := by
  simp only [Table.run, record, goto, setState, Function.update_apply]
  grind

theorem take_kind (s : Table K) (p np q : Slot) :
    ((s.take p np).procs q).kind = if q = np then .embryo else (s.procs q).kind :=
  Procs.kind_set ..

theorem run_kind (s : Table K) (p np q : Slot) :
    ((s.run p np).procs q).kind = if q = np then .alive else (s.procs q).kind :=
  Procs.kind_set ..

theorem run_parent (s : Table K) (p np q : Slot) : ((s.run p np).procs q).parent =
    if q = np then (s.procs np).parent else (s.procs q).parent :=
  Procs.parent_set ..

theorem exit_kind [DecidableEq K] (s : Table K) (p q : Slot) :
    ((s.exit p).procs q).kind = if q = p then .zombie else (s.procs q).kind :=
  (s.procs.exit_passed s.initproc p q).1

theorem exit_pid [DecidableEq K] (s : Table K) (p q : Slot) : (s.exit p).pid q = s.pid q :=
  (s.procs.exit_passed s.initproc p q).2.1

theorem exit_parent [DecidableEq K] (s : Table K) (p q : Slot) : ((s.exit p).procs q).parent =
    if (s.procs q).parent = some p then some s.initproc else (s.procs q).parent :=
  (s.procs.exit_passed s.initproc p q).2.2.2

theorem Tree.run {s : Table K} (h : s.Tree) {p np : Slot} (hp : s.At p (.duping np NOFILE)) :
    (s.run p np).Tree := by
  have hst := run_stage s p np
  have hk := run_kind s p np
  have hpar := run_parent s p np
  have hi : (s.run p np).initproc = s.initproc := rfl
  have hpk := Proc.kind_running hp.1
  have hpg := hp.2
  obtain ⟨h1, h2, h3, h4, h5, h6, h7, h8, h9, h10, h11⟩ := h
  generalize s.run p np = t at *
  refine ⟨?_, ?_, ?_, ?_, ?_, ?_, ?_, ?_, ?_, ?_, ?_⟩ <;> grind [Stage.making]

theorem Tree.exit [DecidableEq K] {s : Table K} (h : s.Tree) {p : Slot}
    (hp : s.At p (.closing NOFILE)) :
    (s.exit p).Tree := by
  have hk := exit_kind s p
  have hpar := exit_parent s p
  have hst : ∀ q, (s.exit p).stage q = s.stage q := fun _ => rfl
  have hi : (s.exit p).initproc = s.initproc := rfl
  have hpk := Proc.kind_running hp.1
  have hpg := hp.2
  have hpm : (s.stage p).making = none := hpg ▸ rfl
  obtain ⟨h1, h2, h3, h4, h5, h6, h7, h8, h9, h10, h11⟩ := h
  generalize s.exit p = t at *
  refine ⟨?_, ?_, ?_, ?_, ?_, ?_, ?_, ?_, ?_, ?_, ?_⟩ <;> grind

theorem Tree.reap {s : Table K} (h : s.Tree) {p q : Slot}
    (hq : s.procs.zombieChild p = some q) : (s.reap p q).Tree := by
  have hr : Revised s (s.reap p q) p .user q .unused none := revised rfl rfl rfl rfl rfl
  have hqk := (Procs.zombieChild_kind hq).2
  obtain ⟨hst, hk, hpar, hi⟩ := hr
  obtain ⟨h1, h2, h3, h4, h5, h6, h7, h8, h9, h10, h11⟩ := h
  generalize s.reap p q = t at *
  refine ⟨?_, ?_, ?_, ?_, ?_, ?_, ?_, ?_, ?_, ?_, ?_⟩ <;> grind [Stage.making]

theorem Tree.setOfile {s : Table K} (h : s.Tree) (p : Slot) (fd : Fin NOFILE) (f : Option ℕ) :
    (s.setOfile p fd f).Tree := by
  have hk : ∀ q, ((s.setOfile p fd f).procs q).kind = (s.procs q).kind := fun q => by
    rw [Table.setOfile, setProc, Procs.kind_set]
    exact ite_eq_right_iff.mpr fun hq => hq ▸ rfl
  have hpar : ∀ q, ((s.setOfile p fd f).procs q).parent = (s.procs q).parent := fun q => by
    rw [Table.setOfile, setProc, Procs.parent_set]
    exact ite_eq_right_iff.mpr fun hq => hq ▸ rfl
  exact h.frame hk hpar (fun _ => .inl rfl) rfl

theorem Tree.exiting {s : Table K} (h : s.Tree) {p : Slot} (hp : s.At p .user)
    (hne : p ≠ s.initproc) : (s.goto p (.closing 0)).Tree :=
  h.advance (fun _ => rfl) (fun _ => rfl) (goto_stage s p · _) rfl (hp.2 ▸ rfl) nofun nofun nofun
    fun _ _ => hne

theorem Tree.fileclose {s : Table K} (h : s.Tree) {p : Slot} {fd : Fin NOFILE}
    (hp : s.At p (.closing fd)) : ((s.setOfile p fd none).goto p (.closing (fd + 1))).Tree := by
  have hne := h.closing_init p fd hp.2 (Proc.kind_running hp.1)
  exact (h.setOfile p fd none).advance (fun _ => rfl) (fun _ => rfl)
    (goto_stage (s.setOfile p fd none) p · _) rfl (hp.2 ▸ rfl) nofun nofun nofun fun _ _ => hne

theorem Tree.change [DecidableEq K] {s t : Table K} (h : s.Tree) (hc : Change s t) : t.Tree := by
  cases hc with
  | quiet hq =>
    exact h.frame (fun q => (hq.procs q).kind) (fun q => (hq.procs q).parent) hq.stage hq.initproc
  | ofile _ => exact h.setOfile _ _ _
  | take hp hnp => exact h.take hp hnp
  | stacked hp => exact h.stacked hp
  | unfork hp => exact h.unfork hp
  | adopt hp => exact h.adopt hp
  | filedup hp => exact h.filedup hp
  | run hp => exact h.run hp
  | exiting hp hne => exact h.exiting hp hne
  | fileclose hp => exact h.fileclose hp
  | exit hp => exact h.exit hp
  | reap _ hq => exact h.reap hq

end Table

end Xv6.Ptable
