import Xv6.Sched.Machine
import Xv6.Ptable.Reaped

/-! What the action of a running process does to the states of the others and to its own. -/
namespace Xv6.Sched

open Ptable Monitor

variable {C K τ σ : Type}

/-- What an action of the running process `p` does to the states of the processes. -/
structure Effect (s t : Table K) (p : Slot) : Prop where
  running : ∀ q, q ≠ p → ((t.procs q).state = .running ↔ (s.procs q).state = .running)
  alive : ∀ q, q ≠ p → (s.procs q).kind = .alive → (t.procs q).kind = .alive
  born : ∀ q, q ≠ p → (t.procs q).kind = .alive →
    (s.procs q).kind = .alive ∨ ∃ fd, s.stage p = .duping q fd
  dead : ∀ q, q ≠ p → (s.procs q).kind = .zombie →
    (t.procs q).kind = .zombie ∨ (s.procs q).parent = some p
  asleep : ∀ q, q ≠ p → (t.procs q).state = .sleeping →
    (s.procs q).state = .sleeping ∧ (t.procs q).chan = (s.procs q).chan

theorem Effect.same {s t : Table K} (p : Slot) (h : t.procs = s.procs) : Effect s t p :=
  ⟨fun _ _ => h ▸ Iff.rfl, fun _ _ hq => h ▸ hq, fun _ _ hq => .inl (h ▸ hq),
    fun _ _ hq => .inl (h ▸ hq), fun _ _ hq => ⟨h ▸ hq, h ▸ rfl⟩⟩

theorem Effect.set {s t : Table K} {p : Slot} {x : Ptable.Proc K} (h : t.procs = s.procs.set p x) :
    Effect s t p := by
  have hq : ∀ q, q ≠ p → t.procs q = s.procs q := fun q hq => by
    rw [h, Procs.set_apply, if_neg hq]
  exact ⟨fun q hn => by rw [hq q hn], fun q hn hk => by rwa [hq q hn],
    fun q hn hk => .inl (by rwa [hq q hn] at hk), fun q hn hk => .inl (by rwa [hq q hn]),
    fun q hn hs => by rw [hq q hn] at hs ⊢; exact ⟨hs, rfl⟩⟩

theorem Effect.fill {s t : Table K} {p np : Slot} {x : Ptable.Proc K}
    (hnp : (s.procs np).kind = .embryo ∨ (s.procs np).kind = .unused)
    (h : t.procs = s.procs.set np x) (hx : x.state ≠ .running) (hxs : x.state ≠ .sleeping)
    (hk : x.kind = .alive → ∃ fd, s.stage p = .duping np fd) : Effect s t p := by
  have hset : ∀ q, t.procs q = if q = np then x else s.procs q := fun q => by
    rw [h, Procs.set_apply]
  have hr : (s.procs np).state ≠ .running := fun hr => by
    rw [Proc.kind_running hr] at hnp
    grind
  refine ⟨fun q _ => ?_, fun q _ hq => ?_, fun q _ hq => ?_, fun q _ hq => ?_, fun q _ hq => ?_⟩ <;>
    rw [hset] at * <;> grind

def Woken (x y : Ptable.Proc K) : Prop :=
  (y.state = x.state ∨ x.state = .sleeping ∧ y.state = .runnable) ∧ y.chan = x.chan

theorem Woken.trans {x y z : Ptable.Proc K} (h : Woken x y) (h' : Woken y z) : Woken x z := by
  rw [Woken] at *
  grind

theorem Woken.kind {x y : Ptable.Proc K} (h : Woken x y) : y.kind = x.kind := by
  rw [Proc.kind, Proc.kind]
  rcases h.1 with h | ⟨h, h'⟩
  · rw [h]
  · rw [h, h', ProcState.kind, ProcState.kind]

theorem Woken.running {x y : Ptable.Proc K} (h : Woken x y) :
    y.state = .running ↔ x.state = .running := by
  rw [Woken] at h
  grind

theorem Effect.wake {s t : Table K} {p : Slot}
    (h : ∀ q, q ≠ p → Woken (s.procs q) (t.procs q)) : Effect s t p := by
  exact ⟨fun q hq => (h q hq).running, fun q hq hk => by rwa [(h q hq).kind],
    fun q hq hk => .inl (by rwa [(h q hq).kind] at hk),
    fun q hq hk => .inl (by rwa [(h q hq).kind]),
    fun q hq hs => ⟨by have := (h q hq).1; grind, (h q hq).2⟩⟩

theorem hit_woken (procs : Procs K) (q r : Slot) : Woken (procs r) (procs.hit q r) := by
  rw [Woken, Procs.hit, Procs.set_apply]
  grind

theorem wakeup1_woken [DecidableEq K] (procs : Procs K) (chan : Chan K) (q : Slot) :
    Woken (procs q) (procs.wakeup1 chan q) := by
  rw [Woken, Procs.wakeup1]
  grind

theorem abandon_woken [DecidableEq K] (initproc p : Slot) (qs : List Slot) (procs : Procs K)
    (q : Slot) : Woken (procs q) (Procs.abandon initproc p qs procs q) := by
  induction qs generalizing procs with
  | nil => exact ⟨.inl rfl, rfl⟩
  | cons r qs ih =>
    have hset : Woken (procs q) (procs.set r { procs r with parent := some initproc } q) := by
      rw [Woken, Procs.set_apply]
      grind
    rw [Procs.abandon]
    split
    · refine hset.trans (.trans ?_ (ih _))
      split
      · exact wakeup1_woken ..
      · exact ⟨.inl rfl, rfl⟩
    · exact ih procs

theorem exit_woken [DecidableEq K] (procs : Procs K) (initproc p q : Slot) (hq : q ≠ p) :
    Woken (procs q) (procs.exit initproc p q) := by
  have hparent : Woken (procs q) (procs.wakeupParent p q) := by
    rw [Procs.wakeupParent]
    cases (procs p).parent with
    | none => exact ⟨.inl rfl, rfl⟩
    | some r => exact wakeup1_woken ..
  rw [Procs.exit, Procs.setState, Procs.set_apply, if_neg hq]
  exact hparent.trans (abandon_woken ..)

theorem Effect.reap {s : Table K} {p q : Slot} (h : s.procs.zombieChild p = some q) :
    Effect s (s.reap p q) p := by
  obtain ⟨hp, hz⟩ := Procs.zombieChild_kind h
  have hset : ∀ r, (s.reap p q).procs r = if r = q then
      { s.procs q with state := .unused, pid := 0, parent := none, killed := false }
      else s.procs r := fun r => Procs.set_apply ..
  have hr : (s.procs q).state ≠ .running := fun hr => nomatch hz.symm.trans (Proc.kind_running hr)
  refine ⟨fun r _ => ?_, fun r _ hk => ?_, fun r _ hk => ?_, fun r _ hk => ?_, fun r _ hs => ?_⟩
  · grind
  · grind
  · have : Proc.kind
        { s.procs q with state := .unused, pid := 0, parent := none, killed := false } =
      .unused := rfl
    grind
  · grind
  · grind

/-- `p` takes the action, by itself or through `sleep` and `wakeup`. -/
def ActsFor (p : Slot) : Table.Act K → Prop
  | .dispatch _ => False
  | .sleep q _ => q = p
  | .tidy q => q = p
  | .wakeup _ => True
  | a => (own p a).isSome

theorem eq_of_own {p q : Slot} {b : Bool} (h : (if q = p then some b else none).isSome) :
    q = p := by
  by_contra hne
  rw [if_neg hne] at h
  cases h

theorem effect_of_move [DecidableEq K] {s t : Table K} {p : Slot} {a : Table.Act K} (ht : s.Tree)
    (h : Table.Move s a t) (ha : ActsFor p a) : Effect s t p := by
  have hmade : ∀ {q np : Slot} {g : Stage}, s.At q g → g.making = some np →
      (s.procs np).kind = .embryo := fun hq hg => (ht.maker _ _ (hq.2 ▸ hg)).2
  have hembryo : ∀ {q : Slot}, (s.procs q).kind = .embryo →
      (s.procs q).state ≠ .running ∧ (s.procs q).state ≠ .sleeping := fun hk => by
    rw [Proc.kind] at hk
    constructor <;> (intro hs; rw [hs] at hk; cases hk)
  cases h with
  | dispatch _ => exact ha.elim
  | yield _ => exact eq_of_own ha ▸ .set rfl
  | sleep _ => exact (show _ = p from ha) ▸ .set rfl
  | tidy _ => exact (show _ = p from ha) ▸ .set rfl
  | wakeup => exact .wake fun q _ => wakeup1_woken ..
  | killed _ _ => exact .wake fun q _ => hit_woken ..
  | noKill _ _ => exact .same p rfl
  | ofile _ => exact eq_of_own ha ▸ .set rfl
  | noSlot _ _ => exact .same p rfl
  | taken _ hnp =>
    exact .fill (.inr (Table.unusedSlot_kind hnp)) rfl (by rintro ⟨⟩) (by rintro ⟨⟩) (by rintro ⟨⟩)
  | stacked _ => exact .same p rfl
  | noStack hp => exact .fill (.inl (hmade hp rfl)) rfl (by rintro ⟨⟩) (by rintro ⟨⟩) (by rintro ⟨⟩)
  | adopted hp =>
    exact .fill (.inl (hmade hp rfl)) rfl (hembryo (hmade hp rfl)).1 (hembryo (hmade hp rfl)).2
      fun hk => by cases (hmade hp rfl).symm.trans hk
  | noMemory hp =>
    exact .fill (.inl (hmade hp rfl)) rfl (by rintro ⟨⟩) (by rintro ⟨⟩) (by rintro ⟨⟩)
  | filedup hp =>
    exact .fill (.inl (hmade hp rfl)) rfl (hembryo (hmade hp rfl)).1 (hembryo (hmade hp rfl)).2
      fun hk => by cases (hmade hp rfl).symm.trans hk
  | run hp =>
    exact .fill (.inl (hmade hp rfl)) rfl (by rintro ⟨⟩) (by rintro ⟨⟩) fun _ =>
      eq_of_own ha ▸ ⟨_, hp.2⟩
  | exiting _ _ => exact .same p rfl
  | fileclose _ => exact eq_of_own ha ▸ .set rfl
  | exit _ => exact eq_of_own ha ▸ .wake fun q hq => exit_woken _ _ _ q hq
  | reaped _ hq => exact eq_of_own ha ▸ .reap hq
  | noChild _ _ _ => exact .same p rfl
  | waits _ _ _ _ => exact eq_of_own ha ▸ .set rfl

/-- The slot whose context the process at this place has set up. -/
def childOf : Stage → Option Slot
  | .stacked np => some np
  | .duping np _ => some np
  | _ => none

theorem making_of_childOf {g : Stage} {np : Slot} (h : childOf g = some np) :
    g.making = some np := by
  cases g <;> first | exact h | cases h

theorem childOf_of_move [DecidableEq K] {s t : Table K} {a : Table.Act K} (h : Table.Move s a t)
    {q np : Slot} (hq : childOf (t.stage q) = some np) :
    childOf (s.stage q) = some np ∨ a = .kalloc q true ∧ s.stage q = .taken np := by
  have hgoto : ∀ {p : Slot} {g : Stage} {u : Table K}, childOf ((u.goto p g).stage q) = some np →
      u.stage = s.stage → childOf g = none ∨ childOf g = childOf (s.stage p) →
      childOf (s.stage q) = some np := by
    intro p g u hq hu hg
    rw [Table.goto_stage, hu] at hq
    grind
  cases h with
  | dispatch _ => exact .inl hq
  | yield _ => exact .inl hq
  | sleep _ => exact .inl hq
  | tidy _ => exact .inl hq
  | wakeup => exact .inl hq
  | killed _ _ => exact .inl hq
  | noKill _ _ => exact .inl hq
  | ofile _ => exact .inl hq
  | noSlot _ _ => exact .inl hq
  | @taken p np' _ _ =>
    exact .inl (hgoto (p := p) (g := .taken np') (u := s) hq rfl (.inl rfl))
  | @stacked p np' hp =>
    rw [Table.goto_stage] at hq
    split at hq
    case isTrue hqp =>
      cases hq
      exact .inr ⟨hqp ▸ rfl, hqp ▸ hp.2⟩
    case isFalse => exact .inl hq
  | noStack _ => exact .inl (hgoto hq rfl (.inl rfl))
  | @adopted p np' hp => exact .inl (hgoto hq rfl (.inr (by rw [hp.2]; rfl)))
  | noMemory _ => exact .inl (hgoto hq rfl (.inl rfl))
  | filedup hp => exact .inl (hgoto hq rfl (.inr (by rw [hp.2]; rfl)))
  | run _ =>
    rw [Table.run_stage] at hq
    split at hq
    case isTrue => cases hq
    case isFalse => exact .inl hq
  | exiting _ _ => exact .inl (hgoto hq rfl (.inl rfl))
  | fileclose _ => exact .inl (hgoto hq rfl (.inl rfl))
  | exit _ => exact .inl hq
  | reaped _ _ => exact .inl (hgoto hq rfl (.inl rfl))
  | noChild _ _ _ => exact .inl (hgoto hq rfl (.inl rfl))
  | waits _ _ _ _ => exact .inl (hgoto hq rfl (.inl rfl))

structure SelfEffect (t : Table K) (p : Slot) (a : Table.Act K) : Prop where
  kind : (t.procs p).kind = .alive ∨ a = .exit p ∧ (t.procs p).kind = .zombie
  exit : a = .exit p → (t.procs p).kind = .zombie
  running : own p a ≠ some true → (∀ k, a ≠ .sleep p k) → (t.procs p).state = .running
  asleep : own p a = some true → (t.procs p).state = .sleeping →
    (t.procs p).chan = some (.proc p)

theorem selfEffect_of_move [DecidableEq K] {s t : Table K} {p : Slot} {a : Table.Act K}
    (ht : s.Tree) (h : Table.Move s a t) (ha : ActsFor p a) (hp : (s.procs p).state = .running) :
    SelfEffect t p a := by
  have hpk := Proc.kind_running hp
  have hrun : ∀ {a : Table.Act K} {t : Table K}, a ≠ .exit p → (t.procs p).state = .running →
      SelfEffect t p a :=
    fun hne hr => ⟨.inl (Proc.kind_running hr), fun h => absurd h hne, fun _ _ => hr,
      fun _ hs => nomatch hr.symm.trans hs⟩
  have hother : ∀ {np : Slot} {x : Ptable.Proc K}, (s.procs np).kind ≠ .alive →
      (s.procs.set np x p).state = .running := by
    intro np x hnp
    rw [Procs.set_apply, if_neg (by rintro rfl; exact hnp hpk), hp]
  have hmade : ∀ {q np : Slot} {g : Stage}, s.At q g → g.making = some np →
      (s.procs np).kind ≠ .alive := fun hq hg => by
    rw [(ht.maker _ _ (hq.2 ▸ hg)).2]
    nofun
  have hself : ∀ {x : Ptable.Proc K}, s.procs.set p x p = x := Function.update_self ..
  cases h with
  | dispatch _ => exact ha.elim
  | yield _ =>
    obtain rfl := eq_of_own ha
    exact ⟨.inl (congrArg Proc.kind hself), nofun, fun hne => absurd (if_pos rfl) hne,
      fun _ hs => nomatch (congrArg Proc.state hself).symm.trans hs⟩
  | sleep _ =>
    obtain rfl : _ = p := ha
    exact ⟨.inl (congrArg Proc.kind hself), nofun, fun _ hne => absurd rfl (hne _), nofun⟩
  | tidy _ =>
    obtain rfl : _ = p := ha
    exact hrun nofun ((congrArg Proc.state hself).trans hp)
  | wakeup => exact hrun nofun ((wakeup1_woken ..).running.mpr hp)
  | killed _ _ => exact hrun nofun ((hit_woken ..).running.mpr hp)
  | noKill _ _ => exact hrun nofun hp
  | ofile _ =>
    obtain rfl := eq_of_own ha
    exact hrun nofun ((congrArg Proc.state hself).trans hp)
  | noSlot _ _ => exact hrun nofun hp
  | taken _ hnp => exact hrun nofun (hother (by rw [Table.unusedSlot_kind hnp]; nofun))
  | stacked _ => exact hrun nofun hp
  | noStack hp => exact hrun nofun (hother (hmade hp rfl))
  | adopted hp => exact hrun nofun (hother (hmade hp rfl))
  | noMemory hp => exact hrun nofun (hother (hmade hp rfl))
  | filedup hp => exact hrun nofun (hother (hmade hp rfl))
  | run hp => exact hrun nofun (hother (hmade hp rfl))
  | exiting _ _ => exact hrun nofun hp
  | fileclose _ =>
    obtain rfl := eq_of_own ha
    exact hrun nofun ((congrArg Proc.state hself).trans hp)
  | @exit p _ =>
    obtain rfl := eq_of_own ha
    have hz := (s.procs.exit_passed s.initproc p p).1.trans (if_pos rfl)
    exact ⟨.inr ⟨rfl, hz⟩, fun _ => hz, fun hne => absurd (if_pos rfl) hne, fun _ hs =>
      nomatch (Proc.kind_eq_zombie.mp hz).symm.trans hs⟩
  | reaped _ hq => exact hrun nofun (hother (by rw [(Procs.zombieChild_kind hq).2]; nofun))
  | noChild _ _ _ => exact hrun nofun hp
  | waits _ _ _ _ =>
    obtain rfl := eq_of_own ha
    exact ⟨.inl (congrArg Proc.kind hself), nofun, fun hne => absurd (if_pos rfl) hne,
      fun _ _ => congrArg Proc.chan hself⟩

end Xv6.Sched
