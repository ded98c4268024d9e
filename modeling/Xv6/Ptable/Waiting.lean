import Xv6.Ptable.Reaped

/-! A process does not sleep in `wait` while it has a dead child. -/
namespace Xv6.Ptable

variable {K : Type}

def Procs.Dozes (procs : Procs K) (p : Slot) : Prop :=
  (procs p).state = .sleeping ∧ (procs p).chan = some (.proc p)

namespace Procs

theorem Dozes.of_hit {procs : Procs K} {q r : Slot} (h : (procs.hit q).Dozes r) :
    procs.Dozes r := by
  rw [Dozes, hit, set_apply] at h
  rw [Dozes]
  grind

variable [DecidableEq K]

theorem wakeup1_chan (procs : Procs K) (chan : Chan K) (q : Slot) :
    (procs.wakeup1 chan q).chan = (procs q).chan := by
  rw [wakeup1, apply_ite Proc.chan, ite_self]

theorem wakeup1_sleeping {procs : Procs K} {chan : Chan K} {q : Slot}
    (h : (procs.wakeup1 chan q).state = .sleeping) :
    (procs q).state = .sleeping ∧ (procs q).chan ≠ some chan := by
  rw [wakeup1] at h
  grind

theorem Dozes.of_wakeup1 {procs : Procs K} {chan : Chan K} {q : Slot}
    (h : (procs.wakeup1 chan).Dozes q) : procs.Dozes q ∧ chan ≠ .proc q := by
  obtain ⟨hs, hc⟩ := h
  rw [wakeup1_chan] at hc
  have hs := wakeup1_sleeping hs
  exact ⟨⟨hs.1, hc⟩, fun heq => hs.2 (heq ▸ hc)⟩

theorem Dozes.of_wakeupParent {procs : Procs K} {p q : Slot} (h : (procs.wakeupParent p).Dozes q) :
    procs.Dozes q ∧ (procs p).parent ≠ some q := by
  rw [wakeupParent] at h
  cases hp : (procs p).parent with
  | none =>
    rw [hp] at h
    exact ⟨h, (by rintro ⟨⟩)⟩
  | some r =>
    rw [hp] at h
    have := h.of_wakeup1
    exact ⟨this.1, fun heq => this.2 (congrArg Chan.proc (Option.some.inj heq))⟩

/-- The loop of `exit` puts nobody to sleep, and wakes `initproc` when it hands it a zombie. -/
theorem Dozes.of_abandon {initproc p r : Slot} {qs : List Slot} {procs : Procs K}
    (h : (abandon initproc p qs procs).Dozes r) :
    procs.Dozes r ∧
      ∀ q ∈ qs, (procs q).parent = some p → (procs q).state = .zombie → r ≠ initproc := by
  induction qs generalizing procs with
  | nil => exact ⟨h, nofun⟩
  | cons q qs ih =>
    rw [abandon] at h
    split at h
    case isFalse hq =>
      obtain ⟨hr, hqs⟩ := ih h
      refine ⟨hr, fun q' hq' hp hz => ?_⟩
      rcases List.mem_cons.mp hq' with rfl | hq'
      · exact absurd hp hq
      · exact hqs q' hq' hp hz
    case isTrue hq =>
      set passed := procs.set q { procs q with parent := some initproc }
      have hset : ∀ r, (passed r).state = (procs r).state ∧ (passed r).chan = (procs r).chan ∧
          (r ≠ q → (passed r).parent = (procs r).parent) := by
        grind
      have hdozes : passed.Dozes r → procs.Dozes r := fun hr => by
        rwa [Dozes, (hset r).1, (hset r).2.1] at hr
      obtain ⟨hr, hqs⟩ := ih h
      split at hr
      case isTrue hz =>
        have hw := hr.of_wakeup1
        exact ⟨hdozes hw.1, fun _ _ _ _ hri => hw.2 (congrArg Chan.proc hri.symm)⟩
      case isFalse hz =>
        refine ⟨hdozes hr, fun q' hq' hp hz' => ?_⟩
        have hne : q' ≠ q := fun heq => hz (heq ▸ hz')
        rw [if_neg hz] at hqs
        exact hqs q' (List.mem_of_ne_of_mem hne hq') (((hset q').2.2 hne).trans hp)
          ((hset q').1.trans hz')

theorem Dozes.of_exit {procs : Procs K} {initproc p r : Slot}
    (h : (procs.exit initproc p).Dozes r) :
    procs.Dozes r ∧ (procs p).parent ≠ some r ∧
      ∀ q, (procs q).parent = some p → (procs q).kind = .zombie → r ≠ initproc := by
  have hne : r ≠ p := by
    rintro rfl
    have := h.1
    rw [exit, setState, set_apply, if_pos rfl] at this
    cases this
  rw [Dozes, exit, setState, set_apply, if_neg hne] at h
  obtain ⟨hr, hz⟩ := Dozes.of_abandon h
  obtain ⟨hr, hp⟩ := hr.of_wakeupParent
  refine ⟨hr, hp, fun q hq hqz => hz q (List.mem_finRange q) ?_ ?_⟩
  · rw [(procs.wakeupParent_alike p q).parent, hq]
  · rw [← Proc.kind_eq_zombie, (procs.wakeupParent_alike p q).kind, hqz]

end Procs

namespace Table

/-- No process sleeps in `wait` with a dead child. -/
def Attentive (s : Table K) : Prop :=
  ∀ p q, s.procs.Dozes p → (s.procs q).parent = some p → (s.procs q).kind ≠ .zombie

theorem Attentive.frame {s t : Table K} (h : s.Attentive)
    (hd : ∀ p, t.procs.Dozes p → s.procs.Dozes p)
    (hz : ∀ p q, t.procs.Dozes p → (t.procs q).parent = some p → (t.procs q).kind = .zombie →
      (s.procs q).parent = some p ∧ (s.procs q).kind = .zombie) : t.Attentive := by
  intro p q hp hq hqz
  have := hz p q hp hq hqz
  exact h p q (hd p hp) this.1 this.2

theorem Attentive.alike {s t : Table K} (h : s.Attentive)
    (hd : ∀ p, t.procs.Dozes p → s.procs.Dozes p)
    (hq : ∀ q, (s.procs q).Alike (t.procs q)) : t.Attentive :=
  h.frame hd fun _ q _ hp hz => ⟨(hq q).parent ▸ hp, (hq q).kind ▸ hz⟩

theorem Attentive.set {s t : Table K} (h : s.Attentive) {r : Slot} {x : Proc K}
    (ht : t.procs = s.procs.set r x) (hd : x.state ≠ .sleeping ∨ x.chan ≠ some (.proc r))
    (hz : x.kind ≠ .zombie ∨ x.kind = (s.procs r).kind ∧ x.parent = (s.procs r).parent) :
    t.Attentive := by
  refine h.frame (fun p hp => ?_) (fun p q _ hq hqz => ?_)
  · rw [ht] at hp
    simp only [Procs.Dozes, Procs.set_apply] at hp ⊢
    grind
  · rw [ht, Procs.parent_set] at hq
    rw [ht, Procs.kind_set] at hqz
    grind

theorem Attentive.exit [DecidableEq K] {s : Table K} (h : s.Attentive) (ht : s.Tree) (p : Slot) :
    (s.exit p).Attentive := by
  intro r q hr hq hqz
  obtain ⟨hk, -, -, hpar⟩ := s.procs.exit_passed s.initproc p q
  obtain ⟨hr, hpr, hinit⟩ := Procs.Dozes.of_exit hr
  have hne := ht.parent_ne p
  have hold := h r q hr
  have hpassed := hinit q
  change (s.procs.exit s.initproc p q).parent = some r at hq
  change (s.procs.exit s.initproc p q).kind = .zombie at hqz
  grind

theorem Attentive.await {s : Table K} (h : s.Attentive) {p : Slot}
    (hz : s.procs.zombieChild p = none) : (s.await p).Attentive := by
  intro r q hr hq hqz
  have hk : ((s.await p).procs q).kind = if q = p then .alive else (s.procs q).kind :=
    Procs.kind_set ..
  have hpar : ((s.await p).procs q).parent =
      if q = p then (s.procs p).parent else (s.procs q).parent := Procs.parent_set ..
  have hkids := Procs.zombieChild_none (q := q) hz
  have hdozes : r ≠ p → s.procs.Dozes r := fun hne => by
    have hr' : (s.await p).procs r = s.procs r := Function.update_of_ne hne ..
    rwa [Procs.Dozes, hr'] at hr
  have hold := h r q
  grind

theorem Attentive.move [DecidableEq K] {s t : Table K} {a : Act K} (h : s.Attentive) (ht : s.Tree)
    (hm : Move s a t) : t.Attentive := by
  have hrun : ∀ {p : Slot}, (s.procs p).state = .running → (s.procs p).state ≠ .sleeping :=
    fun hp => by rw [hp]; rintro ⟨⟩
  have hmade : ∀ {p np : Slot} {g : Stage}, s.At p g → g.making = some np →
      (s.procs np).kind ≠ .zombie ∧ (s.procs np).state ≠ .sleeping := by
    intro p np g hp hg
    have := (ht.maker p np (hp.2 ▸ hg)).2
    rw [Proc.kind] at this ⊢
    grind [ProcState.kind]
  cases hm with
  | dispatch _ => exact h.set rfl (.inl (by rintro ⟨⟩)) (.inl (by rintro ⟨⟩))
  | yield _ => exact h.set rfl (.inl (by rintro ⟨⟩)) (.inl (by rintro ⟨⟩))
  | sleep _ => exact h.set rfl (.inr (by rintro ⟨⟩)) (.inl (by rintro ⟨⟩))
  | tidy _ => exact h.set rfl (.inr (by rintro ⟨⟩)) (.inr ⟨rfl, rfl⟩)
  | wakeup => exact h.alike (fun _ hp => hp.of_wakeup1.1) (Procs.wakeup1_alike _ _)
  | killed _ _ => exact h.alike (fun _ hp => hp.of_hit) (Procs.hit_alike _ _)
  | noKill _ _ => exact h
  | ofile hp => exact h.set rfl (.inl (hrun hp.1)) (.inr ⟨rfl, rfl⟩)
  | noSlot _ _ => exact h
  | taken _ _ => exact h.set rfl (.inl (by rintro ⟨⟩)) (.inl (by rintro ⟨⟩))
  | stacked _ => exact h
  | noStack _ => exact h.set rfl (.inl (by rintro ⟨⟩)) (.inl (by rintro ⟨⟩))
  | adopted hp => exact h.set rfl (.inl (hmade hp rfl).2) (.inl (hmade hp rfl).1)
  | noMemory _ => exact h.set rfl (.inl (by rintro ⟨⟩)) (.inl (by rintro ⟨⟩))
  | filedup hp => exact h.set rfl (.inl (hmade hp rfl).2) (.inl (hmade hp rfl).1)
  | run _ => exact h.set rfl (.inl (by rintro ⟨⟩)) (.inl (by rintro ⟨⟩))
  | exiting _ _ => exact h
  | fileclose hp => exact h.set rfl (.inl (hrun hp.1)) (.inr ⟨rfl, rfl⟩)
  | exit _ => exact h.exit ht _
  | reaped _ _ => exact h.set rfl (.inl (by rintro ⟨⟩)) (.inl (by rintro ⟨⟩))
  | noChild _ _ _ => exact h
  | waits _ hz _ _ => exact h.await hz

/-- In no reachable state does a process sleep in `wait` while a child of it is dead. -/
theorem parent_awake [DecidableEq K] {s : Table K} (h : Run.Reaches step boot s) (p q : Slot)
    (hp : (s.procs p).state = .sleeping) (hc : (s.procs p).chan = some (.proc p))
    (hq : (s.procs q).parent = some p) : (s.procs q).state ≠ .zombie := by
  have hs : s.Tree ∧ s.Attentive := by
    refine h.invariant (I := fun s => s.Tree ∧ s.Attentive) (fun s a t hs hst => ?_)
      ⟨boot_sane.tree, fun p q _ hq => nomatch hq⟩
    have hm := step_move hst
    exact ⟨hs.1.change hm.change, hs.2.move hs.1 hm⟩
  exact mt Proc.kind_eq_zombie.mpr (hs.2 p q ⟨hp, hc⟩ hq)

def forkWait : List (Act Unit) := .dispatch 0 :: initForks ++ [.wait 0]

theorem parent_awake_init : ∃ s : Table Unit, Run.exec step boot forkWait = some s ∧
    (s.procs 0).state = .sleeping ∧ (s.procs 1).parent = some 0 ∧ (s.procs 1).state ≠ .zombie := by
  have hrun : (Run.exec step boot forkWait).map
      (fun s => ((s.procs 0).state, (s.procs 0).chan, (s.procs 1).parent)) =
      some (.sleeping, some (.proc 0), some 0) := by decide +kernel
  obtain ⟨s, hs, heq⟩ := Option.map_eq_some_iff.mp hrun
  simp only [Prod.mk.injEq] at heq
  exact ⟨s, hs, heq.1, heq.2.2, parent_awake ⟨_, hs⟩ 0 1 heq.1 heq.2.1 heq.2.2⟩

end Table

end Xv6.Ptable
