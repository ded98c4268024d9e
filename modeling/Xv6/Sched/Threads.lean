import Xv6.Sched.OneCpu

/-! The code that the processes run under a lock, seen without CPUs, schedulers and the steps of
`sleep` and `wakeup`: it runs as the threads of a monitor do. -/
namespace Xv6.Sched

open Ptable Monitor

variable {C K τ σ : Type}

def Back.place : Back τ → Option τ
  | .spin t => some t
  | .client t => some t
  | _ => none

theorem backOf_place (a : Table.Act K) : (backOf a : Back τ).place = none := by
  cases a <;> rfl

def Sect.place : Sect K τ → Option τ
  | .act _ => none
  | .wakeup _ t => some t
  | .sleep _ t => some t
  | .client t => some t

def Pc.place : Pc K τ → Option τ
  | .free => none
  | .want y => y.place
  | .hold y => y.place
  | .spin t => some t
  | .crit t => some t
  | .dozing _ t => some t
  | .sched r => r.place
  | .off r => r.place

/-- The thread is in a section of the code, and holds its lock. -/
def Pc.inside : Pc K τ → Bool
  | .want (.wakeup _ _) => true
  | .hold (.wakeup _ _) => true
  | .hold (.client _) => true
  | .crit _ => true
  | _ => false

theorem Pc.inside_of_place {x : Pc K τ} (h : x.place = none) : x.inside = false := by
  unfold Pc.inside
  split <;> first | rfl | cases h

/-- Which lock the thread's code runs under: `ptable.lock`, or the other one. -/
def Pc.side : Pc K τ → Option Bool
  | .want (.client _) => some true
  | .hold (.client _) => some true
  | .sched (.client _) => some true
  | .off (.client _) => some true
  | .want (.wakeup _ _) => some false
  | .hold (.wakeup _ _) => some false
  | .want (.sleep _ _) => some false
  | .hold (.sleep _ _) => some false
  | .spin _ => some false
  | .crit _ => some false
  | .dozing _ _ => some false
  | .sched (.spin _) => some false
  | .off (.spin _) => some false
  | _ => none

namespace Sys

def Sided (under : Bool) (s : Sys C K τ σ) : Prop := ∀ p b, (s.pc p).side = some b → b = under

def Calls (s : Sys C K τ σ) : Prop := ∀ p t, (s.pc p).place = some t → (s.tab.procs p).kind = .alive

variable {s t : Sys C K τ σ} {c : C} {p : Slot} {g : Pc K τ}

theorem Sound.on_of_not_off (h : s.Sound) {q : Slot} (hq : ∀ r, s.pc q ≠ .off r) :
    ∃ c, s.mode c = .run q := by
  by_contra hno
  obtain ⟨r, hr⟩ := h.parked q fun c hc => hno ⟨c, hc⟩
  exact hq r hr

theorem Sound.lk_unique (h : s.Sound) {q r : Slot} (hq : (s.pc q).lk = true)
    (hr : (s.pc r).lk = true) : q = r := by
  obtain ⟨c, hc⟩ := h.on_of_not_off (q := q) fun x hx => by rw [hx] at hq; cases hq
  obtain ⟨c', hc'⟩ := h.on_of_not_off (q := r) fun x hx => by rw [hx] at hr; cases hr
  obtain rfl : c = c' := Option.some.inj (((h.lk_iff hc).mpr hq).symm.trans ((h.lk_iff hc').mpr hr))
  exact Mode.run.inj (hc.symm.trans hc')

theorem Sound.ptable_unique (h : s.Sound) {q r : Slot} (hq : (s.pc q).ptable = true)
    (hr : (s.pc r).ptable = true) (hqo : ∀ x, s.pc q ≠ .off x) (hro : ∀ x, s.pc r ≠ .off x) :
    q = r := by
  obtain ⟨c, hc⟩ := h.on_of_not_off hqo
  obtain ⟨c', hc'⟩ := h.on_of_not_off hro
  obtain rfl : c = c' :=
    Option.some.inj (((h.ptable_iff hc).mpr hq).symm.trans ((h.ptable_iff hc').mpr hr))
  exact Mode.run.inj (hc.symm.trans hc')

theorem Local.pc_other (hl : Local s t c p g) (hs : s.Sound) {q : Slot} (hq : q ≠ p)
    (hon : ∀ r, s.pc q ≠ .off r) : t.pc q = s.pc q := by
  refine (hl.pc q hq).resolve_right fun ⟨_, _⟩ => ?_
  obtain ⟨c', hc'⟩ := hs.on_of_not_off hon
  have := hs.current c' q (hc' ▸ rfl)
  grind

theorem Pc.inside_on {x : Pc K τ} (h : x.inside = true) (r : Back τ) : x ≠ .off r := by
  rintro rfl
  cases h

theorem Pc.lk_or_ptable {x : Pc K τ} (h : x.inside = true) :
    x.lk = true ∧ x.side = some false ∨ x.ptable = true ∧ x.side = some true := by
  unfold Pc.inside at h
  split at h
  case h_3 => exact .inr ⟨rfl, rfl⟩
  case h_5 => cases h
  all_goals exact .inl ⟨rfl, rfl⟩

def codeLock (under : Bool) (s : Sys C K τ σ) : Option C := if under then s.ptable else s.lk

/-- A thread in a section of the code is on the CPU that holds the lock. -/
theorem Sound.codeLock_of_inside (h : s.Sound) {under : Bool} (hside : s.Sided under) {q : Slot}
    (hq : (s.pc q).inside = true) : ∃ c, s.mode c = .run q ∧ s.codeLock under = some c := by
  obtain ⟨c, hc⟩ := h.on_of_not_off (Pc.inside_on hq)
  refine ⟨c, hc, ?_⟩
  rcases Pc.lk_or_ptable hq with ⟨hlk, hs⟩ | ⟨hpt, hs⟩
  · rw [codeLock, ← hside q _ hs]
    exact (h.lk_iff hc).mpr hlk
  · rw [codeLock, ← hside q _ hs]
    exact (h.ptable_iff hc).mpr hpt

theorem Sound.inside_unique (h : s.Sound) {under : Bool} (hside : s.Sided under) {q r : Slot}
    (hq : (s.pc q).inside = true) (hr : (s.pc r).inside = true) : q = r := by
  obtain ⟨c, hc, hlock⟩ := h.codeLock_of_inside hside hq
  obtain ⟨c', hc', hlock'⟩ := h.codeLock_of_inside hside hr
  obtain rfl : c = c' := Option.some.inj (hlock.symm.trans hlock')
  exact Mode.run.inj (hc.symm.trans hc')

/-- Nobody is in the code when its lock is free, or held by a thread outside. -/
theorem Sound.none_inside (hs : s.Sound) {under : Bool} (hside : s.Sided under)
    (hlock : ∀ q c', s.mode c' = .run q → s.codeLock under = some c' → (s.pc q).inside = false)
    (q : Slot) : (s.pc q).inside = false := by
  by_contra hq
  obtain ⟨c', hc', hlk⟩ := hs.codeLock_of_inside hside (by simpa using hq)
  exact hq (hlock q c' hc' hlk)

/-- The monitor's view of the machine. -/
structure Abs (s : Sys C K τ σ) (m : State Slot τ σ) : Prop where
  data : m.data = s.data
  place : ∀ p, m.place p = (s.pc p).place
  owner : ∀ p, m.owner = some p ↔ (s.pc p).inside = true

theorem Abs.of_local {m m' : State Slot τ σ} (h : Abs s m) (hcalls : s.Calls) (hl : Local s t c p g)
    (hdata : m'.data = t.data) (hplace : m'.place = Function.update m.place p g.place)
    (howner : m'.owner = if g.inside then some p else if (s.pc p).inside then none else m.owner)
    (hfree : g.inside = true → (s.pc p).inside = true ∨ m.owner = none) : Abs t m' := by
  have hsame : ∀ q, q ≠ p →
      (t.pc q).place = (s.pc q).place ∧ (t.pc q).inside = (s.pc q).inside := by
    intro q hq
    rcases hl.pc q hq with hpc | ⟨hk, hpc⟩
    · rw [hpc]
      exact ⟨rfl, rfl⟩
    · have hnone : (s.pc q).place = none := by
        cases hx : (s.pc q).place with
        | none => rfl
        | some x => exact nomatch hk.symm.trans (hcalls q x hx)
      rw [hpc, hnone, Pc.inside_of_place hnone]
      exact ⟨rfl, rfl⟩
  refine ⟨hdata, fun q => ?_, fun q => ?_⟩
  · rw [hplace, Function.update_apply]
    split
    case isTrue hq => rw [hq, hl.pc_self]
    case isFalse hq => rw [(hsame q hq).1, h.place]
  · have hp := h.owner p
    have hq := h.owner q
    by_cases hqp : q = p
    · subst hqp
      rw [hl.pc_self]
      grind
    · rw [(hsame q hqp).2, howner]
      grind

variable {m : State Slot τ σ} {P : Client K τ σ}

theorem Abs.call (h : Abs s m) (hcalls : s.Calls) (hl : Local s t c p g) (hpc : s.pc p = .free)
    (hdata : t.data = s.data) {x : τ} (hx : P.start x = true) (hg : g.place = some x)
    (hin : g.inside = false) : ∃ m', Monitor.step P m (.call p x) = some m' ∧ Abs t m' := by
  have hnone : m.place p = none := by rw [h.place, hpc]; rfl
  refine ⟨_, if_pos ⟨hnone, hx⟩, h.of_local hcalls hl (h.data.trans hdata.symm) (hg ▸ rfl) ?_ ?_⟩
  · rw [hin, hpc]
    rfl
  · rw [hin]
    nofun

theorem Abs.enter (h : Abs s m) (hcalls : s.Calls) (hl : Local s t c p g) (hdata : t.data = s.data)
    {x : τ} (hpc : (s.pc p).place = some x) (hg : g.place = some x) (hin : g.inside = true)
    (hfree : ∀ q, (s.pc q).inside = false) :
    ∃ m', Monitor.step P m (.enter p) = some m' ∧ Abs t m' := by
  have hp : m.place p = some x := by rw [h.place, hpc]
  have hnone : m.owner = none := by
    cases ho : m.owner with
    | none => rfl
    | some q => exact nomatch (hfree q).symm.trans ((h.owner q).mp ho)
  refine ⟨_, if_pos ⟨by rw [hp]; rfl, hnone⟩, h.of_local hcalls hl (h.data.trans hdata.symm) ?_ ?_
    fun _ => .inr hnone⟩
  · rw [hg, ← hp, Function.update_eq_self]
  · rw [hin]
    rfl

theorem Abs.next (h : Abs s m) (hcalls : s.Calls) (hl : Local s t c p g) {x : τ}
    (hpc : (s.pc p).place = some x) (hin : (s.pc p).inside = true) {op : Op K τ σ}
    (hop : P.next x (s.killed p) s.data = op) (hdata : t.data = op.data s.data)
    (hg : g.place = op.place) (hkeep : g.inside = op.keeps) :
    ∃ m', Monitor.step P m (.next p (s.killed p)) = some m' ∧ Abs t m' := by
  have hp : m.place p = some x := by rw [h.place, hpc]
  refine ⟨_, Monitor.step_next P _ hp ((h.owner p).mpr hin),
    h.of_local hcalls hl ?_ ?_ ?_ fun _ => .inl hin⟩
  · rw [h.data, hop, hdata]
  · rw [h.data, hop, hg]
  · rw [h.data, hop, hin, hkeep]
    rfl

theorem Abs.stutter (h : Abs s m) (hcalls : s.Calls) (hl : Local s t c p g)
    (hdata : t.data = s.data) (hg : g.place = (s.pc p).place)
    (hin : g.inside = (s.pc p).inside) : Abs t m := by
  refine h.of_local hcalls hl (h.data.trans hdata.symm) ?_ ?_ fun hi => .inl (hin ▸ hi)
  · rw [hg, ← h.place, Function.update_eq_self]
  · rw [hin]
    have := h.owner p
    grind

variable [DecidableEq C]

theorem sched_pc (s : Sys C K τ σ) (c : C) (p q : Slot) (r : Back τ) :
    (s.sched c p r).pc q = s.pc q ∨ q = p ∧ (s.sched c p r).pc q = .off r := by
  rw [sched]
  split_ifs
  · exact .inl rfl
  · exact .inl rfl
  · exact .inl rfl
  · by_cases hq : q = p
    · subst hq
      exact .inr ⟨rfl, Function.update_self ..⟩
    · exact .inl (Function.update_of_ne hq ..)

variable [DecidableEq K] {under : Bool}

theorem ProcMove.side {b : Bool} (hm : ProcMove P under s c p g t)
    (hb : g.side = some b) : (s.pc p).side = some b ∨ b = under := by
  have hold : ∀ {x y : Pc K τ}, s.pc p = x → y.side = x.side → y.side = some b →
      (s.pc p).side = some b ∨ b = under := fun hx hy hb => .inl (hx ▸ hy ▸ hb)
  cases hm with
  | free _ _ _ => cases hb
  | enter _ _ _ => cases hb
  | call _ _ hu =>
    cases hb
    exact .inr hu.symm
  | callUnder _ _ hu =>
    cases hb
    exact .inr hu.symm
  | @acquire y hpc _ => exact hold hpc (by cases y <;> rfl) hb
  | close _ _ _ => cases hb
  | @cede a _ _ _ _ => cases a <;> cases hb
  | wakeup hpc _ => exact hold hpc rfl hb
  | releaseLk hpc => exact hold hpc rfl hb
  | underCompute hpc _ => exact hold hpc rfl hb
  | underWakeup hpc _ _ => exact hold hpc rfl hb
  | underSleep hpc _ _ => exact hold hpc rfl hb
  | underLeave _ _ => cases hb
  | acquireLk hpc _ => exact hold hpc rfl hb
  | compute hpc _ => exact hold hpc rfl hb
  | callWakeup hpc _ => exact hold hpc rfl hb
  | callSleep hpc _ => exact hold hpc rfl hb
  | leave _ _ => cases hb
  | doze hpc _ => exact hold hpc rfl hb
  | resume _ => cases hb
  | resumeWait _ _ => cases hb
  | resumeSpin hpc _ => exact hold hpc rfl hb
  | resumeUnder hpc _ => exact hold hpc rfl hb

theorem Sided.move (h : s.Sided under) (hs : s.Sound) (hm : Move P under s c t) :
    t.Sided under := by
  cases hm with
  | @proc p g t hc hm =>
    have hl := hs.local hc hm
    intro q b hb
    by_cases hq : q = p
    · subst hq
      rw [hl.pc_self] at hb
      exact (hm.side hb).elim (h _ b) id
    · rcases hl.pc q hq with hpc | ⟨-, hpc⟩
      · exact h q b (hpc ▸ hb)
      · rw [hpc] at hb
        cases hb
  | @swtch p r hc hpc =>
    intro q b hb
    rcases s.sched_pc c p q r with heq | ⟨rfl, heq⟩
    · exact h q b (heq ▸ hb)
    · refine h q b ?_
      rw [hpc]
      rw [heq] at hb
      cases r <;> exact hb
  | zombieExit _ _ => exact h
  | acquire _ _ => exact h
  | dispatch _ _ => exact h
  | skip _ => exact h
  | release _ => exact h
  | back _ => exact h

/-- A thread that is asleep or on its way there has a live process. -/
theorem ProcMove.alive_of_leaving (hm : ProcMove P under s c p g t) (hg : g.leaving = true) {x : τ}
    (hx : g.place = some x) : (t.tab.procs p).kind = .alive := by
  have hsleep : ∀ {k : K} {tab : Table K}, s.tab.step (.sleep p k) = some tab →
      (tab.procs p).kind = .alive := fun hstep => by
    rw [Proc.kind, step_sleep hstep]
    rfl
  cases hm with
  | cede _ _ _ => cases (backOf_place _).symm.trans hx
  | underSleep _ _ hstep => exact hsleep hstep
  | doze _ hstep => exact hsleep hstep
  | _ => cases hg

theorem Calls.proc (h : s.Calls) (hs : s.Sound) (hc : s.mode c = .run p)
    (hm : ProcMove P under s c p g t) : t.Calls := by
  have hl := hs.local hc hm
  intro q x hx
  by_cases hq : q = p
  · subst hq
    rw [hl.pc_self] at hx
    cases hg : g.leaving with
    | true => exact hm.alive_of_leaving hg hx
    | false => exact Proc.kind_running (hl.self.mp hg)
  · rcases hl.pc q hq with hpc | ⟨-, hpc⟩
    · exact hl.effect.alive q hq (h q x (hpc ▸ hx))
    · rw [hpc] at hx
      cases hx

theorem Calls.move (h : s.Calls) (hs : s.Sound) (hm : Move P under s c t) : t.Calls := by
  cases hm with
  | proc hc hm => exact h.proc hs hc hm
  | @swtch p r hc hpc =>
    intro q x hx
    rw [sched_tab]
    rcases s.sched_pc c p q r with heq | ⟨rfl, heq⟩
    · exact h q x (heq ▸ hx)
    · rw [heq] at hx
      exact h q x (hpc ▸ hx)
  | zombieExit _ _ => exact h
  | acquire _ _ => exact h
  | @dispatch p _ _ hstep =>
    intro q x hx
    have hk := h q x hx
    cases Table.step_move hstep with
    | dispatch _ =>
      change (s.tab.procs.set p _ q).kind = .alive
      rw [Procs.set_apply]
      split
      · rfl
      · exact hk
  | skip _ => exact h
  | release _ => exact h
  | back _ => exact h

/-- A step of a thread is a step of the monitor, or none. -/
theorem Abs.proc (h : Abs s m) (hs : s.Sound) (hside : s.Sided under) (hcalls : s.Calls)
    (hc : s.mode c = .run p) (hm : ProcMove P under s c p g t) :
    ∃ m', Run.Reaches (Monitor.step P) m m' ∧ Abs t m' := by
  have hl := hs.local hc hm
  have hone : ∀ {a}, (∃ m', Monitor.step P m a = some m' ∧ Abs t m') →
      ∃ m', Run.Reaches (Monitor.step P) m m' ∧ Abs t m' := fun ⟨m', hm', ht⟩ =>
    ⟨m', .head hm' (.refl m'), ht⟩
  have hnone : ∀ {x : Pc K τ}, s.pc p = x → t.data = s.data → g.place = x.place →
      g.inside = x.inside → ∃ m', Run.Reaches (Monitor.step P) m m' ∧ Abs t m' :=
    fun hx hd hg hi => ⟨m, .refl m, h.stutter hcalls hl hd (hx ▸ hg) (hx ▸ hi)⟩
  cases hm with
  | free hpc _ _ => exact hnone hpc (by rw [Sys.free]; split <;> rfl) rfl rfl
  | enter hpc _ _ => exact hnone hpc rfl rfl rfl
  | call hpc hx _ => exact hone (h.call hcalls hl hpc rfl hx rfl rfl)
  | callUnder hpc hx _ => exact hone (h.call hcalls hl hpc rfl hx rfl rfl)
  | @acquire y hpc hfree =>
    cases y with
    | act _ => exact hnone hpc rfl rfl rfl
    | wakeup _ _ => exact hnone hpc rfl rfl rfl
    | sleep _ _ => exact hnone hpc rfl rfl rfl
    | client x =>
      refine hone (h.enter hcalls hl rfl (x := x) (hpc ▸ rfl) rfl rfl
        (hs.none_inside hside fun q c' _ hlk => ?_))
      obtain rfl : true = under := hside p true (hpc ▸ rfl)
      cases hfree.symm.trans hlk
  | close hpc _ _ => exact hnone hpc rfl rfl rfl
  | cede hpc _ _ => exact hnone hpc rfl (backOf_place _) rfl
  | wakeup hpc _ => exact hnone hpc rfl rfl rfl
  | releaseLk hpc => exact hnone hpc rfl rfl rfl
  | underCompute hpc hop => exact hone (h.next hcalls hl (hpc ▸ rfl) (hpc ▸ rfl) hop rfl rfl rfl)
  | underWakeup hpc hop _ => exact hone (h.next hcalls hl (hpc ▸ rfl) (hpc ▸ rfl) hop rfl rfl rfl)
  | underSleep hpc hop _ => exact hone (h.next hcalls hl (hpc ▸ rfl) (hpc ▸ rfl) hop rfl rfl rfl)
  | underLeave hpc hop => exact hone (h.next hcalls hl (hpc ▸ rfl) (hpc ▸ rfl) hop rfl rfl rfl)
  | acquireLk hpc hfree =>
    refine hone (h.enter hcalls hl rfl (hpc ▸ rfl) rfl rfl
      (hs.none_inside hside fun q c' _ hlk => ?_))
    obtain rfl : false = under := hside p false (hpc ▸ rfl)
    cases hfree.symm.trans hlk
  | compute hpc hop => exact hone (h.next hcalls hl (hpc ▸ rfl) (hpc ▸ rfl) hop rfl rfl rfl)
  | callWakeup hpc hop => exact hone (h.next hcalls hl (hpc ▸ rfl) (hpc ▸ rfl) hop rfl rfl rfl)
  | callSleep hpc hop => exact hone (h.next hcalls hl (hpc ▸ rfl) (hpc ▸ rfl) hop rfl rfl rfl)
  | leave hpc hop => exact hone (h.next hcalls hl (hpc ▸ rfl) (hpc ▸ rfl) hop rfl rfl rfl)
  | doze hpc _ => exact hnone hpc rfl rfl rfl
  | resume hpc => exact hnone hpc rfl rfl rfl
  | resumeWait hpc _ => exact hnone hpc rfl rfl rfl
  | resumeSpin hpc _ => exact hnone hpc rfl rfl rfl
  | resumeUnder hpc _ =>
    refine hone (h.enter hcalls hl rfl (hpc ▸ rfl) rfl rfl
      (hs.none_inside hside fun q c' hc' hlk => ?_))
    obtain rfl : true = under := hside p true (hpc ▸ rfl)
    obtain rfl : c = c' :=
      Option.some.inj (((hs.ptable_iff hc).mpr (hpc ▸ rfl)).symm.trans hlk)
    obtain rfl : p = q := Mode.run.inj (hc.symm.trans hc')
    rw [hpc]
    rfl

theorem Abs.move (h : Abs s m) (hs : s.Sound) (hside : s.Sided under) (hcalls : s.Calls)
    (hm : Move P under s c t) : ∃ m', Run.Reaches (Monitor.step P) m m' ∧ Abs t m' := by
  have hsame : ∀ {t : Sys C K τ σ}, t.data = s.data → t.pc = s.pc →
      ∃ m', Run.Reaches (Monitor.step P) m m' ∧ Abs t m' := fun hd hpc =>
    ⟨m, .refl m, h.data.trans hd.symm, fun p => by rw [hpc, h.place], fun p => by rw [hpc, h.owner]⟩
  cases hm with
  | proc hc hm => exact h.proc hs hside hcalls hc hm
  | @swtch p r hc hpc =>
    have hdata : (s.sched c p r).data = s.data := by
      rw [Sys.sched]
      split_ifs <;> rfl
    have heq : ∀ q, ((s.sched c p r).pc q).place = (s.pc q).place ∧
        ((s.sched c p r).pc q).inside = (s.pc q).inside := by
      intro q
      rcases s.sched_pc c p q r with hq | ⟨rfl, hq⟩
      · rw [hq]
        exact ⟨rfl, rfl⟩
      · rw [hq, hpc]
        exact ⟨rfl, rfl⟩
    exact ⟨m, .refl m, h.data.trans hdata.symm, fun q => by rw [(heq q).1, h.place],
      fun q => by rw [(heq q).2, h.owner]⟩
  | zombieExit _ _ => exact hsame rfl rfl
  | acquire _ _ => exact hsame rfl rfl
  | dispatch _ _ => exact hsame rfl rfl
  | skip _ => exact hsame rfl rfl
  | release _ => exact hsame rfl rfl
  | back _ => exact hsame rfl rfl

structure Threads (P : Client K τ σ) (under : Bool) (d : σ) (s : Sys C K τ σ) : Prop where
  sound : s.Sound
  sided : s.Sided under
  calls : s.Calls
  monitor : ∃ m, Run.Reaches (Monitor.step P) (Monitor.init d) m ∧ Abs s m

theorem Threads.move {d : σ} (h : s.Threads P under d) (hm : Move P under s c t) :
    t.Threads P under d := by
  obtain ⟨m, hm', ha⟩ := h.monitor
  obtain ⟨m', hr, ha'⟩ := ha.move h.sound h.sided h.calls hm
  exact ⟨h.sound.move hm, h.sided.move h.sound hm, h.calls.move h.sound hm, m',
    .trans hm' hr, ha'⟩

omit [DecidableEq C] [DecidableEq K] in
theorem Threads.keeps {d : σ} (h : s.Threads P under d) {I : σ → Prop} {J : τ → σ → Prop}
    (hJ : Monitor.Keeps P I J) (hd : I d) {x : τ} (hin : (s.pc p).inside = true)
    (hx : (s.pc p).place = some x) : J x s.data := by
  obtain ⟨m, hm, ha⟩ := h.monitor
  exact ha.data ▸ (hJ.reaches hd hm).2 p x ((ha.owner p).mpr hin) ((ha.place p).trans hx)

omit [DecidableEq C] [DecidableEq K] in
theorem boot_threads (P : Client K τ σ) (under : Bool) (d : σ) :
    (boot d : Sys C K τ σ).Threads P under d :=
  ⟨boot_sound d, fun _ _ hb => (nomatch hb), fun _ _ hx => (nomatch hx),
    ⟨Monitor.init d, .refl _, ⟨rfl, fun _ => rfl, fun _ => ⟨nofun, nofun⟩⟩⟩⟩

end Sys

end Xv6.Sched
