import Xv6.Sched.Threads

/-! No missed wake-ups: code that sleeps on a channel only while a condition is false, and wakes the
channel before it gives up the lock under which it made the condition true. -/
namespace Xv6.Sched

open Ptable Monitor

variable {C K τ σ : Type}

/-- The thread is in a section of the code and has a wake-up of `k` to make. -/
def Pc.Signals (k : K) (pending : τ → Prop) : Pc K τ → Prop
  | .crit t => pending t
  | .want (.wakeup k' t) => k' = k ∨ pending t
  | .hold (.wakeup k' t) => k' = k ∨ pending t
  | .hold (.client t) => pending t
  | _ => False

def Pc.Drowsy (k : K) : Pc K τ → Prop
  | .want (.sleep k' _) => k' = k
  | .hold (.sleep k' _) => k' = k
  | .dozing k' _ => k' = k
  | _ => False

instance [DecidableEq K] (k : K) : ∀ x : Pc K τ, Decidable (x.Drowsy k)
  | .want (.sleep k' _) => inferInstanceAs (Decidable (k' = k))
  | .hold (.sleep k' _) => inferInstanceAs (Decidable (k' = k))
  | .dozing k' _ => inferInstanceAs (Decidable (k' = k))
  | .want (.act _) => isFalse id
  | .want (.wakeup _ _) => isFalse id
  | .want (.client _) => isFalse id
  | .hold (.act _) => isFalse id
  | .hold (.wakeup _ _) => isFalse id
  | .hold (.client _) => isFalse id
  | .free => isFalse id
  | .spin _ => isFalse id
  | .crit _ => isFalse id
  | .sched _ => isFalse id
  | .off _ => isFalse id

theorem Pc.Signals.inside {k : K} {pending : τ → Prop} {x : Pc K τ} (h : x.Signals k pending) :
    x.inside = true := by
  unfold Pc.Signals at h
  split at h <;> first | rfl | exact h.elim

theorem Pc.Drowsy.holds {k : K} {x : Pc K τ} (h : x.Drowsy k) :
    x.side = some false ∧ (x.lk = true ∨ x.ptable = true) ∧ ∀ r, x ≠ .off r := by
  unfold Pc.Drowsy at h
  split at h
  case h_1 => exact ⟨rfl, .inl rfl, nofun⟩
  case h_2 => exact ⟨rfl, .inl rfl, nofun⟩
  case h_3 => exact ⟨rfl, .inr rfl, nofun⟩
  case h_4 => exact h.elim

namespace Sys

def Asleep (s : Sys C K τ σ) (k : K) (p : Slot) : Prop :=
  (s.tab.procs p).state = .sleeping ∧ (s.tab.procs p).chan = some (.other k)

/-- `p` sleeps on `k`, or is about to. -/
def Sleepy (s : Sys C K τ σ) (k : K) (p : Slot) : Prop := (s.pc p).Drowsy k ∨ s.Asleep k p

instance [DecidableEq K] (s : Sys C K τ σ) (k : K) (p : Slot) : Decidable (s.Sleepy k p) :=
  inferInstanceAs (Decidable ((s.pc p).Drowsy k ∨ _ ∧ _))

/-- While the condition holds, a wake-up is on its way or nobody sleeps on `k`. -/
def Heard (k : K) (cond : σ → Prop) (pending : τ → Prop) (s : Sys C K τ σ) : Prop :=
  cond s.data → (∃ p, (s.pc p).Signals k pending) ∨ ∀ p, ¬s.Sleepy k p

/-- The code sleeps on `k` only while the condition is false, and has the wake-up of `k` pending
when it has made it true. -/
structure Discipline (P : Client K τ σ) (k : K) (cond : σ → Prop) (pending : τ → Prop)
    (J : τ → σ → Prop) : Prop where
  compute : ∀ {x y : τ} {b : Bool} {d e : σ}, J x d → P.next x b d = .compute y e → cond e →
    pending y ∨ cond d ∧ ¬pending x
  wakeup : ∀ {x y : τ} {b : Bool} {d : σ} {k' : K}, J x d → P.next x b d = .wakeup k' y →
    pending x → k' = k ∨ pending y
  sleep : ∀ {x y : τ} {b : Bool} {d : σ} {k' : K}, J x d → P.next x b d = .sleep k' y → cond d →
    k' ≠ k ∧ ¬pending x

/-- The thread on the CPU may leave with the condition true: it owes no wake-up, or nobody waits for
it. -/
def MayLeave (P : Client K τ σ) (k : K) (cond : σ → Prop) (pending : τ → Prop) (s : Sys C K τ σ)
    (c : C) : Prop :=
  ∀ p x d, s.mode c = .run p → s.pc p = .crit x ∨ s.pc p = .hold (.client x) →
    P.next x (s.killed p) s.data = .leave d → cond d →
      cond s.data ∧ ¬pending x ∨ ∀ q, ¬s.Sleepy k q

variable {s t : Sys C K τ σ} {c : C} {p : Slot} {g : Pc K τ} {k : K} {cond : σ → Prop}
  {pending : τ → Prop}

theorem Local.signals_other (hl : Local s t c p g) (hs : s.Sound) {q : Slot} (hq : q ≠ p)
    (h : (s.pc q).Signals k pending) : (t.pc q).Signals k pending := by
  rwa [hl.pc_other hs hq (Pc.inside_on h.inside)]

theorem Local.sleepy_other (hl : Local s t c p g) {q : Slot} (hq : q ≠ p) (h : t.Sleepy k q) :
    s.Sleepy k q := by
  rcases h with h | ⟨hs, hc⟩
  · rcases hl.pc q hq with hpc | ⟨-, hpc⟩
    · exact .inl (hpc ▸ h)
    · rw [hpc] at h
      exact h.elim
  · have := hl.effect.asleep q hq hs
    exact .inr ⟨this.1, this.2 ▸ hc⟩

theorem Local.sleepy_self (hl : Local s t c p g) (hg : g.leaving = false) (h : t.Sleepy k p) :
    g.Drowsy k := by
  rcases h with h | ⟨hs, -⟩
  · exact hl.pc_self ▸ h
  · exact nomatch (hl.self.mp hg).symm.trans hs

/-- A step that leaves the data alone, in which `p` neither drops a wake-up nor falls asleep while
the condition holds. -/
theorem Heard.quiet (h : s.Heard k cond pending) (hs : s.Sound) (hl : Local s t c p g)
    (hdata : t.data = s.data)
    (hsig : cond s.data → (s.pc p).Signals k pending → g.Signals k pending)
    (hslp : cond s.data → t.Sleepy k p → s.Sleepy k p) : t.Heard k cond pending := by
  intro hcond
  rw [hdata] at hcond
  rcases h hcond with ⟨q, hq⟩ | hno
  · by_cases hqp : q = p
    · exact .inl ⟨p, hl.pc_self ▸ hsig hcond (hqp ▸ hq)⟩
    · exact .inl ⟨q, hl.signals_other hs hqp hq⟩
  · refine .inr fun q hq => ?_
    by_cases hqp : q = p
    · exact hno p (hslp hcond (hqp ▸ hq))
    · exact hno q (hl.sleepy_other hqp hq)

theorem Heard.write {under : Bool} (h : s.Heard k cond pending) (hs : s.Sound)
    (hside : s.Sided under) (hl : Local s t c p g) (hin : (s.pc p).inside = true)
    (hg : g.leaving = false) (hdrowsy : ¬g.Drowsy k)
    (hmay : cond t.data → g.Signals k pending ∨
      cond s.data ∧ ¬(s.pc p).Signals k pending ∨ ∀ q, ¬s.Sleepy k q) : t.Heard k cond pending := by
  have hno : (∀ q, ¬s.Sleepy k q) → ∀ q, ¬t.Sleepy k q := by
    intro hno q hq
    by_cases hqp : q = p
    · exact hdrowsy (hl.sleepy_self hg (hqp ▸ hq))
    · exact hno q (hl.sleepy_other hqp hq)
  intro hcond
  rcases hmay hcond with hsig | ⟨hcond', hp⟩ | hno'
  · exact .inl ⟨p, hl.pc_self ▸ hsig⟩
  · refine .inr (hno ((h hcond').resolve_left fun ⟨q, hq⟩ => hp ?_))
    exact hs.inside_unique hside hq.inside hin ▸ hq
  · exact .inr (hno hno')

theorem wakeup1_awake [DecidableEq K] (procs : Procs K) (chan : Chan K) (q : Slot)
    (h : (procs.wakeup1 chan q).state = .sleeping) : (procs.wakeup1 chan q).chan ≠ some chan := by
  rw [Procs.wakeup1] at *
  grind

theorem Sound.not_sleepy_of_wakeup [DecidableEq K] {under : Bool} (hs : s.Sound)
    (hside : s.Sided under) (hl : Local s t c p g) (htab : s.tab.step (.wakeup k) = some t.tab)
    (hlock : (s.pc p).side = some true ∨ (s.pc p).lk = true ∧ (s.pc p).ptable = true)
    (hoff : ∀ r, s.pc p ≠ .off r) (hdrowsy : ¬g.Drowsy k) (q : Slot) : ¬t.Sleepy k q := by
  rintro (hq | ⟨hsl, hch⟩)
  · by_cases hqp : q = p
    · exact hdrowsy (hl.pc_self ▸ hqp ▸ hq)
    · have hpc := (hl.pc q hqp).resolve_right fun ⟨_, hpc⟩ => by
        rw [hpc] at hq
        exact hq
      rw [hpc] at hq
      obtain ⟨hqs, hheld, hqo⟩ := hq.holds
      rcases hlock with hps | ⟨hlk, hpt⟩
      · exact nomatch (hside q _ hqs).trans (hside p _ hps).symm
      · rcases hheld with hqlk | hqpt
        · exact hqp (hs.lk_unique hqlk hlk)
        · exact hqp (hs.ptable_unique hqpt hpt hqo hoff)
  · rw [← Option.some.inj htab] at hsl hch
    exact wakeup1_awake _ _ _ hsl hch

theorem chan_of_sleepy [DecidableEq K] (hl : Local s t c p g) {k' : K} {r : Back τ}
    (htab : s.tab.step (.sleep p k') = some t.tab) (hg : g = .sched r) (h : t.Sleepy k p) :
    k' = k := by
  rcases h with h | ⟨-, hch⟩
  · rw [hl.pc_self, hg] at h
    exact h.elim
  · simp only [Table.step, Option.ite_none_right_eq_some, Option.some.injEq] at htab
    rw [← htab.2] at hch
    have hch : (s.tab.procs.set p
        { s.tab.procs p with chan := some (.other k'), state := .sleeping }
      p).chan = some (.other k) := hch
    rw [Procs.set_apply, if_pos rfl] at hch
    exact Chan.other.inj (Option.some.inj hch)

variable [DecidableEq C] [DecidableEq K] {P : Client K τ σ} {under : Bool} {I : σ → Prop}
  {J : τ → σ → Prop}

theorem Heard.proc (h : s.Heard k cond pending) (hs : s.Sound) (hside : s.Sided under)
    (hD : Discipline P k cond pending J)
    (hJ : ∀ x, (s.pc p).inside = true → (s.pc p).place = some x → J x s.data)
    (hleave : MayLeave P k cond pending s c) (hc : s.mode c = .run p)
    (hm : ProcMove P under s c p g t) : t.Heard k cond pending := by
  have hl := hs.local hc hm
  have hquiet : ∀ {x : Pc K τ}, s.pc p = x → t.data = s.data → g.leaving = false →
      (x.Signals k pending → g.Signals k pending) → (g.Drowsy k → x.Drowsy k) →
      t.Heard k cond pending := fun hx hd hg hsig hdr =>
    h.quiet hs hl hd (fun _ hq => hsig (hx ▸ hq)) fun _ hq =>
      .inl (hx ▸ hdr (hl.sleepy_self hg hq))
  cases hm with
  | free hpc _ _ =>
    exact hquiet hpc (by rw [Sys.free]; split <;> rfl) rfl (by rintro ⟨⟩) (by rintro ⟨⟩)
  | enter hpc _ _ => exact hquiet hpc rfl rfl (by rintro ⟨⟩) (by rintro ⟨⟩)
  | call hpc _ _ => exact hquiet hpc rfl rfl (by rintro ⟨⟩) (by rintro ⟨⟩)
  | callUnder hpc _ _ => exact hquiet hpc rfl rfl (by rintro ⟨⟩) (by rintro ⟨⟩)
  | @acquire y hpc _ =>
    refine hquiet hpc rfl rfl ?_ ?_ <;> cases y <;> first | exact id | rintro ⟨⟩
  | close hpc _ _ => exact hquiet hpc rfl rfl (by rintro ⟨⟩) (by rintro ⟨⟩)
  | cede hpc hstep _ =>
    have ho := hs.acts p _ (.inr hpc)
    have hr := (hs.runs c p hc).mp (hpc ▸ rfl)
    refine h.quiet hs hl rfl (fun _ hq => ?_) fun _ hq => ?_
    · rw [hpc] at hq
      exact hq.elim
    · rcases hq with hq | ⟨hsl, hch⟩
      · exact (hl.pc_self ▸ hq : Pc.Drowsy k (.sched _)).elim
      · have heffect := selfEffect_of_move hs.tree (Table.step_move hstep) (actsFor_of_own ho) hr
        have := heffect.asleep ho
          hsl
        cases this.symm.trans hch
  | @wakeup k' x tab hpc hstep =>
    by_cases hk : k' = k
    · subst hk
      refine fun _ => .inr (hs.not_sleepy_of_wakeup hside hl hstep ?_ ?_ (by rintro ⟨⟩))
      · exact .inr (hpc ▸ ⟨rfl, rfl⟩)
      · rw [hpc]
        rintro _ ⟨⟩
    · exact hquiet hpc rfl rfl (fun hq => hq.resolve_left hk) (by rintro ⟨⟩)
  | releaseLk hpc => exact hquiet hpc rfl rfl (by rintro ⟨⟩) id
  | underCompute hpc hop =>
    refine h.write hs hside hl (hpc ▸ rfl) rfl (by rintro ⟨⟩) fun hcond => ?_
    have := hD.compute (hJ _ (hpc ▸ rfl) (hpc ▸ rfl)) hop hcond
    rw [hpc]
    exact this.imp_right .inl
  | @underWakeup x y k' tab hpc hop hstep =>
    by_cases hk : k' = k
    · subst hk
      refine fun _ => .inr (hs.not_sleepy_of_wakeup hside hl hstep ?_ ?_ (by rintro ⟨⟩))
      · exact .inl (hpc ▸ rfl)
      · rw [hpc]
        rintro _ ⟨⟩
    · refine hquiet hpc rfl rfl (fun hq => ?_) (by rintro ⟨⟩)
      exact (hD.wakeup (hJ _ (hpc ▸ rfl) (hpc ▸ rfl)) hop hq).resolve_left hk
  | underSleep hpc hop hstep =>
    have hsleep := hD.sleep (hJ _ (hpc ▸ rfl) (hpc ▸ rfl)) hop
    refine h.quiet hs hl rfl (fun hcond hq => ?_) fun hcond hq => ?_
    · rw [hpc] at hq
      exact ((hsleep hcond).2 hq).elim
    · exact ((hsleep hcond).1 (chan_of_sleepy hl hstep rfl hq)).elim
  | underLeave hpc hop =>
    refine h.write hs hside hl (hpc ▸ rfl) rfl (by rintro ⟨⟩) fun hcond => ?_
    have := hleave p _ _ hc (.inr hpc) hop hcond
    rw [hpc]
    exact .inr this
  | acquireLk hpc _ => exact hquiet hpc rfl rfl (by rintro ⟨⟩) (by rintro ⟨⟩)
  | compute hpc hop =>
    refine h.write hs hside hl (hpc ▸ rfl) rfl (by rintro ⟨⟩) fun hcond => ?_
    have := hD.compute (hJ _ (hpc ▸ rfl) (hpc ▸ rfl)) hop hcond
    rw [hpc]
    exact this.imp_right .inl
  | callWakeup hpc hop =>
    exact hquiet hpc rfl rfl (hD.wakeup (hJ _ (hpc ▸ rfl) (hpc ▸ rfl)) hop) (by rintro ⟨⟩)
  | callSleep hpc hop =>
    have hsleep := hD.sleep (hJ _ (hpc ▸ rfl) (hpc ▸ rfl)) hop
    refine h.quiet hs hl rfl (fun hcond hq => ?_) fun hcond hq => ?_
    · rw [hpc] at hq
      exact ((hsleep hcond).2 hq).elim
    · exact ((hsleep hcond).1 (hl.sleepy_self rfl hq)).elim
  | leave hpc hop =>
    refine h.write hs hside hl (hpc ▸ rfl) rfl (by rintro ⟨⟩) fun hcond => ?_
    have := hleave p _ _ hc (.inl hpc) hop hcond
    rw [hpc]
    exact .inr this
  | doze hpc hstep =>
    refine h.quiet hs hl rfl (fun _ hq => ?_) fun _ hq => .inl ?_
    · rw [hpc] at hq
      exact hq.elim
    · rw [hpc]
      exact chan_of_sleepy hl hstep rfl hq
  | resume hpc => exact hquiet hpc rfl rfl (by rintro ⟨⟩) (by rintro ⟨⟩)
  | resumeWait hpc _ => exact hquiet hpc rfl rfl (by rintro ⟨⟩) (by rintro ⟨⟩)
  | resumeSpin hpc _ => exact hquiet hpc rfl rfl (by rintro ⟨⟩) (by rintro ⟨⟩)
  | resumeUnder hpc _ => exact hquiet hpc rfl rfl (by rintro ⟨⟩) (by rintro ⟨⟩)

theorem Heard.dispatch (h : s.Heard k cond pending) {tab : Table K} {m : Mode}
    (hstep : s.tab.step (.dispatch p) = some tab) :
    ((s.setTab tab).setMode c m).Heard k cond pending := by
  intro hcond
  refine (h hcond).imp_right fun hno q hq => hno q (hq.imp_right fun ⟨hsl, hch⟩ => ?_)
  simp only [Table.step, Option.ite_none_right_eq_some, Option.some.injEq] at hstep
  obtain ⟨-, rfl⟩ := hstep
  have hq : ((s.tab.setState p .running).procs q) = if q = p then
      { s.tab.procs p with state := .running } else s.tab.procs q := Procs.set_apply ..
  change ((s.tab.setState p .running).procs q).state = _ at hsl
  change ((s.tab.setState p .running).procs q).chan = _ at hch
  rw [hq] at hsl hch
  split at hsl
  case isTrue => cases hsl
  case isFalse hne =>
    rw [if_neg hne] at hch
    exact ⟨hsl, hch⟩

omit [DecidableEq K] in
theorem Heard.swtch (h : s.Heard k cond pending) {r : Back τ} (hpc : s.pc p = .sched r) :
    (s.sched c p r).Heard k cond pending := by
  have hdata : (s.sched c p r).data = s.data := by
    rw [Sys.sched]
    split_ifs <;> rfl
  have hsig : ∀ q, (s.pc q).Signals k pending → ((s.sched c p r).pc q).Signals k pending := by
    intro q hq
    rcases s.sched_pc c p q r with heq | ⟨rfl, -⟩
    · rwa [heq]
    · rw [hpc] at hq
      exact hq.elim
  intro hcond
  rw [hdata] at hcond
  rcases h hcond with ⟨q, hq⟩ | hno
  · exact .inl ⟨q, hsig q hq⟩
  · refine .inr fun q hq => hno q ?_
    rcases hq with hq | hq
    · rcases s.sched_pc c p q r with heq | ⟨rfl, heq⟩
      · exact .inl (heq ▸ hq)
      · rw [heq] at hq
        exact hq.elim
    · rw [Asleep, sched_tab] at hq
      exact .inr hq

/-- Every step keeps the wake-ups heard, if threads leave only when they may. -/
theorem Heard.move {d : σ} (h : s.Heard k cond pending) (hT : s.Threads P under d)
    (hD : Discipline P k cond pending J) (hJ : Monitor.Keeps P I J) (hd : I d)
    (hleave : MayLeave P k cond pending s c) (hm : Move P under s c t) :
    t.Heard k cond pending := by
  cases hm with
  | proc hc hm =>
    exact h.proc hT.sound hT.sided hD (fun _ hin hx => hT.keeps hJ hd hin hx) hleave hc hm
  | swtch _ hpc => exact h.swtch hpc
  | zombieExit _ _ => exact h
  | acquire _ _ => exact h
  | dispatch _ hstep => exact h.dispatch hstep
  | skip _ => exact h
  | release _ => exact h
  | back _ => exact h

omit [DecidableEq C] [DecidableEq K] in
theorem boot_heard (d : σ) : (boot d : Sys C K τ σ).Heard k cond pending := by
  refine fun _ => .inr fun p hp => ?_
  rcases hp with hp | ⟨hp, -⟩
  · exact hp
  · have hp : (if p = 0 then ProcState.runnable else .unused) = .sleeping := hp
    split at hp <;> cases hp

theorem heard_of_exec {d : σ} (hD : Discipline P k cond pending J) (hJ : Monitor.Keeps P I J)
    (hd : I d) {as : List (C × Choice K τ)}
    (hC : Run.Along (step P under) (fun s a => MayLeave P k cond pending s a.1) (boot d) as)
    (h : Run.exec (step P under) (boot d) as = some s) :
    s.Threads P under d ∧ s.Heard k cond pending := by
  refine Run.exec_invariant (I := fun s => s.Threads P under d ∧ s.Heard k cond pending)
    (fun s a t hs hmay hst => ?_) ⟨boot_threads P under d, boot_heard d⟩ hC h
  have hm := (step_move hst).2
  exact ⟨hs.1.move hm, hs.2.move hs.1 hD hJ hd hmay hm⟩

omit [DecidableEq C] [DecidableEq K] in
/-- With the lock of the code free, nobody sleeps on the channel while the condition holds. -/
theorem Heard.awake {d : σ} (h : s.Heard k cond pending) (hT : s.Threads P under d)
    (hlock : s.codeLock under = none) (hcond : cond s.data) (q : Slot) : ¬s.Asleep k q := by
  intro hq
  rcases h hcond with ⟨r, hr⟩ | hno
  · obtain ⟨c', -, hlk⟩ := hT.sound.codeLock_of_inside hT.sided hr.inside
    exact nomatch hlock.symm.trans hlk
  · exact hno q (.inr hq)

end Sys

end Xv6.Sched
