import Xv6.Sched.Effect

/-! Locks, CPUs and process states fit together: who holds a lock is what the places of the CPUs
and of their processes say, and the current process of a CPU runs unless the CPU holds
`ptable.lock`. -/
namespace Xv6.Sched

open Ptable Monitor

variable {C K τ σ : Type}

/-- The kernel thread holds `ptable.lock`, while it is on a CPU. -/
def Pc.ptable : Pc K τ → Bool
  | .hold _ => true
  | .dozing _ _ => true
  | .sched _ => true
  | .off _ => true
  | _ => false

def Pc.lk : Pc K τ → Bool
  | .crit _ => true
  | .want (.wakeup _ _) => true
  | .want (.sleep _ _) => true
  | .hold (.wakeup _ _) => true
  | .hold (.sleep _ _) => true
  | _ => false

theorem Pc.hold_lk (y : Sect K τ) : (Pc.hold y).lk = (Pc.want y).lk := by
  cases y <;> rfl

def Pc.leaving : Pc K τ → Bool
  | .sched _ => true
  | _ => false

namespace Sys

def holds (s : Sys C K τ σ) (c : C) : Bool :=
  match s.mode c with
  | .idle => false
  | .scan _ => true
  | .run p => (s.pc p).ptable
  | .back _ => true

def holdsLk (s : Sys C K τ σ) (c : C) : Bool :=
  match s.mode c with
  | .run p => (s.pc p).lk
  | _ => false

structure Sound (s : Sys C K τ σ) : Prop where
  tree : s.tab.Tree
  unique : ∀ c c' p, (s.mode c).proc = some p → (s.mode c').proc = some p → c = c'
  runs : ∀ c p, s.mode c = .run p → ((s.pc p).leaving = false ↔ (s.tab.procs p).state = .running)
  on_cpu : ∀ p, (s.tab.procs p).state = .running → ∃ c, s.mode c = .run p
  current : ∀ c p, (s.mode c).proc = some p →
    (s.tab.procs p).kind = .alive ∨ (s.tab.procs p).kind = .zombie
  back : ∀ c p, s.mode c = .back p → ∃ r, s.pc p = .off r
  parked : ∀ p, (∀ c, s.mode c ≠ .run p) → ∃ r, s.pc p = .off r
  returns : ∀ p, (s.tab.procs p).kind = .alive → s.pc p ≠ .off .never ∧ s.pc p ≠ .sched .never
  context : ∀ p np, childOf (s.tab.stage p) = some np → s.pc np = .off .release
  acts : ∀ p a, s.pc p = .want (.act a) ∨ s.pc p = .hold (.act a) → own p a = some true
  ptable : ∀ c, s.ptable = some c ↔ s.holds c = true
  lk : ∀ c, s.lk = some c ↔ s.holdsLk c = true
  ncli : ∀ c, s.ncli c = (s.holds c).toNat + (s.holdsLk c).toNat
  panic : s.panic = none

/-- The locks of the CPU `c` follow its process from the place `x` to the place `g`. -/
structure Locks (s t : Sys C K τ σ) (c : C) (x g : Pc K τ) : Prop where
  ptable : t.ptable = if g.ptable then some c else if x.ptable then none else s.ptable
  ptable_free : g.ptable = true → x.ptable = true ∨ s.ptable = none
  lk : t.lk = if g.lk then some c else if x.lk then none else s.lk
  lk_free : g.lk = true → x.lk = true ∨ s.lk = none
  ncli : t.ncli c + x.ptable.toNat + x.lk.toNat = s.ncli c + g.ptable.toNat + g.lk.toNat
  ncli_other : ∀ c', c' ≠ c → t.ncli c' = s.ncli c'

/-- A step of the kernel thread of `p` on the CPU `c`, to the place `g`. -/
structure Local (s t : Sys C K τ σ) (c : C) (p : Slot) (g : Pc K τ) : Prop where
  mode : ∀ c, t.mode c = s.mode c
  pc : ∀ q, q ≠ p → t.pc q = s.pc q ∨ (s.tab.procs q).kind = .embryo ∧ t.pc q = .off .release
  pc_self : t.pc p = g
  locks : Locks s t c (s.pc p) g
  panic : t.panic = none
  tree : t.tab.Tree
  effect : Effect s.tab t.tab p
  dead : ∀ q, q ≠ p → (s.tab.procs q).kind = .zombie →
    (t.tab.procs q).kind = .zombie ∨ (s.pc p).ptable = true
  self : g.leaving = false ↔ (t.tab.procs p).state = .running
  kind : (t.tab.procs p).kind = .alive ∨ (t.tab.procs p).kind = .zombie
  never : (t.tab.procs p).kind = .alive → g ≠ .sched .never
  on : ∀ r, g ≠ .off r
  context : ∀ q np, childOf (t.tab.stage q) = some np → childOf (s.tab.stage q) = some np ∨
    (s.tab.procs np).kind = .embryo ∧ t.pc np = .off .release
  acts : ∀ a, g = .want (.act a) ∨ g = .hold (.act a) → own p a = some true

/-- While a CPU's current process is not running, the CPU holds `ptable.lock`. -/
theorem Sound.holds_of_ne_running {s : Sys C K τ σ} (h : s.Sound) {c : C} {p : Slot}
    (hc : (s.mode c).proc = some p) (hp : (s.tab.procs p).state ≠ .running) :
    s.ptable = some c := by
  rw [h.ptable, holds]
  cases hm : s.mode c with
  | idle =>
    rw [hm] at hc
    cases hc
  | scan i => rfl
  | back q => rfl
  | run q =>
    rw [hm] at hc
    obtain rfl : q = p := Option.some.inj hc
    have hr := h.runs c q hm
    cases hpc : s.pc q <;> simp_all [Pc.leaving, Pc.ptable]

theorem Sound.zombie_holds {s : Sys C K τ σ} (h : s.Sound) {c : C} {p : Slot}
    (hc : (s.mode c).proc = some p) (hp : (s.tab.procs p).kind = .zombie) : s.ptable = some c :=
  h.holds_of_ne_running hc fun hr => nomatch hp.symm.trans (Proc.kind_running hr)

theorem Sound.of_local [DecidableEq C] {s t : Sys C K τ σ} (h : s.Sound) {c : C} {p : Slot}
    {g : Pc K τ} (hc : s.mode c = .run p) (hl : Local s t c p g) : t.Sound := by
  have hpk : (s.tab.procs p).kind = .alive ∨ (s.tab.procs p).kind = .zombie :=
    h.current c p (hc ▸ rfl)
  have huniq : ∀ c' q, (s.mode c').proc = some q → (c' = c ↔ q = p) := fun c' q hq =>
    ⟨fun heq => by rw [heq, hc] at hq; exact (Option.some.inj hq).symm,
      fun heq => h.unique c' c p (heq ▸ hq) (hc ▸ rfl)⟩
  have hpc : ∀ c' q, (s.mode c').proc = some q → q ≠ p → t.pc q = s.pc q := fun c' q hq hne =>
    (hl.pc q hne).resolve_right fun he => by have := h.current c' q hq; grind
  have hsame : ∀ c', c' ≠ c → t.holds c' = s.holds c' ∧ t.holdsLk c' = s.holdsLk c' := by
    intro c' hne
    rw [holds, holdsLk, holds, holdsLk, hl.mode]
    cases hm : s.mode c' with
    | run q =>
      have hq : (s.mode c').proc = some q := hm ▸ rfl
      dsimp only
      rw [hpc c' q hq (mt (huniq c' q hq).mpr hne)]
      exact ⟨rfl, rfl⟩
    | _ => exact ⟨rfl, rfl⟩
  have hself : t.holds c = g.ptable ∧ t.holdsLk c = g.lk := by
    rw [holds, holdsLk, hl.mode, hc]
    exact hl.pc_self ▸ ⟨rfl, rfl⟩
  have hholds : ∀ c', t.holds c' = if c' = c then g.ptable else s.holds c' := by grind
  have hholdsLk : ∀ c', t.holdsLk c' = if c' = c then g.lk else s.holdsLk c' := by grind
  have hchild : ∀ q fd, s.tab.stage p = .duping q fd → s.pc q = .off .release := fun q fd hq =>
    h.context p q (hq ▸ rfl)
  refine ⟨hl.tree, ?_, ?_, ?_, ?_, ?_, ?_, ?_, ?_, ?_, ?_, ?_, ?_, hl.panic⟩
  · simpa only [hl.mode] using h.unique
  · intro c' q hq
    rw [hl.mode] at hq
    by_cases hqp : q = p
    · subst hqp
      rw [hl.pc_self]
      exact hl.self
    · rw [hpc c' q (hq ▸ rfl) hqp, hl.effect.running q hqp]
      exact h.runs c' q hq
  · intro q hq
    simp only [hl.mode]
    by_cases hqp : q = p
    · exact ⟨c, hqp ▸ hc⟩
    · exact h.on_cpu q ((hl.effect.running q hqp).mp hq)
  · intro c' q hq
    rw [hl.mode] at hq
    by_cases hqp : q = p
    · exact hqp ▸ hl.kind
    · rcases h.current c' q hq with hk | hk
      · exact .inl (hl.effect.alive q hqp hk)
      · refine .inr ((hl.dead q hqp hk).resolve_right fun hp => hqp ?_)
        have hcc : s.ptable = some c := by rw [h.ptable, holds, hc]; exact hp
        rw [h.zombie_holds hq hk, Option.some.injEq] at hcc
        exact (huniq c' q hq).mp hcc
  · intro c' q hq
    rw [hl.mode] at hq
    have hqp : q ≠ p := fun heq => by
      have := (huniq c' q (hq ▸ rfl)).mpr heq
      rw [this, hc] at hq
      cases hq
    rw [hpc c' q (hq ▸ rfl) hqp]
    exact h.back c' q hq
  · intro q hno
    simp only [hl.mode] at hno
    have hqp : q ≠ p := fun heq => hno c (heq ▸ hc)
    rcases hl.pc q hqp with hpc | ⟨-, hpc⟩
    · exact hpc ▸ h.parked q hno
    · exact ⟨_, hpc⟩
  · intro q hq
    by_cases hqp : q = p
    · subst hqp
      rw [hl.pc_self]
      exact ⟨hl.on _, hl.never hq⟩
    · rcases hl.pc q hqp with hpc | ⟨-, hpc⟩
      · rw [hpc]
        rcases hl.effect.born q hqp hq with hk | ⟨fd, hfd⟩
        · exact h.returns q hk
        · rw [hchild q fd hfd]
          exact ⟨nofun, nofun⟩
      · rw [hpc]
        exact ⟨nofun, nofun⟩
  · intro q np hq
    rcases hl.context q np hq with hold | hnew
    · have hnp := h.context q np hold
      have hne : np ≠ p := fun heq => by
        have := (h.tree.maker q np (making_of_childOf hold)).2
        grind
      rcases hl.pc np hne with hpc | ⟨-, hpc⟩
      · rw [hpc, hnp]
      · exact hpc
    · exact hnew.2
  · intro q a hq
    by_cases hqp : q = p
    · subst hqp
      rw [hl.pc_self] at hq
      exact hl.acts a hq
    · rcases hl.pc q hqp with hpc | ⟨-, hpc⟩
      · exact h.acts q a (hpc ▸ hq)
      · rw [hpc] at hq
        exact hq.elim nofun nofun
  · intro c'
    have hlock := h.ptable c'
    have hlockc := h.ptable c
    have hcc : s.holds c = (s.pc p).ptable := by rw [holds, hc]
    rw [hl.locks.ptable, hholds]
    have := hl.locks.ptable_free
    grind
  · intro c'
    have hlock := h.lk c'
    have hlockc := h.lk c
    have hcc : s.holdsLk c = (s.pc p).lk := by rw [holdsLk, hc]
    rw [hl.locks.lk, hholdsLk]
    have := hl.locks.lk_free
    grind
  · intro c'
    rw [hholds, hholdsLk]
    have hcc : s.holds c = (s.pc p).ptable := by rw [holds, hc]
    have hccL : s.holdsLk c = (s.pc p).lk := by rw [holdsLk, hc]
    by_cases heq : c' = c
    · have hn := h.ncli c
      have hnew := hl.locks.ncli
      rw [hcc, hccL] at hn
      rw [if_pos heq, if_pos heq, heq]
      omega
    · rw [if_neg heq, if_neg heq, hl.locks.ncli_other c' heq]
      exact h.ncli c'

section Locks

variable {s t : Sys C K τ σ} {c : C} {p : Slot} {x g : Pc K τ} (h : s.Sound)
  (hc : s.mode c = .run p)

include h hc

theorem Sound.ptable_iff : s.ptable = some c ↔ (s.pc p).ptable = true := by
  rw [h.ptable, holds, hc]

theorem Sound.lk_iff : s.lk = some c ↔ (s.pc p).lk = true := by
  rw [h.lk, holdsLk, hc]

theorem Sound.ncli_eq : s.ncli c = (s.pc p).ptable.toNat + (s.pc p).lk.toNat := by
  rw [h.ncli, holds, holdsLk, hc]

variable (hpc : s.pc p = x)

include hpc

theorem Sound.locks_same (hp : t.ptable = s.ptable) (hl : t.lk = s.lk) (hn : t.ncli = s.ncli)
    (hgp : g.ptable = x.ptable) (hgl : g.lk = x.lk) : Locks s t c x g := by
  have h1 := h.ptable_iff hc
  have h2 := h.lk_iff hc
  constructor <;> grind

variable [DecidableEq C]

theorem Sound.locks_acquire (hfree : s.ptable = none) (hp : t.ptable = some c) (hl : t.lk = s.lk)
    (hn : t.ncli = Function.update s.ncli c (s.ncli c + 1)) (hgp : g.ptable = true)
    (hgl : g.lk = x.lk) : Locks s t c x g := by
  have h1 := h.ptable_iff hc
  have h2 := h.lk_iff hc
  have hn : ∀ c', t.ncli c' = if c' = c then s.ncli c + 1 else s.ncli c' :=
    fun _ => hn ▸ Function.update_apply ..
  constructor <;> grind

theorem Sound.locks_release (hx : x.ptable = true) (hp : t.ptable = none) (hl : t.lk = s.lk)
    (hn : t.ncli = Function.update s.ncli c (s.ncli c - 1)) (hgp : g.ptable = false)
    (hgl : g.lk = x.lk) : Locks s t c x g := by
  have h2 := h.lk_iff hc
  have h3 := h.ncli_eq hc
  have hn : ∀ c', t.ncli c' = if c' = c then s.ncli c - 1 else s.ncli c' :=
    fun _ => hn ▸ Function.update_apply ..
  constructor <;> grind

theorem Sound.locks_acquireLk (hfree : s.lk = none) (hp : t.ptable = s.ptable) (hl : t.lk = some c)
    (hn : t.ncli = Function.update s.ncli c (s.ncli c + 1)) (hgp : g.ptable = x.ptable)
    (hgl : g.lk = true) : Locks s t c x g := by
  have h1 := h.ptable_iff hc
  have h2 := h.lk_iff hc
  have hn : ∀ c', t.ncli c' = if c' = c then s.ncli c + 1 else s.ncli c' :=
    fun _ => hn ▸ Function.update_apply ..
  constructor <;> grind

theorem Sound.locks_releaseLk (hx : x.lk = true) (hp : t.ptable = s.ptable) (hl : t.lk = none)
    (hn : t.ncli = Function.update s.ncli c (s.ncli c - 1)) (hgp : g.ptable = x.ptable)
    (hgl : g.lk = false) : Locks s t c x g := by
  have h1 := h.ptable_iff hc
  have h3 := h.ncli_eq hc
  have hn : ∀ c', t.ncli c' = if c' = c then s.ncli c - 1 else s.ncli c' :=
    fun _ => hn ▸ Function.update_apply ..
  constructor <;> grind

end Locks

theorem Sound.local_still {s t : Sys C K τ σ} (h : s.Sound) {c : C} {p : Slot} {x g : Pc K τ}
    (hc : s.mode c = .run p) (hx : s.pc p = x) (hpc : t.pc = Function.update s.pc p g)
    (hlocks : Locks s t c x g) (hxl : x.leaving = false) (htab : t.tab = s.tab)
    (hmode : t.mode = s.mode)
    (hpanic : t.panic = s.panic) (hg : g.leaving = false) (hon : ∀ r, g ≠ .off r)
    (hacts : ∀ a, g = .want (.act a) ∨ g = .hold (.act a) → own p a = some true) :
    Local s t c p g := by
  subst hx
  have hr := (h.runs c p hc).mp hxl
  refine ⟨fun _ => hmode ▸ rfl, fun q hq => .inl ?_, ?_, hlocks, hpanic.trans h.panic,
    htab ▸ h.tree,
    htab ▸ .same p rfl, fun q _ hq => .inl (htab ▸ hq), ⟨fun _ => htab ▸ hr, fun _ => hg⟩,
    .inl (htab ▸ Proc.kind_running hr), fun _ heq => ?_, hon, fun q np hq => .inl (htab ▸ hq),
    hacts⟩
  · rw [hpc, Function.update_of_ne hq]
  · rw [hpc, Function.update_self]
  · rw [heq] at hg
    cases hg

/-- A step that takes an action on the table, and may set up the context of a new process. -/
theorem Sound.local_context [DecidableEq K] {s t : Sys C K τ σ} (h : s.Sound) {c : C} {p : Slot}
    {x g : Pc K τ} {a : Table.Act K} (hc : s.mode c = .run p) (hx : s.pc p = x) (hself : t.pc p = g)
    (hpc : ∀ q, q ≠ p → t.pc q = s.pc q ∨ (s.tab.procs q).kind = .embryo ∧ t.pc q = .off .release)
    (hctx : ∀ q np, a = .kalloc q true → s.tab.stage q = .taken np → t.pc np = .off .release)
    (hlocks : Locks s t c x g) (hxl : x.leaving = false) (hstep : s.tab.step a = some t.tab)
    (ha : ActsFor p a) (hmode : t.mode = s.mode) (hpanic : t.panic = s.panic)
    (hpt : x.ptable = true ∨
      ∀ q, (s.tab.procs q).kind = .zombie → (t.tab.procs q).kind = .zombie)
    (hg : g.leaving = false ↔ (t.tab.procs p).state = .running)
    (hnever : g = .sched .never → a = .exit p) (hon : ∀ r, g ≠ .off r)
    (hacts : ∀ a, g = .want (.act a) ∨ g = .hold (.act a) → own p a = some true) :
    Local s t c p g := by
  subst hx
  have hr := (h.runs c p hc).mp hxl
  have hm := Table.step_move hstep
  have heff := selfEffect_of_move h.tree hm ha hr
  refine ⟨fun _ => hmode ▸ rfl, hpc, hself, hlocks, hpanic.trans h.panic, h.tree.change hm.change,
    effect_of_move h.tree hm ha, fun q _ hq => hpt.elim .inr fun hz => .inl (hz q hq), hg,
    heff.kind.imp id And.right, fun hk heq => ?_, hon, fun q np hq => ?_, hacts⟩
  · exact nomatch hk.symm.trans (heff.exit (hnever heq))
  · refine (childOf_of_move hm hq).imp id fun ⟨hka, hst⟩ => ⟨?_, hctx q np hka hst⟩
    exact (h.tree.maker q np (hst ▸ rfl)).2

theorem Sound.local_act [DecidableEq K] {s t : Sys C K τ σ} (h : s.Sound) {c : C} {p : Slot}
    {x g : Pc K τ} {a : Table.Act K} (hc : s.mode c = .run p) (hx : s.pc p = x)
    (hpc : t.pc = Function.update s.pc p g) (hlocks : Locks s t c x g) (hxl : x.leaving = false)
    (hxp : x.ptable = true) (hstep : s.tab.step a = some t.tab) (ha : ActsFor p a)
    (hka : ∀ q, a ≠ .kalloc q true) (hmode : t.mode = s.mode) (hpanic : t.panic = s.panic)
    (hg : g.leaving = false ↔ (t.tab.procs p).state = .running)
    (hnever : g = .sched .never → a = .exit p) (hon : ∀ r, g ≠ .off r)
    (hacts : ∀ a, g = .want (.act a) ∨ g = .hold (.act a) → own p a = some true) :
    Local s t c p g :=
  h.local_context hc hx (by rw [hpc, Function.update_self])
    (fun q hq => .inl (by rw [hpc, Function.update_of_ne hq]))
    (fun q _ hq => absurd hq (hka q)) hlocks
    hxl hstep ha hmode hpanic (.inl hxp) hg hnever hon hacts

theorem actsFor_of_own {p : Slot} {a : Table.Act K} {b : Bool} (h : own p a = some b) :
    ActsFor p a := by
  have hsome : (own p a).isSome := h ▸ rfl
  cases a <;> first | exact hsome | cases hsome

theorem step_sleep [DecidableEq K] {s t : Table K} {p : Slot} {k : K}
    (h : s.step (.sleep p k) = some t) : (t.procs p).state = .sleeping := by
  simp only [Table.step, Option.ite_none_right_eq_some, Option.some.injEq] at h
  obtain ⟨-, rfl⟩ := h
  change (s.procs.set p _ p).state = .sleeping
  rw [Procs.set_apply, if_pos rfl]

theorem newContext_eq (s : Sys C K τ σ) (a : Table.Act K) (np : Slot) :
    s.newContext a = some np ↔ ∃ q, a = .kalloc q true ∧ s.tab.stage q = .taken np := by
  constructor
  · intro h
    unfold newContext at h
    split at h
    case h_1 q =>
      split at h
      case h_1 np' hst => exact ⟨q, rfl, hst.trans (congrArg Stage.taken (Option.some.inj h))⟩
      case h_2 => cases h
    case h_2 => cases h
  · rintro ⟨q, rfl, hst⟩
    rw [newContext, hst]

variable [DecidableEq C]

theorem Sound.swtch {s : Sys C K τ σ} (h : s.Sound) {c : C} {p : Slot} (hc : s.mode c = .run p)
    {r : Back τ} (hpc : s.pc p = .sched r) (hr : (s.tab.procs p).state ≠ .running) :
    ((s.setMode c (.back p)).setPc p (.off r)).Sound := by
  set t := (s.setMode c (.back p)).setPc p (.off r)
  have hmode : ∀ c', t.mode c' = if c' = c then .back p else s.mode c' :=
    fun _ => Function.update_apply ..
  have htpc : ∀ q, t.pc q = if q = p then .off r else s.pc q := fun _ => Function.update_apply ..
  have htab : t.tab = s.tab := rfl
  have hproc : ∀ c', (t.mode c').proc = (s.mode c').proc := fun c' => by
    rw [hmode]
    split
    case isTrue heq => rw [heq, hc, Mode.proc, Mode.proc]
    case isFalse => rfl
  have huniq : ∀ c' q, s.mode c' = .run q → (c' = c ↔ q = p) := fun c' q hq =>
    ⟨fun heq => by rw [heq, hc] at hq; exact (Mode.run.inj hq).symm,
      fun heq => h.unique c' c p (by rw [hq, heq, Mode.proc]) (by rw [hc, Mode.proc])⟩
  have hholds : ∀ c', t.holds c' = s.holds c' ∧ t.holdsLk c' = s.holdsLk c' := by
    intro c'
    rw [holds, holdsLk, holds, holdsLk, hmode]
    by_cases hne : c' = c
    · rw [if_pos hne, hne, hc]
      dsimp only
      rw [hpc]
      exact ⟨rfl, rfl⟩
    · rw [if_neg hne]
      cases hm : s.mode c' with
      | run q =>
        dsimp only
        rw [htpc, if_neg (mt (huniq c' q hm).mpr hne)]
        exact ⟨rfl, rfl⟩
      | _ => exact ⟨rfl, rfl⟩
  refine ⟨h.tree, ?_, ?_, ?_, ?_, ?_, ?_, ?_, ?_, ?_, ?_, ?_, ?_, h.panic⟩
  · simpa only [hproc] using h.unique
  · intro c' q hq
    have := h.runs c' q
    have := huniq c' q
    grind
  · intro q hq
    obtain ⟨c', hc'⟩ := h.on_cpu q hq
    have := huniq c' q hc'
    exact ⟨c', by grind⟩
  · exact fun c' q hq => h.current c' q (hproc c' ▸ hq)
  · intro c' q hq
    have := h.back c' q
    grind
  · intro q hno
    have := h.parked q
    grind
  · intro q hq
    have := h.returns q hq
    grind
  · intro q np hq
    have hk := (h.tree.maker q np (making_of_childOf hq)).2
    have hpk := h.current c p (hc ▸ rfl)
    have := h.context q np hq
    grind
  · intro q a hq
    have := h.acts q a
    grind
  · exact fun c' => (hholds c').1 ▸ h.ptable c'
  · exact fun c' => (hholds c').2 ▸ h.lk c'
  · exact fun c' => (hholds c').1 ▸ (hholds c').2 ▸ h.ncli c'

theorem Sound.sched {s : Sys C K τ σ} (h : s.Sound) {c : C} {p : Slot} (hc : s.mode c = .run p)
    {r : Back τ} (hpc : s.pc p = .sched r) : (s.sched c p r).Sound := by
  have hlock : s.ptable = some c := (h.ptable_iff hc).mpr (hpc ▸ rfl)
  have hncli : s.ncli c = 1 := by rw [h.ncli_eq hc, hpc]; rfl
  have hr : (s.tab.procs p).state ≠ .running := fun hr => by
    have := (h.runs c p hc).mpr hr
    rw [hpc] at this
    cases this
  rw [Sys.sched, if_neg (not_not.mpr hlock), if_neg (not_not.mpr hncli), if_neg hr]
  exact h.swtch hc hpc hr

omit [DecidableEq C] in
theorem holdsLk_scheduler (s : Sys C K τ σ) {c : C} (hc : ∀ p, s.mode c ≠ .run p) :
    s.holdsLk c = false := by
  rw [holdsLk]
  cases hs : s.mode c with
  | run p => exact absurd hs (hc p)
  | _ => rfl

theorem Sound.of_mode {s t : Sys C K τ σ} (h : s.Sound) {c : C} {m : Mode}
    (hc : ∀ p, s.mode c ≠ .run p) (hm : m.proc = none) (hmode : t.mode = Function.update s.mode c m)
    (hpc : t.pc = s.pc) (htab : t.tab = s.tab) (hlk : t.lk = s.lk) (hpanic : t.panic = s.panic)
    (hptable : ∀ c', t.ptable = some c' ↔ if c' = c then m ≠ .idle else s.holds c' = true)
    (hncli : ∀ c', t.ncli c' = if c' = c then if m = .idle then 0 else 1 else s.ncli c') :
    t.Sound := by
  have hmode : ∀ c', t.mode c' = if c' = c then m else s.mode c' :=
    fun c' => hmode ▸ Function.update_apply ..
  have hrun : ∀ c' p, t.mode c' = .run p ↔ s.mode c' = .run p := by grind [Mode.proc]
  have hback : ∀ c' p, t.mode c' = .back p → s.mode c' = .back p := by grind [Mode.proc]
  have hproc : ∀ c' p, (t.mode c').proc = some p → (s.mode c').proc = some p := by grind
  have hholds : ∀ c', t.holds c' = if c' = c then decide (m ≠ .idle) else s.holds c' := by
    intro c'
    rw [holds, holds, hmode, hpc]
    by_cases heq : c' = c
    · rw [if_pos heq, if_pos heq]
      cases m <;> first | rfl | cases hm
    · rw [if_neg heq, if_neg heq]
  have hholdsLk : ∀ c', t.holdsLk c' = s.holdsLk c' := by
    intro c'
    rw [holdsLk, holdsLk, hmode, hpc]
    by_cases heq : c' = c
    · rw [if_pos heq, heq]
      cases hs : s.mode c with
      | run p => exact absurd hs (hc p)
      | _ => cases m <;> first | rfl | cases hm
    · rw [if_neg heq]
  refine ⟨htab ▸ h.tree, ?_, ?_, ?_, ?_, ?_, ?_, ?_, ?_, ?_, ?_, ?_, ?_, hpanic.trans h.panic⟩
  · exact fun c₁ c₂ p h₁ h₂ => h.unique c₁ c₂ p (hproc c₁ p h₁) (hproc c₂ p h₂)
  · intro c' p hp
    rw [hpc, htab]
    exact h.runs c' p ((hrun c' p).mp hp)
  · simpa only [htab, hrun] using h.on_cpu
  · intro c' p hp
    rw [htab]
    exact h.current c' p (hproc c' p hp)
  · intro c' p hp
    rw [hpc]
    exact h.back c' p (hback c' p hp)
  · simpa only [hpc, ne_eq, hrun] using h.parked
  · simpa only [htab, hpc] using h.returns
  · simpa only [htab, hpc] using h.context
  · simpa only [hpc] using h.acts
  · intro c'
    rw [hptable, hholds]
    split
    · exact decide_eq_true_iff.symm
    · rfl
  · intro c'
    rw [hlk, hholdsLk]
    exact h.lk c'
  · intro c'
    have hnone := s.holdsLk_scheduler hc
    have := h.ncli c'
    rw [hncli, hholds, hholdsLk]
    grind

theorem Sound.rescan {s : Sys C K τ σ} (h : s.Sound) {c : C} (hc : ∀ p, s.mode c ≠ .run p)
    (hh : s.holds c = true) (i : ℕ) : (s.setMode c (.scan i)).Sound := by
  have hN := h.ncli
  have hP := h.ptable
  have hL : s.holdsLk c = false := s.holdsLk_scheduler hc
  refine h.of_mode hc rfl rfl rfl rfl rfl rfl (fun c' => ?_) fun c' => ?_
  · change s.ptable = some c' ↔ _
    grind
  · change s.ncli c' = _
    grind

variable [DecidableEq K] {P : Client K τ σ} {under : Bool}

omit [DecidableEq C] [DecidableEq K] in
theorem ne_kalloc_of_own {p : Slot} {a : Table.Act K} (h : own p a = some true) (q : Slot) :
    a ≠ .kalloc q true := by
  rintro rfl
  rw [own] at h
  grind

omit [DecidableEq C] in
theorem Sound.local_free {s : Sys C K τ σ} (h : s.Sound) {c : C} {p : Slot} (hc : s.mode c = .run p)
    {a : Table.Act K} {tab : Table K} (hpc : s.pc p = .free) (ho : own p a = some false)
    (hstep : s.tab.step a = some tab) : Local s (s.free a tab) c p .free := by
  have hr := (h.runs c p hc).mp (hpc ▸ rfl)
  have hm := Table.step_move hstep
  have heff := selfEffect_of_move h.tree hm (actsFor_of_own ho) hr
  have hrun : (tab.procs p).state = .running :=
    heff.running (by rw [ho]; rintro ⟨⟩) (by rintro k rfl; cases ho)
  have hzombie : ∀ q, (s.tab.procs q).kind = .zombie → (tab.procs q).kind = .zombie := fun q hq =>
    (hm.zombie h.tree hq).resolve_right fun ⟨r, ha, _⟩ => by
      rw [ha, own] at ho
      grind
  rw [Sys.free]
  cases hnew : s.newContext a with
  | none =>
    refine h.local_context hc hpc hpc (fun q _ => .inl rfl) (fun q np hka hst => ?_)
      (h.locks_same hc hpc rfl rfl rfl rfl rfl) rfl hstep (actsFor_of_own ho) rfl rfl (.inr hzombie)
      ⟨fun _ => hrun, fun _ => rfl⟩ (by simp) (by simp) (by simp)
    cases hnew.symm.trans ((newContext_eq s a np).mpr ⟨q, hka, hst⟩)
  | some np =>
    have hk : (s.tab.procs np).kind = .embryo := by
      obtain ⟨q, -, hst⟩ := (newContext_eq s a np).mp hnew
      exact (h.tree.maker q np (hst ▸ rfl)).2
    have hne : p ≠ np := by
      rintro rfl
      cases hk.symm.trans (Proc.kind_running hr)
    refine h.local_context hc hpc ((Function.update_of_ne hne ..).trans hpc)
      (fun q _ => ?_) (fun q np' hka hst => ?_) (h.locks_same hc hpc rfl rfl rfl rfl rfl) rfl hstep
      (actsFor_of_own ho) rfl rfl (.inr hzombie) ⟨fun _ => hrun, fun _ => rfl⟩
      (by simp) (by simp) (by simp)
    · by_cases hq : q = np
      · subst hq
        exact .inr ⟨hk, Function.update_self ..⟩
      · exact .inl (Function.update_of_ne hq ..)
    · have := (newContext_eq s a np').mpr ⟨q, hka, hst⟩
      obtain rfl : np = np' := Option.some.inj (hnew.symm.trans this)
      exact Function.update_self ..

theorem Sound.local {s t : Sys C K τ σ} (h : s.Sound) {c : C} {p : Slot} {g : Pc K τ}
    (hc : s.mode c = .run p) (hm : ProcMove P under s c p g t) : Local s t c p g := by
  have hrunning : ∀ {a : Table.Act K} {tab : Table K}, (s.pc p).leaving = false →
      s.tab.step a = some tab → ActsFor p a → own p a ≠ some true → (∀ k, a ≠ .sleep p k) →
      (tab.procs p).state = .running := fun hl hstep ha ho hs =>
    (selfEffect_of_move h.tree (Table.step_move hstep) ha ((h.runs c p hc).mp hl)).running ho hs
  cases hm with
  | free hpc ho hstep => exact h.local_free hc hpc ho hstep
  | enter hpc ho _ =>
    refine h.local_still hc hpc rfl (h.locks_same hc hpc rfl rfl rfl rfl rfl) rfl rfl
      rfl rfl rfl nofun ?_
    rintro a (heq | heq) <;> cases heq
    exact ho
  | call hpc _ _ =>
    exact h.local_still hc hpc rfl (h.locks_same hc hpc rfl rfl rfl rfl rfl) rfl rfl
      rfl rfl rfl nofun (by simp)
  | callUnder hpc _ _ =>
    exact h.local_still hc hpc rfl (h.locks_same hc hpc rfl rfl rfl rfl rfl) rfl rfl
      rfl rfl rfl nofun (by simp)
  | @acquire y hpc hfree =>
    refine h.local_still hc hpc rfl
      (h.locks_acquire hc hpc hfree rfl rfl rfl rfl (Pc.hold_lk y)) rfl rfl rfl rfl rfl nofun ?_
    rintro a (heq | heq) <;> cases heq
    exact h.acts p a (.inl hpc)
  | close hpc hstep hr =>
    have ho := h.acts p _ (.inr hpc)
    exact h.local_act hc hpc rfl (h.locks_release hc hpc rfl rfl rfl rfl rfl rfl) rfl rfl hstep
      (actsFor_of_own ho) (ne_kalloc_of_own ho) rfl rfl ⟨fun _ => hr, fun _ => rfl⟩ nofun nofun
      (by simp)
  | @cede a _ hpc hstep hr =>
    have ho := h.acts p _ (.inr hpc)
    refine h.local_act hc hpc rfl (h.locks_same hc hpc rfl rfl rfl rfl rfl) rfl rfl hstep
      (actsFor_of_own ho) (ne_kalloc_of_own ho) rfl rfl ⟨nofun, fun hr' => absurd hr' hr⟩
      (fun heq => ?_) nofun (by simp)
    cases a with
    | exit q => rw [eq_of_own (ho ▸ rfl : (own p (.exit q : Table.Act K)).isSome)]
    | _ => cases heq
  | wakeup hpc hstep =>
    have hr := hrunning (hpc ▸ rfl) hstep trivial nofun nofun
    exact h.local_act hc hpc rfl (h.locks_release hc hpc rfl rfl rfl rfl rfl rfl) rfl
      rfl hstep trivial nofun rfl rfl ⟨fun _ => hr, fun _ => rfl⟩ nofun nofun (by simp)
  | releaseLk hpc =>
    exact h.local_still hc hpc rfl
      (h.locks_releaseLk hc hpc rfl rfl rfl rfl rfl rfl) rfl rfl rfl rfl rfl nofun (by simp)
  | underCompute hpc _ =>
    exact h.local_still hc hpc rfl (h.locks_same hc hpc rfl rfl rfl rfl rfl) rfl rfl
      rfl rfl rfl nofun (by simp)
  | underWakeup hpc _ hstep =>
    have hr := hrunning (hpc ▸ rfl) hstep trivial nofun nofun
    exact h.local_act hc hpc rfl (h.locks_same hc hpc rfl rfl rfl rfl rfl) rfl
      rfl hstep trivial nofun rfl rfl ⟨fun _ => hr, fun _ => rfl⟩ nofun nofun (by simp)
  | underSleep hpc _ hstep =>
    have hs := step_sleep hstep
    exact h.local_act hc hpc rfl (h.locks_same hc hpc rfl rfl rfl rfl rfl) rfl
      rfl hstep rfl nofun rfl rfl ⟨nofun, fun hr => nomatch hs.symm.trans hr⟩ nofun nofun (by simp)
  | underLeave hpc _ =>
    exact h.local_still hc hpc rfl (h.locks_release hc hpc rfl rfl rfl rfl rfl rfl) rfl
      rfl rfl rfl rfl nofun (by simp)
  | acquireLk hpc hfree =>
    exact h.local_still hc hpc rfl
      (h.locks_acquireLk hc hpc hfree rfl rfl rfl rfl rfl) rfl rfl rfl rfl rfl nofun (by simp)
  | compute hpc _ =>
    exact h.local_still hc hpc rfl (h.locks_same hc hpc rfl rfl rfl rfl rfl) rfl rfl
      rfl rfl rfl nofun (by simp)
  | callWakeup hpc _ =>
    exact h.local_still hc hpc rfl (h.locks_same hc hpc rfl rfl rfl rfl rfl) rfl rfl
      rfl rfl rfl nofun (by simp)
  | callSleep hpc _ =>
    exact h.local_still hc hpc rfl (h.locks_same hc hpc rfl rfl rfl rfl rfl) rfl rfl
      rfl rfl rfl nofun (by simp)
  | leave hpc _ =>
    exact h.local_still hc hpc rfl
      (h.locks_releaseLk hc hpc rfl rfl rfl rfl rfl rfl) rfl rfl rfl rfl rfl nofun (by simp)
  | doze hpc hstep =>
    have hs := step_sleep hstep
    exact h.local_act hc hpc rfl (h.locks_same hc hpc rfl rfl rfl rfl rfl) rfl
      rfl hstep rfl nofun rfl rfl ⟨nofun, fun hr => nomatch hs.symm.trans hr⟩ nofun nofun (by simp)
  | resume hpc =>
    exact h.local_still hc hpc rfl (h.locks_release hc hpc rfl rfl rfl rfl rfl rfl) rfl
      rfl rfl rfl rfl nofun (by simp)
  | resumeWait hpc hstep =>
    have hr := hrunning (hpc ▸ rfl) hstep rfl nofun nofun
    refine h.local_act hc hpc rfl (h.locks_same hc hpc rfl rfl rfl rfl rfl) rfl
      rfl hstep rfl nofun rfl rfl ⟨fun _ => hr, fun _ => rfl⟩ nofun nofun ?_
    rintro a (heq | heq) <;> cases heq
    exact if_pos rfl
  | resumeSpin hpc hstep =>
    have hr := hrunning (hpc ▸ rfl) hstep rfl nofun nofun
    exact h.local_act hc hpc rfl (h.locks_release hc hpc rfl rfl rfl rfl rfl rfl) rfl
      rfl hstep rfl nofun rfl rfl ⟨fun _ => hr, fun _ => rfl⟩ nofun nofun (by simp)
  | resumeUnder hpc hstep =>
    have hr := hrunning (hpc ▸ rfl) hstep rfl nofun nofun
    exact h.local_act hc hpc rfl (h.locks_same hc hpc rfl rfl rfl rfl rfl) rfl
      rfl hstep rfl nofun rfl rfl ⟨fun _ => hr, fun _ => rfl⟩ nofun nofun (by simp)

theorem Sound.dispatch {s : Sys C K τ σ} (h : s.Sound) {c : C} {p : Slot} {tab : Table K}
    (hc : s.mode c = .scan p) (hstep : s.tab.step (.dispatch p) = some tab) :
    ((s.setTab tab).setMode c (.run p)).Sound := by
  have htree := h.tree.change (Table.step_move hstep).change
  simp only [Table.step, Option.ite_none_right_eq_some, Option.some.injEq] at hstep
  obtain ⟨hp, htab⟩ := hstep
  have hpk : (s.tab.procs p).kind = .alive := by rw [Proc.kind, hp]; rfl
  have hlock : s.ptable = some c := by rw [h.ptable, holds, hc]
  have hidle : ∀ c', (s.mode c').proc ≠ some p := by
    intro c' hp'
    have hc' := h.holds_of_ne_running hp' (by rw [hp]; rintro ⟨⟩)
    obtain rfl : c = c' := Option.some.inj (hlock.symm.trans hc')
    rw [hc] at hp'
    cases hp'
  have hno : ∀ c', s.mode c' ≠ .run p := fun c' hc' => hidle c' (hc' ▸ rfl)
  obtain ⟨r, hr⟩ := h.parked p hno
  set t := (s.setTab tab).setMode c (.run p) with ht
  have hmode : ∀ c', t.mode c' = if c' = c then .run p else s.mode c' :=
    fun _ => Function.update_apply ..
  have hpc : t.pc = s.pc := rfl
  have hst : ∀ q, (t.tab.procs q).state = if q = p then .running else (s.tab.procs q).state := by
    intro q
    have := Procs.set_apply s.tab.procs p q { s.tab.procs p with state := .running }
    rw [ht, setMode, setTab, ← htab, Table.setState, Procs.setState]
    grind
  have hk : ∀ q, (t.tab.procs q).kind = (s.tab.procs q).kind := by
    intro q
    rw [Proc.kind, hst]
    split
    case isTrue hq => rw [hq, hpk, ProcState.kind]
    case isFalse => rfl
  have hstage : t.tab.stage = s.tab.stage := by rw [ht, setMode, setTab, ← htab]; rfl
  have hholds : ∀ c', t.holds c' = s.holds c' ∧ t.holdsLk c' = s.holdsLk c' := by
    intro c'
    rw [holds, holdsLk, holds, holdsLk, hmode, hpc]
    by_cases heq : c' = c
    · rw [if_pos heq, heq, hc]
      dsimp only
      rw [hr]
      exact ⟨rfl, rfl⟩
    · rw [if_neg heq]
      exact ⟨rfl, rfl⟩
  refine ⟨htree, ?_, ?_, ?_, ?_, ?_, ?_, ?_, ?_, ?_, ?_, ?_, ?_, h.panic⟩
  · intro c₁ c₂ q h₁ h₂
    have := h.unique c₁ c₂ q
    grind [Mode.proc]
  · intro c' q hq
    have := h.runs c' q
    grind [Pc.leaving]
  · intro q hq
    have := h.on_cpu q
    grind
  · intro c' q hq
    have := h.current c' q
    grind [Mode.proc]
  · intro c' q hq
    have := h.back c' q
    grind
  · intro q hnq
    have := h.parked q
    grind
  · simpa only [hk, hpc] using h.returns
  · simpa only [hstage, hpc] using h.context
  · exact h.acts
  · exact fun c' => (hholds c').1 ▸ h.ptable c'
  · exact fun c' => (hholds c').2 ▸ h.lk c'
  · exact fun c' => (hholds c').1 ▸ (hholds c').2 ▸ h.ncli c'

theorem Sound.move {s t : Sys C K τ σ} (h : s.Sound) {c : C} (hm : Move P under s c t) :
    t.Sound := by
  have hP := h.ptable
  have hN := h.ncli c
  have hincr : ∀ c', (s.acquire c).ncli c' = if c' = c then s.ncli c + 1 else s.ncli c' :=
    fun _ => Function.update_apply ..
  have hdecr : ∀ c', (s.release c).ncli c' = if c' = c then s.ncli c - 1 else s.ncli c' :=
    fun _ => Function.update_apply ..
  cases hm with
  | proc hc hm => exact h.of_local hc (h.local hc hm)
  | swtch hc hpc => exact h.sched hc hpc
  | zombieExit hc hpc =>
    have hr := (h.runs c _ hc).mp (hpc ▸ rfl)
    exact absurd hpc (h.returns _ (Proc.kind_running hr)).1
  | acquire hc hfree =>
    have hcc : s.ncli c = 0 := by rwa [holds, holdsLk, hc] at hN
    refine h.of_mode (by rw [hc]; nofun) rfl rfl rfl rfl rfl rfl (fun c' => ?_) fun c' => ?_
    · change some c = some c' ↔ _
      grind
    · exact (hincr c').trans (by rw [hcc]; rfl)
  | dispatch hc hstep => exact h.dispatch hc hstep
  | skip hc => exact h.rescan (by rw [hc]; nofun) (by rw [holds, hc]) _
  | release hc =>
    have hcc : s.ncli c = 1 := by rwa [holds, holdsLk, hc] at hN
    have hh : s.holds c = true := by rw [holds, hc]
    refine h.of_mode (by rw [hc]; nofun) rfl rfl rfl rfl rfl rfl (fun c' => ?_) fun c' => ?_
    · change none = some c' ↔ _
      grind
    · exact (hdecr c').trans (by rw [hcc]; rfl)
  | back hc => exact h.rescan (by rw [hc]; nofun) (by rw [holds, hc]) _

end Sys

end Xv6.Sched
