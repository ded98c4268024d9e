import Xv6.Spinlock.Nesting

/-! `ptable.lock` passes between a process and the scheduler, and with it the count of the CPU. -/
namespace Xv6

namespace Spinlock

variable {C P L : Type}

section core

variable {ptable : L} {s : Sys C P L} {c : C} {p : P}

theorem Boot.inv (h : Boot s) (ptable : L) : Inv ptable s := by
  have hhere : ∀ c, ∃ b, s.here c = ⟨⟨.place .start, b⟩, [], []⟩ := fun c => by
    rw [here_none (h.proc c)]
    exact h.scheduler c
  refine Core.inv ⟨fun c => ?_, fun c p hc => ?_, fun c _ => ?_, fun c p hc => ?_, fun c => ?_,
    fun p _ => ?_, fun p => ?_, fun c d p hc => ?_, fun lk c => ?_⟩ h.panic
  · obtain ⟨b, hb⟩ := hhere c
    rw [hb]
    exact ⟨h.cpu c, fun hpos => (by simp [h.cpu c] at hpos), List.nodup_nil,
      fun _ _ heq => (by cases heq), by simp⟩
  · cases (h.proc c).symm.trans hc
  · obtain ⟨b, hb⟩ := h.scheduler c
    rw [hb]
    exact fun ks hks => Option.some.inj hks
  · cases (h.proc c).symm.trans hc
  · obtain ⟨b, hb⟩ := h.scheduler c
    rw [hb]
    simp
  · rw [h.thread p]
    exact ⟨rfl, ⟨none, .forkret, rfl, by simp⟩, by simp [newThread]⟩
  · refine iff_of_false (fun hrun => ?_) (by simp [h.proc])
    rcases h.state p with hst | hst <;> cases hrun.symm.trans hst
  · cases (h.proc c).symm.trans hc
  · obtain ⟨b, hb⟩ := hhere c
    rw [h.lock lk, hb]
    simp

variable [DecidableEq C] [DecidableEq P]

theorem Core.handover (h : Core ptable s) (o : Option P) (u : Cpu) (st : P → State) (x y : Thread L)
    (hold : ∀ q, s.proc c = some q → q = p) (hnew : ∀ q, o = some q → q = p)
    (hfree : ∀ d, d ≠ c → s.proc d ≠ some p)
    (hrun : Running u (if o = none then y else x))
    (hheld : ∀ lk, s.lock lk = some c ↔ lk ∈ (if o = none then y else x).held)
    (hrest : o = some p → Restoring u x) (hpark : o = none → Parked x)
    (hidle : o = none → Settled ptable y.held y.top.point)
    (hswtch : o = some p → y.top.point = .place .scan ∧ y.held = [])
    (hbelow : y.below = (s.thread (.inr c)).below)
    (hst : ∀ q, q ≠ p → st q = s.state q) (hstp : st p = .running ↔ o = some p) :
    Core ptable { s with
      cpu := Function.update s.cpu c u
      proc := Function.update s.proc c o
      state := st
      thread := Function.update (Function.update s.thread (.inl p) x) (.inr c) y } := by
  generalize ht : ({ s with
    cpu := Function.update s.cpu c u
    proc := Function.update s.proc c o
    state := st
    thread := Function.update (Function.update s.thread (.inl p) x) (.inr c) y } : Sys C P L) = t
  have hcpu : t.cpu c = u := by rw [← ht]; exact Function.update_self _ _ _
  have hcpu' : ∀ d, d ≠ c → t.cpu d = s.cpu d := fun d hd => by
    rw [← ht]
    exact Function.update_of_ne hd _ _
  have hproc : t.proc c = o := by rw [← ht]; exact Function.update_self _ _ _
  have hproc' : ∀ d, d ≠ c → t.proc d = s.proc d := fun d hd => by
    rw [← ht]
    exact Function.update_of_ne hd _ _
  have hsched : t.thread (.inr c) = y := by rw [← ht]; exact Function.update_self _ _ _
  have hsched' : ∀ d, d ≠ c → t.thread (.inr d) = s.thread (.inr d) := fun d hd => by
    rw [← ht]
    simp [Function.update, hd]
  have hthread : t.thread (.inl p) = x := by rw [← ht]; simp [Function.update]
  have hthread' : ∀ q, q ≠ p → t.thread (.inl q) = s.thread (.inl q) := fun q hq => by
    rw [← ht]
    simp [Function.update, hq]
  have hhere : t.here c = if o = none then y else x := by
    cases ho : o with
    | none => rw [here_none (hproc.trans ho), hsched, if_pos rfl]
    | some q =>
      obtain rfl := hnew q ho
      rw [here_some (hproc.trans ho), hthread, if_neg (by simp)]
  have hhere' : ∀ d, d ≠ c → t.here d = s.here d := fun d hd => by
    cases hq : s.proc d with
    | none => rw [here_none ((hproc' d hd).trans hq), here_none hq, hsched' d hd]
    | some q =>
      have hqp : q ≠ p := fun heq => hfree d hd (heq ▸ hq)
      rw [here_some ((hproc' d hd).trans hq), here_some hq, hthread' q hqp]
  have hstate : t.state = st := by rw [← ht]
  have hlock : t.lock = s.lock := by rw [← ht]
  refine ⟨fun d => ?_, fun d q hd => ?_, fun d hd => ?_, fun d q hd => ?_, fun d => ?_,
    fun q hq => ?_, fun q => ?_, fun d e q hd he => ?_, fun lk d => ?_⟩
  · by_cases hdc : d = c
    · rw [hdc, hcpu, hhere]
      exact hrun
    · rw [hcpu' d hdc, hhere' d hdc]
      exact h.here d
  · by_cases hdc : d = c
    · subst hdc
      rw [hproc] at hd
      obtain rfl := hnew q hd
      rw [hcpu, hthread]
      exact hrest hd
    · rw [hproc' d hdc] at hd
      have hqp : q ≠ p := fun heq => hfree d hdc (heq ▸ hd)
      rw [hcpu' d hdc, hthread' q hqp]
      exact h.restoring d q hd
  · by_cases hdc : d = c
    · subst hdc
      rw [hsched]
      exact hidle (hproc ▸ hd)
    · rw [hsched' d hdc]
      exact h.idle d (hproc' d hdc ▸ hd)
  · by_cases hdc : d = c
    · subst hdc
      rw [hproc] at hd
      obtain rfl := hnew q hd
      rw [hsched]
      exact hswtch hd
    · rw [hsched' d hdc]
      exact h.swtched d q (hproc' d hdc ▸ hd)
  · by_cases hdc : d = c
    · rw [hdc, hsched, hbelow]
      exact h.loop c
    · rw [hsched' d hdc]
      exact h.loop d
  · by_cases hqp : q = p
    · subst hqp
      rw [hthread]
      refine hpark ?_
      cases ho : o with
      | none => rfl
      | some r => exact absurd (hproc.trans (ho.trans (congrArg some (hnew r ho)))) (hq c)
    · rw [hthread' q hqp]
      refine h.parked q fun d hd => ?_
      by_cases hdc : d = c
      · exact hqp (hold q (hdc ▸ hd))
      · exact hq d ((hproc' d hdc).trans hd)
  · rw [hstate]
    by_cases hqp : q = p
    · subst hqp
      rw [hstp]
      refine ⟨fun ho => ⟨c, hproc.trans ho⟩, ?_⟩
      rintro ⟨d, hd⟩
      by_cases hdc : d = c
      · exact hproc.symm.trans (hdc ▸ hd)
      · exact absurd ((hproc' d hdc).symm.trans hd) (hfree d hdc)
    · rw [hst q hqp, h.running q]
      constructor
      · rintro ⟨d, hd⟩
        have hdc : d ≠ c := fun heq => hqp (hold q (heq ▸ hd))
        exact ⟨d, (hproc' d hdc).trans hd⟩
      · rintro ⟨d, hd⟩
        have hdc : d ≠ c := fun heq => hqp (hnew q (hproc.symm.trans (heq ▸ hd)))
        exact ⟨d, (hproc' d hdc).symm.trans hd⟩
  · have hother : ∀ d, d ≠ c → t.proc d = some q → q ≠ p := fun d hdc hd heq =>
      hfree d hdc ((hproc' d hdc).symm.trans (heq ▸ hd))
    by_cases hdc : d = c
    · by_cases hec : e = c
      · rw [hdc, hec]
      · exact absurd (hnew q (hproc.symm.trans (hdc ▸ hd))) (hother e hec he)
    · by_cases hec : e = c
      · exact absurd (hnew q (hproc.symm.trans (hec ▸ he))) (hother d hdc hd)
      · exact h.once d e q ((hproc' d hdc).symm.trans hd) ((hproc' e hec).symm.trans he)
  · rw [hlock]
    by_cases hdc : d = c
    · rw [hdc, hhere]
      exact hheld lk
    · rw [hhere' d hdc]
      exact h.lock lk d

/-- `sched`: the checks leave `ptable.lock` as the only lock, and it goes to the scheduler. -/
theorem Core.sched [DecidableEq L] (h : Core ptable s) (hpanic : s.panic = none)
    (hc : s.proc c = some p) (hpending : (s.here c).top.point.pending = 0) {st : State}
    {n : Place L} : Inv ptable (s.sched ptable c p st n) := by
  simp only [Sys.sched]
  split_ifs with hlock hncli hstate hflag
  · exact .fail (by decide) (by decide)
  · exact .fail (by decide) (by decide)
  · exact .fail (by decide) (by decide)
  · exact .fail (by decide) (by decide)
  rw [not_not] at hlock hncli
  change (s.cpu c).ncli = 1 at hncli
  change ¬(s.cpu c).flag = true at hflag
  have hrun := h.here c
  have hheld := h.held_ptable hpending hlock hncli
  obtain ⟨hscan, hnil⟩ := h.swtched c p hc
  have hrest := h.here_restoring hc
  have hcore := h.handover (c := c) (p := p) none (s.cpu c) (Function.update s.state p st)
    { (s.here c).goto (.off (some (s.cpu c).intena) n) with held := (s.here c).held.erase ptable }
    { s.thread (.inr c) with held := ptable :: (s.thread (.inr c)).held }
    (fun q hq => Option.some.inj (hq.symm.trans hc)) (fun q hq => by cases hq)
    (fun d hd hp => hd (h.once d c p hp hc)) ?_ (fun lk => ?_) (fun ho => by cases ho)
    (fun _ => ⟨?_, ⟨_, _, rfl, ?_⟩, ?_⟩) (fun _ => ?_) (fun ho => by cases ho) rfl
    (fun q hq => Function.update_of_ne hq _ _) ?_
  · rw [Function.update_eq_self, here_some hc] at hcore
    exact hcore.inv hpanic
  · refine ⟨?_, fun _ => by simpa using hflag, ?_, fun _ _ heq => ?_, fun f hf => (h.loop c f hf).1⟩
    · simp [hscan, hnil, hncli, Point.pending]
    · simp [hnil]
    · cases hscan.symm.trans heq
  · rw [h.lock lk c, hheld, if_pos rfl, hnil]
  · simp [hheld]
  · intro b hb
    obtain rfl := Option.some.inj hb
    exact hrest.inside (by omega)
  · exact fun f hf => ⟨hrun.below f hf, hrest.below f hf⟩
  · intro ks hks
    rw [hscan] at hks ⊢
    rw [hnil]
    exact Option.some.inj hks
  · rw [Function.update_self]
    exact iff_of_false (by simpa [Sys.setState] using hstate) (by simp)

theorem Core.dispatch [DecidableEq L] (h : Core ptable s) (hpanic : s.panic = none)
    (hc : s.proc c = none) (hpt : (s.here c).top.point = .place .scan) {t : Sys C P L}
    (ht : s.dispatch ptable c p = some t) : Inv ptable t := by
  have hrun := h.here c
  have hheld : (s.here c).held = [ptable] := by
    have hset := (h.here_settled hc).1
    rw [hpt] at hset
    exact hset [ptable] rfl
  have hncli : (s.cpu c).ncli = 1 := by rw [hrun.count, hheld, hpt]; rfl
  simp only [Sys.dispatch] at ht
  split_ifs at ht with hst
  have hoff : ∀ d, s.proc d ≠ some p := fun d hd => by
    rw [(h.running p).mpr ⟨d, hd⟩] at hst
    cases hst
  obtain ⟨hnil, ⟨o, n, hpoint, hsaved⟩, hbelow⟩ := h.parked p hoff
  rw [hpoint, Cpu.switchuvm_eq hrun.masked hrun.ncli_nonneg] at ht
  obtain rfl := Option.some.inj ht
  have hflag := hrun.masked (by omega)
  rw [here_none hc] at hpt hheld
  refine Core.inv (h.handover (some p) _ _ _ _ (fun q hq => ?_)
    (fun q hq => (Option.some.inj hq).symm)
    (fun d _ => hoff d) ?_ (fun lk => ?_)
    (fun _ => ⟨fun _ => ?_, fun hz => ?_, fun f hf => (hbelow f hf).2⟩)
    (fun ho => by cases ho) (fun ho => by cases ho) (fun _ => ⟨hpt, ?_⟩) rfl
    (fun q hq => Function.update_of_ne hq _ _) ?_) hpanic
  · cases hc.symm.trans hq
  · refine ⟨?_, fun _ => hflag, ?_, fun _ _ heq => ?_, fun f hf => (hbelow f hf).1⟩
    · simp [hnil, hncli, Point.pending]
    · simp [hnil]
    · cases heq
  · rw [h.lock lk c, here_none hc, hheld, if_neg (by simp), hnil]
  · cases o with
    | none => rfl
    | some b => exact hsaved b rfl
  · simp [hncli] at hz
  · simp [hheld]
  · exact iff_of_true (Function.update_self _ _ _) rfl

theorem Core.runCode [DecidableEq L] (h : Core ptable s) (hpanic : s.panic = none)
    (hpt : (s.here c).top.point = .place .code) {a : Choice P L} {t : Sys C P L}
    (ht : s.runCode ptable c a = some t) : Inv ptable t := by
  have hpending : (s.here c).top.point.pending = 0 := by rw [hpt]; rfl
  have hcall : ∀ lk n, n.locks ptable = none →
      Inv ptable (s.acquire c ((s.here c).record (s.cpu c).flag) lk n) := by
    intro lk n hn
    refine h.acquire hpanic hpending (fun p hc => ?_) ?_ ?_ fun _ ks hks => ?_
    · exact (h.here_restoring hc).record (h.here c) hpending
    · rw [Thread.record]
      split_ifs <;> rfl
    · rw [Thread.record]
      split_ifs <;> rfl
    · cases hn.symm.trans hks
  cases a with
  | go => cases ht
  | interrupt => cases ht
  | dispatch p => cases ht
  | acquire lk =>
    obtain rfl := Option.some.inj ht
    exact hcall lk .code rfl
  | release lk =>
    obtain rfl := Option.some.inj ht
    exact h.release hpanic hpending fun _ ks hks => (by cases hks)
  | yield =>
    simp only [Sys.runCode] at ht
    split_ifs at ht
    obtain rfl := Option.some.inj ht
    exact hcall ptable .yield rfl
  | sleep lk =>
    simp only [Sys.runCode] at ht
    split_ifs at ht
    · obtain rfl := Option.some.inj ht
      exact hcall ptable (.sleep lk) rfl
    · obtain rfl := Option.some.inj ht
      exact h.goto hpanic hpending fun _ ks hks => (by cases hks)
  | exit =>
    simp only [Sys.runCode] at ht
    split_ifs at ht
    obtain rfl := Option.some.inj ht
    exact hcall ptable .exit rfl
  | switchuvm =>
    obtain rfl := Option.some.inj ht
    exact h.switchuvm hpanic
  | wakeup p =>
    simp only [Sys.runCode] at ht
    split_ifs at ht with hp
    obtain rfl := Option.some.inj ht
    exact h.setState hpanic (by rw [hp.2]; decide) (by decide)
  | fork p =>
    simp only [Sys.runCode] at ht
    split_ifs at ht with hp
    obtain rfl := Option.some.inj ht
    exact h.setState hpanic (by rw [hp]; decide) (by decide)
  | iret =>
    cases hbelow : (s.here c).below with
    | nil => simp [Sys.runCode, hbelow] at ht
    | cons f below =>
      simp only [Sys.runCode, hbelow] at ht
      split_ifs at ht with hheld
      obtain rfl := Option.some.inj ht
      exact h.iret hpanic hpending hheld hbelow

theorem Core.runScheduler [DecidableEq L] (h : Core ptable s) (hpanic : s.panic = none)
    {n : Place L}
    (hpt : (s.here c).top.point = .place n) {a : Choice P L} {t : Sys C P L}
    (ht : (if s.proc c = none then s.runScheduler ptable c n a else none) = some t) :
    Inv ptable t := by
  have hpending : (s.here c).top.point.pending = 0 := by rw [hpt]; rfl
  have hrun := h.here c
  split_ifs at ht with hc
  have hset : ∀ ks, n.locks ptable = some ks → (s.here c).held = ks := by
    have hset := (h.here_settled hc).1
    rwa [hpt] at hset
  cases n with
  | start =>
    obtain rfl := Option.some.inj ht
    have hheld := hset [] rfl
    have hzero : (s.cpu c).ncli = 0 := by rw [hrun.count, hheld, hpt]; rfl
    refine Core.inv (h.set ⟨?_, fun hpos => ?_, hrun.nodup, fun _ _ heq => (by cases heq),
      hrun.below⟩
      (fun p hp => ?_) (fun _ => ⟨fun ks hks => ?_, (h.here_settled hc).2⟩) rfl) hpanic
    · simp [hzero, hheld, Thread.goto, Point.pending]
    · simp [hzero] at hpos
    · cases hc.symm.trans hp
    · exact hheld.trans (Option.some.inj hks)
  | enabled =>
    obtain rfl := Option.some.inj ht
    refine h.acquire hpanic hpending (fun _ _ => rfl) rfl rfl fun _ ks hks => ?_
    rw [hset [] rfl]
    exact Option.some.inj hks
  | scan =>
    cases a with
    | go =>
      obtain rfl := Option.some.inj ht
      refine h.release hpanic hpending fun _ ks hks => ?_
      rw [hset [ptable] rfl, List.erase_cons_head]
      exact Option.some.inj hks
    | dispatch p => exact h.dispatch hpanic hc hpt ht
    | _ => cases ht
  | _ => cases ht

theorem Core.runPlace [DecidableEq L] (h : Core ptable s) (hpanic : s.panic = none) {n : Place L}
    (hpt : (s.here c).top.point = .place n) {a : Choice P L} {t : Sys C P L}
    (ht : s.runPlace ptable c n a = some t) : Inv ptable t := by
  have hpending : (s.here c).top.point.pending = 0 := by rw [hpt]; rfl
  cases n with
  | code => exact h.runCode hpanic hpt ht
  | yield =>
    obtain ⟨p, hc, rfl⟩ := Option.map_eq_some_iff.mp ht
    exact h.sched hpanic hc hpending
  | sleepSched lk =>
    obtain ⟨p, hc, rfl⟩ := Option.map_eq_some_iff.mp ht
    exact h.sched hpanic hc hpending
  | exit =>
    obtain ⟨p, hc, rfl⟩ := Option.map_eq_some_iff.mp ht
    exact h.sched hpanic hc hpending
  | yieldBack =>
    obtain rfl := Option.some.inj ht
    exact h.release hpanic hpending fun _ ks hks => (by cases hks)
  | sleep lk =>
    obtain rfl := Option.some.inj ht
    exact h.release hpanic hpending fun _ ks hks => (by cases hks)
  | forkret =>
    obtain rfl := Option.some.inj ht
    exact h.release hpanic hpending fun _ ks hks => (by cases hks)
  | sleepBack lk =>
    simp only [Sys.runPlace] at ht
    split_ifs at ht
    · obtain rfl := Option.some.inj ht
      exact h.release hpanic hpending fun _ ks hks => (by cases hks)
    · obtain rfl := Option.some.inj ht
      exact h.goto hpanic hpending fun _ ks hks => (by cases hks)
  | sleepAgain lk =>
    obtain rfl := Option.some.inj ht
    exact h.acquire hpanic hpending (fun _ _ => rfl) rfl rfl fun _ ks hks => (by cases hks)
  | exitBack =>
    obtain rfl := Option.some.inj ht
    exact .fail (by decide) (by decide)
  | start => exact h.runScheduler hpanic hpt ht
  | enabled => exact h.runScheduler hpanic hpt ht
  | scan => exact h.runScheduler hpanic hpt ht

theorem step_inv [DecidableEq L] {a : C × Choice P L} {t : Sys C P L} (h : Inv ptable s)
    (ht : s.step ptable a = some t) : Inv ptable t := by
  rw [Sys.step] at ht
  split_ifs at ht with hpanic
  rw [Option.not_isSome_iff_eq_none] at hpanic
  have hcore := h.core hpanic
  obtain ⟨c, a⟩ := a
  have hrun : s.run ptable c a = some t → Inv ptable t := by
    intro ht
    rw [Sys.run] at ht
    cases hpt : (s.here c).top.point with
    | place n =>
      rw [hpt] at ht
      exact hcore.runPlace hpanic hpt ht
    | acquiring lk n =>
      rw [hpt] at ht
      dsimp only at ht
      split_ifs at ht with hfree
      obtain rfl := Option.some.inj ht
      exact hcore.acquired hpanic hpt hfree
    | releasing n =>
      rw [hpt] at ht
      obtain rfl := Option.some.inj ht
      exact hcore.popcli hpanic hpt
    | off b n => exact absurd hpt ((hcore.here c).here b n)
  cases a with
  | interrupt => exact hcore.interrupt hpanic ht
  | _ => exact hrun ht

/-- In every run of the machine, until it panics: interrupts are disabled on a CPU whose `ncli` is
positive; `ncli` is the number of locks that its thread holds, and one more within `acquire` and
`release`; a process that has released its last lock has the interrupt flag that it had before
its outermost `acquire`. `popcli` never panics. -/
theorem interrupts_nest [DecidableEq L] (ptable : L) (s t : Sys C P L) (hboot : Boot s)
    (ht : Run.Reaches (Sys.step ptable) s t) :
    t.panic ≠ some .popcliInterruptible ∧ t.panic ≠ some .popcli ∧
      (t.panic = none → ∀ c,
        (0 < (t.cpu c).ncli → (t.cpu c).flag = false) ∧
        (t.cpu c).ncli = (t.here c).held.length + (t.here c).top.point.pending ∧
        ∀ p, t.proc c = some p → (t.here c).held = [] → (t.here c).top.point.pending = 0 →
          (t.cpu c).flag = (t.here c).top.before) := by
  have hinv := ht.invariant (fun s a t h hst => step_inv h hst) (hboot.inv ptable)
  refine ⟨hinv.interruptible, hinv.popcli, fun hpanic c => ?_⟩
  have hcore := hinv.core hpanic
  have hrun := hcore.here c
  refine ⟨hrun.masked, hrun.count, fun p hc hheld hpending => ?_⟩
  exact (hcore.here_restoring hc).outside (by rw [hrun.count, hheld, hpending]; rfl)

/-- Until the machine panics: a thread holds a lock exactly while it is on the CPU that the lock
names, so that a lock has one holder and a thread that has been switched out holds none; and an
interrupt never comes to a thread that holds a lock. -/
theorem lock_holder_on_cpu [DecidableEq L] (ptable : L) (s t : Sys C P L) (hboot : Boot s)
    (ht : Run.Reaches (Sys.step ptable) s t) (hpanic : t.panic = none) :
    (∀ lk i, lk ∈ (t.thread i).held ↔ ∃ c, t.lock lk = some c ∧ t.current c = i) ∧
      (∀ lk i j, lk ∈ (t.thread i).held → lk ∈ (t.thread j).held → i = j) ∧
      ∀ c, (t.cpu c).flag = true → (t.here c).held = [] := by
  have hcore := (ht.invariant (fun s a t h hst => step_inv h hst) (hboot.inv ptable)).core hpanic
  have hheld : ∀ lk i, lk ∈ (t.thread i).held ↔ ∃ c, t.lock lk = some c ∧ t.current c = i := by
    refine fun lk i => ⟨fun hlk => ?_, ?_⟩
    · have hon : ∃ c, t.current c = i := by
        by_contra hoff
        push Not at hoff
        cases i with
        | inl p =>
          have hparked := hcore.parked p fun c hc => hoff c (by rw [Sys.current, hc])
          rw [hparked.held] at hlk
          cases hlk
        | inr c =>
          cases hc : t.proc c with
          | none => exact hoff c (by rw [Sys.current, hc])
          | some p =>
            rw [(hcore.swtched c p hc).2] at hlk
            cases hlk
      obtain ⟨c, rfl⟩ := hon
      exact ⟨c, (hcore.lock lk c).mpr hlk, rfl⟩
    · rintro ⟨c, hlock, rfl⟩
      exact (hcore.lock lk c).mp hlock
  refine ⟨hheld, fun lk i j hi hj => ?_, fun c hflag => ((hcore.here c).enabled hflag).2.1⟩
  obtain ⟨c, hc, rfl⟩ := (hheld lk i).mp hi
  obtain ⟨d, hd, rfl⟩ := (hheld lk j).mp hj
  rw [Option.some.inj (hc.symm.trans hd)]

end core

def single : Sys Unit Unit Bool where
  cpu _ := ⟨0, false, false⟩
  proc _ := none
  lock _ := none
  thread := Sum.elim (fun _ => newThread Bool) fun _ => ⟨⟨.place .start, false⟩, [], []⟩
  state _ := .runnable
  panic := none

theorem single_boot : Boot single :=
  ⟨fun _ => rfl, fun _ => rfl, fun _ => rfl, fun _ => rfl, fun _ => ⟨false, rfl⟩,
    fun _ => .inr rfl, rfl⟩

def yieldRun : List (Unit × Choice Unit Bool) :=
  [.go, .go, .go, .dispatch (), .go, .go, .iret, .acquire true, .go, .release true, .go,
    .yield, .go,
    .go, .dispatch (), .go, .go].map fun a => ((), a)

theorem interrupts_nest_yield : ∃ t, Run.exec (Sys.step false) single yieldRun = some t ∧
    t.proc () = some () ∧ (t.here ()).held = [] ∧ (t.here ()).top.before = true ∧
    (t.cpu ()).flag = (t.here ()).top.before := by
  have hrun : ((Run.exec (Sys.step false) single yieldRun).map fun t =>
      (t.panic, t.proc (), (t.here ()).held, (t.here ()).top)) =
        some (none, some (), [], ⟨.place .code, true⟩) := by
    decide +kernel
  obtain ⟨t, ht, hview⟩ := Option.map_eq_some_iff.mp hrun
  simp only [Prod.mk.injEq] at hview
  obtain ⟨hpanic, hproc, hheld, htop⟩ := hview
  have hnest := (interrupts_nest false single t single_boot ⟨_, ht⟩).2.2 hpanic ()
  exact ⟨t, ht, hproc, hheld, by rw [htop], hnest.2.2 () hproc hheld (by rw [htop]; rfl)⟩

/-- The process holds the other lock. -/
theorem lock_holder_on_cpu_yield : ∃ t,
    Run.exec (Sys.step false) single (yieldRun.take 9) = some t ∧
    t.lock true = some () ∧ true ∈ (t.thread (.inl ())).held := by
  have hrun : ((Run.exec (Sys.step false) single (yieldRun.take 9)).map fun t =>
      (t.panic, t.lock true, t.current ())) = some (none, some (), .inl ()) := by
    decide +kernel
  obtain ⟨t, ht, hview⟩ := Option.map_eq_some_iff.mp hrun
  simp only [Prod.mk.injEq] at hview
  exact ⟨t, ht, hview.2.1,
    ((lock_holder_on_cpu false single t single_boot ⟨_, ht⟩ hview.1).1 _ _).mpr
    ⟨(), hview.2⟩⟩

end Spinlock

end Xv6
