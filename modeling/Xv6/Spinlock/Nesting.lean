import Mathlib.Tactic.Push
import Xv6.Spinlock.Machine

/-! The nesting of `pushcli` and `popcli` belongs to the thread on the CPU, wherever it was
switched. -/
namespace Xv6

namespace Spinlock

variable {C P L : Type}

/-- `pushcli` is called before the lock is acquired, and `popcli` after it is released. -/
def Point.pending : Point L → ℕ
  | .place _ => 0
  | .acquiring _ _ => 1
  | .releasing _ => 1
  | .off _ _ => 0

def Point.next : Point L → Place L
  | .place n => n
  | .acquiring _ n => n
  | .releasing n => n
  | .off _ n => n

def Point.then (held : List L) : Point L → List L
  | .acquiring lk _ => lk :: held
  | _ => held

def Place.locks (ptable : L) : Place L → Option (List L)
  | .start => some []
  | .enabled => some []
  | .scan => some [ptable]
  | _ => none

def Settled (ptable : L) (held : List L) (pt : Point L) : Prop :=
  ∀ ks, pt.next.locks ptable = some ks → pt.then held = ks

structure Running (u : Cpu) (x : Thread L) : Prop where
  count : u.ncli = x.held.length + x.top.point.pending
  masked : 0 < u.ncli → u.flag = false
  nodup : x.held.Nodup
  here : ∀ b n, x.top.point ≠ .off b n
  below : ∀ f ∈ x.below, ∃ n, f.point = .place n

/-- The CPU will restore the flag of the thread on it. -/
structure Restoring (u : Cpu) (x : Thread L) : Prop where
  inside : 0 < u.ncli → u.intena = x.top.before
  outside : u.ncli = 0 → u.flag = x.top.before
  below : ∀ f ∈ x.below, f.before = true

/-- A thread in `swtch`. -/
structure Parked (x : Thread L) : Prop where
  held : x.held = []
  off : ∃ o n, x.top.point = .off o n ∧ ∀ b, o = some b → b = x.top.before
  below : ∀ f ∈ x.below, (∃ n, f.point = .place n) ∧ f.before = true

/-- The invariant while nothing has panicked. -/
structure Core (ptable : L) (s : Sys C P L) : Prop where
  here : ∀ c, Running (s.cpu c) (s.here c)
  restoring : ∀ c p, s.proc c = some p → Restoring (s.cpu c) (s.thread (.inl p))
  idle : ∀ c, s.proc c = none → Settled ptable (s.thread (.inr c)).held
    (s.thread (.inr c)).top.point
  swtched : ∀ c p, s.proc c = some p →
    (s.thread (.inr c)).top.point = .place .scan ∧ (s.thread (.inr c)).held = []
  loop : ∀ c, ∀ f ∈ (s.thread (.inr c)).below, (∃ n, f.point = .place n) ∧ Settled ptable [] f.point
  parked : ∀ p, (∀ c, s.proc c ≠ some p) → Parked (s.thread (.inl p))
  running : ∀ p, s.state p = .running ↔ ∃ c, s.proc c = some p
  once : ∀ c d p, s.proc c = some p → s.proc d = some p → c = d
  lock : ∀ lk c, s.lock lk = some c ↔ lk ∈ (s.here c).held

structure Inv (ptable : L) (s : Sys C P L) : Prop where
  interruptible : s.panic ≠ some .popcliInterruptible
  popcli : s.panic ≠ some .popcli
  core : s.panic = none → Core ptable s

section cpu

variable {u : Cpu} {x : Thread L}

theorem Running.ncli_nonneg (h : Running u x) : 0 ≤ u.ncli := by
  rw [h.count]
  omega

/-- Where interrupts are enabled, no lock is held and no call is under way. -/
theorem Running.enabled (h : Running u x) (hflag : u.flag = true) :
    u.ncli = 0 ∧ x.held = [] ∧ ∃ n, x.top.point = .place n := by
  have hle : ¬0 < u.ncli := fun hpos => by simp [h.masked hpos] at hflag
  have hcount := h.count
  have hnil : x.held = [] := List.eq_nil_of_length_eq_zero (by omega)
  refine ⟨by omega, hnil, ?_⟩
  cases hpt : x.top.point with
  | place n => exact ⟨n, rfl⟩
  | acquiring lk n => simp only [hpt, Point.pending] at hcount; omega
  | releasing n => simp only [hpt, Point.pending] at hcount; omega
  | off b n => exact absurd hpt (h.here b n)

theorem Running.popcli (h : Running u x) {n : Place L} (hpt : x.top.point = .releasing n) :
    u.popcli = .ok { u with
      ncli := x.held.length
      flag := if x.held = [] then u.intena else false } := by
  have hcount : u.ncli = x.held.length + 1 := by
    have := h.count
    rwa [hpt] at this
  have hflag : u.flag = false := h.masked (by omega)
  rw [Cpu.popcli, hflag, if_neg (by simp), if_neg (by omega), hcount, Int.add_sub_cancel]
  by_cases hheld : x.held = []
  · cases hint : u.intena <;> simp [hheld]
  · simp [hheld]

theorem Cpu.switchuvm_eq (hmask : 0 < u.ncli → u.flag = false) (hnonneg : 0 ≤ u.ncli) :
    u.switchuvm = .ok { u with intena := if u.ncli = 0 then u.flag else u.intena } := by
  rw [Cpu.switchuvm, Cpu.popcli, Cpu.pushcli, if_neg (by simp), if_neg (by dsimp only; omega)]
  dsimp only
  rw [Int.add_sub_cancel]
  by_cases hzero : u.ncli = 0
  · cases hflag : u.flag <;> simp [hzero]
  · have hflag := hmask (by omega)
    simp [hzero, hflag]

theorem Restoring.congr {x' : Thread L} (h : Restoring u x) (htop : x'.top.before = x.top.before)
    (hbelow : x'.below = x.below) : Restoring u x' :=
  ⟨fun hpos => htop ▸ h.inside hpos, fun hzero => htop ▸ h.outside hzero, hbelow ▸ h.below⟩

theorem Restoring.record (h : Restoring u x) (hrun : Running u x) (hpt : x.top.point.pending = 0) :
    x.record u.flag = x := by
  rw [Thread.record]
  split_ifs with hnil
  · have hzero : u.ncli = 0 := by rw [hrun.count, hnil, hpt]; rfl
    rw [h.outside hzero]
  · rfl

theorem Running.goto {pt : Point L} (h : Running u x)
    (hpending : pt.pending = x.top.point.pending) (hoff : ∀ b n, pt ≠ .off b n) :
    Running u (x.goto pt) :=
  ⟨by rw [h.count, ← hpending]; rfl, h.masked, h.nodup, hoff, h.below⟩

theorem Restoring.goto {pt : Point L} (h : Restoring u x) : Restoring u (x.goto pt) :=
  h.congr rfl rfl

end cpu

section core

variable {ptable : L} {s : Sys C P L} {c d : C} {p : P}

theorem current_some (h : s.proc c = some p) : s.current c = .inl p := by
  simp [Sys.current, h]

theorem current_none (h : s.proc c = none) : s.current c = .inr c := by
  simp [Sys.current, h]

theorem here_some (h : s.proc c = some p) : s.here c = s.thread (.inl p) := by
  rw [Sys.here, current_some h]

theorem here_none (h : s.proc c = none) : s.here c = s.thread (.inr c) := by
  rw [Sys.here, current_none h]

theorem Core.current_inj (h : Core ptable s) (heq : s.current c = s.current d) : c = d := by
  cases hc : s.proc c with
  | none =>
    cases hd : s.proc d with
    | none => simpa [current_none hc, current_none hd] using heq
    | some q => simp [current_none hc, current_some hd] at heq
  | some p =>
    cases hd : s.proc d with
    | none => simp [current_some hc, current_none hd] at heq
    | some q =>
      have hpq : p = q := by simpa [current_some hc, current_some hd] using heq
      exact h.once c d p hc (hpq ▸ hd)

theorem Core.here_restoring (h : Core ptable s) (hc : s.proc c = some p) :
    Restoring (s.cpu c) (s.here c) := by
  rw [here_some hc]
  exact h.restoring c p hc

theorem Core.here_settled (h : Core ptable s) (hc : s.proc c = none) :
    Settled ptable (s.here c).held (s.here c).top.point ∧
      ∀ f ∈ (s.here c).below, Settled ptable [] f.point := by
  rw [here_none hc]
  exact ⟨h.idle c hc, fun f hf => (h.loop c f hf).2⟩

theorem Inv.fail {e : Panic} (hint : e ≠ .popcliInterruptible) (hpop : e ≠ .popcli) :
    Inv ptable (s.fail e) := by
  refine ⟨?_, ?_, ?_⟩
  · simpa [Sys.fail] using hint
  · simpa [Sys.fail] using hpop
  · simp [Sys.fail]

theorem Core.inv (h : Core ptable s) (hpanic : s.panic = none) : Inv ptable s :=
  ⟨by simp [hpanic], by simp [hpanic], fun _ => h⟩

theorem Core.held_ptable (h : Core ptable s) (hpending : (s.here c).top.point.pending = 0)
    (hlock : s.lock ptable = some c) (hncli : (s.cpu c).ncli = 1) : (s.here c).held = [ptable] := by
  have hcount := (h.here c).count
  obtain ⟨lk, hlk⟩ := List.length_eq_one_iff.mp (by omega : (s.here c).held.length = 1)
  have hmem := (h.lock ptable c).mp hlock
  rw [hlk, List.mem_singleton] at hmem
  rw [hlk, hmem]

/-- `wakeup1` and `fork` change the state of a process that is on no CPU. -/
theorem Core.setState [DecidableEq P] (h : Core ptable s) (hpanic : s.panic = none) {st : State}
    (hold : s.state p ≠ .running) (hnew : st ≠ .running) : Inv ptable (s.setState p st) := by
  refine Core.inv ⟨h.here, h.restoring, h.idle, h.swtched, h.loop, h.parked, fun q => ?_, h.once,
    h.lock⟩ hpanic
  by_cases hq : q = p
  · subst hq
    simp only [Sys.setState, Function.update_self, hnew, false_iff]
    exact fun hcur => hold ((h.running q).mpr hcur)
  · simp only [Sys.setState, Function.update_of_ne hq]
    exact h.running q

variable [DecidableEq C] [DecidableEq P]

/-- The thread on one CPU moves, and with it one lock at most. -/
theorem Core.move (h : Core ptable s) {u : Cpu} {x : Thread L} {lock : L → Option C}
    (hrun : Running u x) (hproc : ∀ p, s.proc c = some p → Restoring u x)
    (hidle : s.proc c = none → Settled ptable x.held x.top.point ∧
      ∀ f ∈ x.below, Settled ptable [] f.point)
    (hown : ∀ lk, lock lk = some c ↔ lk ∈ x.held)
    (hother : ∀ lk d, d ≠ c → (lock lk = some d ↔ s.lock lk = some d)) :
    Core ptable { s.set c u x with lock := lock } := by
  have hself : (s.set c u x).here c = x := Function.update_self _ _ _
  have hhere : ∀ d, d ≠ c → (s.set c u x).here d = s.here d := fun d hd =>
    Function.update_of_ne (fun heq => hd (h.current_inj heq)) _ _
  have hcpu : ∀ d, d ≠ c → (s.set c u x).cpu d = s.cpu d := fun d hd =>
    Function.update_of_ne hd _ _
  have hcpu' : (s.set c u x).cpu c = u := Function.update_self _ _ _
  have hsched : ∀ d, s.proc c = none ∧ d = c ∧ (s.set c u x).thread (.inr d) = x ∨
      (s.proc c = none → d ≠ c) ∧ (s.set c u x).thread (.inr d) = s.thread (.inr d) := by
    intro d
    by_cases hd : s.current c = .inr d
    · cases hc : s.proc c with
      | none =>
        obtain rfl : c = d := by simpa [current_none hc] using hd
        exact .inl ⟨rfl, rfl, by rw [← here_none (s := s.set c u x) hc, hself]⟩
      | some p => simp [current_some hc] at hd
    · refine .inr ⟨fun hc hdc => hd (by rw [current_none hc, hdc]), ?_⟩
      exact Function.update_of_ne (Ne.symm hd) _ _
  refine ⟨fun d => ?_, fun d p hd => ?_, fun d hd => ?_, fun d p hd => ?_, fun d f hf => ?_,
    fun p hp => ?_, h.running, h.once, fun lk d => ?_⟩
  · by_cases hdc : d = c
    · subst hdc
      change Running ((s.set d u x).cpu d) ((s.set d u x).here d)
      rw [hself, hcpu']
      exact hrun
    · change Running ((s.set c u x).cpu d) ((s.set c u x).here d)
      rw [hhere d hdc, hcpu d hdc]
      exact h.here d
  · change s.proc d = some p at hd
    change Restoring ((s.set c u x).cpu d) ((s.set c u x).thread (.inl p))
    rw [← here_some (s := s.set c u x) hd]
    by_cases hdc : d = c
    · subst hdc
      rw [hself, hcpu']
      exact hproc p hd
    · rw [hhere d hdc, hcpu d hdc, here_some hd]
      exact h.restoring d p hd
  · change s.proc d = none at hd
    change Settled ptable ((s.set c u x).thread (.inr d)).held
      ((s.set c u x).thread (.inr d)).top.point
    rcases hsched d with ⟨hc, rfl, heq⟩ | ⟨-, heq⟩
    · rw [heq]
      exact (hidle hc).1
    · rw [heq]
      exact h.idle d hd
  · change s.proc d = some p at hd
    change ((s.set c u x).thread (.inr d)).top.point = _ ∧ ((s.set c u x).thread (.inr d)).held = _
    rcases hsched d with ⟨hc, rfl, -⟩ | ⟨-, heq⟩
    · cases hc.symm.trans hd
    · rw [heq]
      exact h.swtched d p hd
  · change f ∈ ((s.set c u x).thread (.inr d)).below at hf
    rcases hsched d with ⟨hc, rfl, heq⟩ | ⟨-, heq⟩
    · rw [heq] at hf
      exact ⟨hrun.below f hf, (hidle hc).2 f hf⟩
    · rw [heq] at hf
      exact h.loop d f hf
  · have hne : s.current c ≠ .inl p := by
      intro heq
      cases hc : s.proc c with
      | none => simp [current_none hc] at heq
      | some q =>
        have hqp : q = p := by simpa [current_some hc] using heq
        exact hp c (hqp ▸ hc)
    have hthread : (s.set c u x).thread (.inl p) = s.thread (.inl p) :=
      Function.update_of_ne (Ne.symm hne) _ _
    change Parked ((s.set c u x).thread (.inl p))
    rw [hthread]
    exact h.parked p hp
  · change lock lk = some d ↔ lk ∈ ((s.set c u x).here d).held
    by_cases hdc : d = c
    · subst hdc
      rw [hself]
      exact hown lk
    · rw [hhere d hdc, hother lk d hdc]
      exact h.lock lk d

theorem Core.set (h : Core ptable s) {u : Cpu} {x : Thread L} (hrun : Running u x)
    (hproc : ∀ p, s.proc c = some p → Restoring u x)
    (hidle : s.proc c = none → Settled ptable x.held x.top.point ∧
      ∀ f ∈ x.below, Settled ptable [] f.point)
    (hheld : x.held = (s.here c).held) : Core ptable (s.set c u x) :=
  h.move hrun hproc hidle (fun lk => hheld ▸ h.lock lk c) fun _ _ _ => Iff.rfl

theorem Core.acquire [DecidableEq L] (h : Core ptable s) (hpanic : s.panic = none) {x : Thread L}
    {lk : L} {n : Place L} (hpending : (s.here c).top.point.pending = 0)
    (hproc : ∀ p, s.proc c = some p → x = s.here c) (hheld : x.held = (s.here c).held)
    (hbelow : x.below = (s.here c).below)
    (hidle : s.proc c = none → ∀ ks, n.locks ptable = some ks → lk :: (s.here c).held = ks) :
    Inv ptable (s.acquire c x lk n) := by
  have hrun := h.here c
  have hcount := hrun.count
  rw [hpending] at hcount
  have hcore : Core ptable (s.set c (s.cpu c).pushcli (x.goto (.acquiring lk n))) := by
    refine h.set ⟨?_, fun _ => rfl, ?_, fun _ _ heq => (by cases heq), ?_⟩ (fun p hc => ?_)
      (fun hc => ⟨?_, ?_⟩) hheld
    · simp only [Cpu.pushcli, Thread.goto, Point.pending, hheld, hcount]
      omega
    · exact hheld ▸ hrun.nodup
    · exact hbelow ▸ hrun.below
    · have hrest := h.here_restoring hc
      rw [hproc p hc]
      refine ⟨fun _ => ?_, fun hzero => ?_, hrest.below⟩
      · simp only [Cpu.pushcli, Thread.goto]
        split_ifs with hz
        · exact hrest.outside hz
        · exact hrest.inside (by omega)
      · simp only [Cpu.pushcli] at hzero
        omega
    · intro ks hks
      simp only [Thread.goto, Point.then, hheld]
      exact hidle hc ks hks
    · exact hbelow ▸ (h.here_settled hc).2
  rw [Sys.acquire]
  split_ifs
  · exact .fail (by decide) (by decide)
  · exact hcore.inv hpanic

theorem Core.release [DecidableEq L] (h : Core ptable s) (hpanic : s.panic = none) {lk : L}
    {n : Place L} (hpending : (s.here c).top.point.pending = 0)
    (hidle : s.proc c = none → ∀ ks, n.locks ptable = some ks → (s.here c).held.erase lk = ks) :
    Inv ptable (s.release c lk n) := by
  rw [Sys.release]
  split_ifs with hlock
  · exact .fail (by decide) (by decide)
  · rw [not_not] at hlock
    have hrun := h.here c
    have hmem := (h.lock lk c).mp hlock
    refine Core.inv (h.move ⟨?_, hrun.masked, hrun.nodup.erase lk, fun _ _ heq => (by cases heq),
      hrun.below⟩ (fun p hc => (h.here_restoring hc).congr rfl rfl)
      (fun hc => ⟨hidle hc, (h.here_settled hc).2⟩) (fun l => ?_) fun l d hd => ?_) hpanic
    · have hlen := List.length_erase_of_mem hmem
      have hpos := List.length_pos_of_mem hmem
      have hcount := hrun.count
      simp only [Thread.goto, Point.pending]
      omega
    · by_cases hl : l = lk
      · subst hl
        simp [hrun.nodup.not_mem_erase, Sys.set]
      · simp only [Sys.set]
        rw [Function.update_of_ne hl, List.mem_erase_of_ne hl]
        exact h.lock l c
    · by_cases hl : l = lk
      · subst hl
        simp [hlock, Ne.symm hd]
      · simp [Function.update_of_ne hl, Sys.set]

theorem Core.popcli (h : Core ptable s) (hpanic : s.panic = none) {n : Place L}
    (hpt : (s.here c).top.point = .releasing n) : Inv ptable (s.popcli c n) := by
  have hrun := h.here c
  have hcount := hrun.count
  rw [hpt] at hcount
  simp only [Point.pending] at hcount
  rw [Sys.popcli, hrun.popcli hpt]
  refine Core.inv (h.set ⟨?_, fun hpos => ?_, hrun.nodup, fun _ _ heq => (by cases heq), hrun.below⟩
    (fun p hc => ?_) (fun hc => ⟨?_, (h.here_settled hc).2⟩) rfl) hpanic
  · simp [Thread.goto, Point.pending]
  · dsimp only at hpos ⊢
    rw [if_neg]
    intro hnil
    simp [hnil] at hpos
  · have hrest := h.here_restoring hc
    have hintena := hrest.inside (by omega)
    refine ⟨fun _ => hintena, fun hzero => ?_, hrest.below⟩
    dsimp only at hzero ⊢
    rw [if_pos (List.eq_nil_of_length_eq_zero (by omega)), hintena]
    rfl
  · have hset := (h.here_settled hc).1
    rw [hpt] at hset
    exact hset

theorem Core.acquired [DecidableEq L] (h : Core ptable s) (hpanic : s.panic = none) {lk : L}
    {n : Place L} (hpt : (s.here c).top.point = .acquiring lk n) (hfree : s.lock lk = none) :
    Inv ptable ((s.set c (s.cpu c)
      { (s.here c).goto (.place n) with held := lk :: (s.here c).held }).setLock lk (some c)) := by
  have hrun := h.here c
  have hcount := hrun.count
  rw [hpt] at hcount
  have hnot : lk ∉ (s.here c).held := fun hmem => by
    rw [← h.lock, hfree] at hmem
    cases hmem
  refine Core.inv (h.move ⟨?_, hrun.masked, hrun.nodup.cons hnot, fun _ _ heq => (by cases heq),
    hrun.below⟩ (fun p hc => (h.here_restoring hc).congr rfl rfl)
    (fun hc => ⟨?_, (h.here_settled hc).2⟩) (fun l => ?_) fun l d hd => ?_) hpanic
  · simpa [Thread.goto, Point.pending] using hcount
  · have hset := (h.here_settled hc).1
    rw [hpt] at hset
    exact hset
  · by_cases hl : l = lk
    · subst hl
      simp
    · simp only [Sys.set]
      rw [Function.update_of_ne hl, List.mem_cons, or_iff_right hl]
      exact h.lock l c
  · by_cases hl : l = lk
    · subst hl
      simp [hfree, Ne.symm hd]
    · simp [Function.update_of_ne hl, Sys.set]

theorem Core.interrupt (h : Core ptable s) (hpanic : s.panic = none) {t : Sys C P L}
    (ht : s.interrupt c = some t) : Inv ptable t := by
  rw [Sys.interrupt] at ht
  split_ifs at ht with hflag
  obtain rfl := Option.some.inj ht
  have hrun := h.here c
  obtain ⟨hzero, hheld, n, hpt⟩ := hrun.enabled hflag
  refine Core.inv (h.set ⟨?_, fun _ => rfl, hrun.nodup, fun _ _ heq => (by cases heq), ?_⟩
    (fun p hc => ?_) (fun hc => ⟨fun ks hks => (by cases hks), ?_⟩) rfl) hpanic
  · simp [hzero, hheld, Point.pending]
  · exact List.forall_mem_cons.mpr ⟨⟨n, hpt⟩, hrun.below⟩
  · have hrest := h.here_restoring hc
    refine ⟨fun hpos => (by simp [hzero] at hpos), fun _ => rfl, ?_⟩
    exact List.forall_mem_cons.mpr ⟨by rw [← hrest.outside hzero, hflag], hrest.below⟩
  · obtain ⟨htop, hbelow⟩ := h.here_settled hc
    exact List.forall_mem_cons.mpr ⟨hheld ▸ htop, hbelow⟩

theorem Core.iret (h : Core ptable s) (hpanic : s.panic = none) {f : Frame L}
    {below : List (Frame L)}
    (hpending : (s.here c).top.point.pending = 0) (hheld : (s.here c).held = [])
    (hbelow : (s.here c).below = f :: below) :
    Inv ptable (s.set c { s.cpu c with flag := true } ⟨f, below, []⟩) := by
  have hrun := h.here c
  have hzero : (s.cpu c).ncli = 0 := by rw [hrun.count, hheld, hpending]; rfl
  obtain ⟨⟨n, hpt⟩, hplaces⟩ := List.forall_mem_cons.mp (hbelow ▸ hrun.below)
  refine Core.inv (h.set ⟨?_, fun hpos => ?_, List.nodup_nil, fun b m heq => ?_, hplaces⟩
    (fun p hc => ?_) (fun hc => ?_) hheld.symm) hpanic
  · simp [hzero, hpt, Point.pending]
  · simp [hzero] at hpos
  · cases hpt.symm.trans heq
  · obtain ⟨hbefore, hrest⟩ := List.forall_mem_cons.mp (hbelow ▸ (h.here_restoring hc).below)
    exact ⟨fun hpos => (by simp [hzero] at hpos), fun _ => hbefore.symm, hrest⟩
  · exact List.forall_mem_cons.mp (hbelow ▸ (h.here_settled hc).2)

theorem Core.goto (h : Core ptable s) (hpanic : s.panic = none) {n : Place L}
    (hpending : (s.here c).top.point.pending = 0)
    (hidle : s.proc c = none → ∀ ks, n.locks ptable = some ks → (s.here c).held = ks) :
    Inv ptable (s.goto c (.place n)) := by
  refine Core.inv (h.set ((h.here c).goto hpending.symm fun _ _ heq => (by cases heq))
    (fun p hc => (h.here_restoring hc).goto) (fun hc => ⟨hidle hc, (h.here_settled hc).2⟩) rfl)
      hpanic

theorem Core.switchuvm (h : Core ptable s) (hpanic : s.panic = none) :
    Inv ptable (s.switchuvm c) := by
  have hrun := h.here c
  rw [Sys.switchuvm, Cpu.switchuvm_eq hrun.masked hrun.ncli_nonneg]
  refine Core.inv (h.set ⟨hrun.count, hrun.masked, hrun.nodup, hrun.here, hrun.below⟩
    (fun p hc => ?_) h.here_settled rfl) hpanic
  have hrest := h.here_restoring hc
  refine ⟨fun hpos => ?_, hrest.outside, hrest.below⟩
  dsimp only at hpos ⊢
  rw [if_neg (by omega)]
  exact hrest.inside hpos

end core

end Spinlock

end Xv6
