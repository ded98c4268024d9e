import Xv6.Ptable.Reaped

/-! The `killed` flag of a new process. -/
namespace Xv6.Ptable

variable {K : Type}

namespace Procs

theorem killed_set (procs : Procs K) (p q : Slot) (x : Proc K) :
    (procs.set p x q).killed = if q = p then x.killed else (procs q).killed := by
  rw [set_apply, apply_ite Proc.killed]

theorem findPid_some {procs : Procs K} {pid : ℤ} {q : Slot} (h : procs.findPid pid = some q) :
    (procs q).pid = pid := by
  simpa using List.find?_some h

variable [DecidableEq K]

theorem wakeup1_killed (procs : Procs K) (chan : Chan K) (q : Slot) :
    (procs.wakeup1 chan q).killed = (procs q).killed := by
  rw [wakeup1, apply_ite Proc.killed, ite_self]

theorem wakeupParent_killed (procs : Procs K) (p q : Slot) :
    (procs.wakeupParent p q).killed = (procs q).killed := by
  rw [wakeupParent]
  cases (procs p).parent with
  | none => rfl
  | some r => exact wakeup1_killed ..

theorem abandon_killed (initproc p : Slot) (qs : List Slot) (procs : Procs K) (q : Slot) :
    (abandon initproc p qs procs q).killed = (procs q).killed := by
  induction qs generalizing procs with
  | nil => rfl
  | cons r qs ih =>
    have hset : (procs.set r { procs r with parent := some initproc } q).killed =
        (procs q).killed := by
      rw [killed_set]
      exact ite_eq_right_iff.mpr fun hq => hq ▸ rfl
    rw [abandon]
    split
    · rw [ih]
      split
      · rw [wakeup1_killed, hset]
      · exact hset
    · exact ih procs

theorem exit_killed (procs : Procs K) (initproc p q : Slot) :
    (procs.exit initproc p q).killed = (procs q).killed := by
  rw [exit, setState, killed_set, abandon_killed, abandon_killed, wakeupParent_killed,
    wakeupParent_killed]
  exact ite_eq_right_iff.mpr fun hq => hq ▸ rfl

end Procs

namespace Table

/-- `q` got its pid `pid` at the end of `log`, and no other since. -/
def AssignedAt (q : Slot) (pid : ℤ) (log mid : List Event) : Prop :=
  (∃ old, log = mid ++ .assigned q pid :: old) ∧ ∀ pid', .assigned q pid' ∉ mid

/-- The kernel was asked to kill `pid` since `q` got it. -/
def KilledSince (q : Slot) (pid : ℤ) (log : List Event) : Prop :=
  ∃ mid, AssignedAt q pid log mid ∧ ∃ ok live, .killed pid ok live ∈ mid

/-- A child starts with `killed` set only if it was killed. -/
def StartsUnkilled (log : List Event) : Prop :=
  ∀ newer q a b older, log = newer ++ .forked q a b true :: older → KilledSince q b older

/-- `kill` returned 0 only when there was such a process. -/
def KillsLive (log : List Event) : Prop := ∀ pid live, .killed pid true live ∈ log → live = true

/-- `kill` finds no `UNUSED` slot, and no failing fork gives up a slot that was killed. -/
def Careful (s : Table K) : Act K → Prop
  | .kill _ pid => ∀ q, s.procs.findPid pid = some q → (s.procs q).state ≠ .unused
  | .kalloc p false => ∀ np, s.stage p = .taken np → (s.procs np).killed = false
  | .copyuvm p false => ∀ np, s.stage p = .stacked np → (s.procs np).killed = false
  | _ => True

instance (s : Table K) : (a : Act K) → Decidable (s.Careful a)
  | .kill _ pid => inferInstanceAs (Decidable (∀ q, s.procs.findPid pid = some q → _))
  | .kalloc p false => inferInstanceAs (Decidable (∀ np, s.stage p = .taken np → _))
  | .copyuvm p false => inferInstanceAs (Decidable (∀ np, s.stage p = .stacked np → _))
  | .kalloc _ true | .copyuvm _ true | .dispatch _ | .yield _ | .sleep _ _ | .tidy _ | .wakeup _
  | .ofile _ _ _ | .allocproc _ | .filedup _ | .run _ | .fileclose _ | .exit _ | .wait _ =>
    isTrue trivial

theorem AssignedAt.cons {q : Slot} {pid : ℤ} {log mid : List Event} (h : AssignedAt q pid log mid)
    {e : Event} (he : ∀ pid', e ≠ .assigned q pid') : AssignedAt q pid (e :: log) (e :: mid) := by
  obtain ⟨⟨old, rfl⟩, hmid⟩ := h
  refine ⟨⟨old, rfl⟩, fun pid' hin => ?_⟩
  rcases List.mem_cons.mp hin with hin | hin
  · exact he pid' hin.symm
  · exact hmid pid' hin

theorem KilledSince.cons {q : Slot} {pid : ℤ} {log : List Event} (h : KilledSince q pid log)
    {e : Event} (he : ∀ pid', e ≠ .assigned q pid') : KilledSince q pid (e :: log) := by
  obtain ⟨mid, hmid, ok, live, hin⟩ := h
  exact ⟨e :: mid, hmid.cons he, ok, live, List.mem_cons_of_mem _ hin⟩

theorem StartsUnkilled.cons {log : List Event} (h : StartsUnkilled log) {e : Event}
    (he : ∀ q a b, e = .forked q a b true → KilledSince q b log) : StartsUnkilled (e :: log) := by
  intro newer q a b older heq
  cases newer with
  | nil =>
    rw [List.nil_append, List.cons.injEq] at heq
    exact heq.2 ▸ he q a b heq.1
  | cons e' newer =>
    rw [List.cons_append, List.cons.injEq] at heq
    exact h newer q a b older heq.2

structure Fate (s : Table K) : Prop where
  clean : ∀ q, (s.procs q).kind = .unused → (s.procs q).killed = false
  assigned : ∀ q, (s.procs q).kind = .embryo → ∃ mid, AssignedAt q (s.pid q) s.log mid
  embryo : ∀ q, (s.procs q).kind = .embryo → (s.procs q).killed = true →
    KilledSince q (s.pid q) s.log
  starts : StartsUnkilled s.log
  kills : KillsLive s.log

def Plain (s : Table K) : Event → Prop
  | .assigned _ _ => False
  | .forked q _ b killed => killed = true → KilledSince q b s.log
  | .killed _ ok live => ok = true → live = true
  | _ => True

theorem Fate.frame {s t : Table K} (h : s.Fate)
    (hlog : t.log = s.log ∨ ∃ e, t.log = e :: s.log ∧ Plain s e)
    (hu : ∀ q, (t.procs q).kind = .unused → (t.procs q).killed = false)
    (he : ∀ q, (t.procs q).kind = .embryo → (s.procs q).kind = .embryo ∧ t.pid q = s.pid q ∧
      ((t.procs q).killed = true → (s.procs q).killed = true ∨ KilledSince q (s.pid q) t.log)) :
    t.Fate := by
  rcases hlog with hlog | ⟨e, hlog, hplain⟩
  · refine ⟨hu, fun q hq => ?_, fun q hq hk => ?_, hlog ▸ h.starts, hlog ▸ h.kills⟩
    · rw [(he q hq).2.1, hlog]
      exact h.assigned q (he q hq).1
    · rw [(he q hq).2.1]
      exact ((he q hq).2.2 hk).elim (fun hk => hlog ▸ h.embryo q (he q hq).1 hk) id
  · have hne : ∀ q pid, e ≠ .assigned q pid := by
      rintro q pid rfl
      exact hplain
    refine ⟨hu, fun q hq => ?_, fun q hq hk => ?_, hlog ▸ h.starts.cons ?_, hlog ▸ ?_⟩
    · rw [(he q hq).2.1, hlog]
      obtain ⟨mid, hmid⟩ := h.assigned q (he q hq).1
      exact ⟨_, hmid.cons (hne q)⟩
    · rw [(he q hq).2.1]
      exact ((he q hq).2.2 hk).elim (fun hk => hlog ▸ (h.embryo q (he q hq).1 hk).cons (hne q)) id
    · rintro q a b rfl
      exact hplain rfl
    · intro pid live hin
      rcases List.mem_cons.mp hin with rfl | hin
      · exact hplain rfl
      · exact h.kills pid live hin

theorem Fate.set {s t : Table K} (h : s.Fate) {r : Slot} {x : Proc K}
    (ht : t.procs = s.procs.set r x) (hlog : t.log = s.log ∨ ∃ e, t.log = e :: s.log ∧ Plain s e)
    (hu : x.kind = .unused → x.killed = false)
    (he : x.kind = .embryo → (s.procs r).kind = .embryo ∧ x.pid = s.pid r ∧
      x.killed = (s.procs r).killed) : t.Fate := by
  have hk : ∀ q, (t.procs q).kind = if q = r then x.kind else (s.procs q).kind :=
    fun q => ht ▸ Procs.kind_set ..
  have hd : ∀ q, (t.procs q).killed = if q = r then x.killed else (s.procs q).killed :=
    fun q => ht ▸ Procs.killed_set ..
  have hpid : ∀ q, t.pid q = if q = r then x.pid else s.pid q := fun q => by
    rw [pid, ht, Procs.pid_set, pid]
  have hclean := h.clean
  exact h.frame hlog (by grind) (by grind)

theorem Fate.take {s : Table K} (h : s.Fate) {p np : Slot} (hnp : s.unusedSlot = some np) :
    (s.take p np).Fate := by
  have hk := take_kind s p np
  have hd : ∀ q, ((s.take p np).procs q).killed =
      if q = np then (s.procs np).killed else (s.procs q).killed := fun q => Procs.killed_set ..
  have hpid := take_pid s p np
  have hlog : (s.take p np).log = .assigned np (int32 s.nextpid) :: s.log := rfl
  have hne : ∀ q, q ≠ np → ∀ pid, Event.assigned np (int32 s.nextpid) ≠ .assigned q pid := by
    rintro q hq pid ⟨⟩
    exact hq rfl
  have hnew := h.clean np (unusedSlot_kind hnp)
  refine ⟨fun q hq => ?_, fun q hq => ?_, fun q hq hkd => ?_, h.starts.cons nofun, ?_⟩
  · have := h.clean q
    grind
  · by_cases hqn : q = np
    · subst hqn
      rw [hpid, if_pos rfl, hlog]
      exact ⟨[], ⟨s.log, rfl⟩, nofun⟩
    · rw [hk, if_neg hqn] at hq
      rw [hpid, if_neg hqn]
      obtain ⟨mid, hmid⟩ := h.assigned q hq
      exact ⟨_, hmid.cons (hne q hqn)⟩
  · have hqn : q ≠ np := by grind
    rw [hk, if_neg hqn] at hq
    rw [hd, if_neg hqn] at hkd
    rw [hpid, if_neg hqn]
    exact (h.embryo q hq hkd).cons (hne q hqn)
  · intro pid live hin
    rw [hlog, List.mem_cons] at hin
    exact h.kills pid live (hin.resolve_left nofun)

theorem Fate.kill {s : Table K} (h : s.Fate) {q : Slot} {pid : ℤ}
    (hq : s.procs.findPid pid = some q) (hc : (s.procs q).state ≠ .unused) :
    (record { s with procs := s.procs.hit q } (.killed pid true (s.procs.live pid))).Fate := by
  have hpid : s.pid q = pid := Procs.findPid_some hq
  have hlive : s.procs.live pid = true :=
    List.any_eq_true.mpr ⟨q, List.mem_finRange q, decide_eq_true ⟨hc, hpid⟩⟩
  have hd : ∀ r, (s.procs.hit q r).killed = if r = q then true else (s.procs r).killed :=
    fun r => Procs.killed_set ..
  refine h.frame (.inr ⟨_, rfl, fun _ => hlive⟩) (fun r hr => ?_) fun r hr => ?_
  · rw [record, (s.procs.hit_alike q r).kind] at hr
    have hrq : r ≠ q := by
      rintro rfl
      exact hc (Proc.kind_eq_unused.mp hr)
    exact (hd r).trans ((if_neg hrq).trans (h.clean r hr))
  · have halike := s.procs.hit_alike q r
    rw [record, halike.kind] at hr
    refine ⟨hr, halike.pid, fun hk => ?_⟩
    by_cases hrq : r = q
    · subst hrq
      obtain ⟨mid, hmid⟩ := h.assigned r hr
      exact .inr ⟨_, hmid.cons (by rintro _ ⟨⟩), true, _, by rw [hpid]; exact List.mem_cons_self⟩
    · exact .inl ((if_neg hrq).symm.trans ((hd r).symm.trans hk))

theorem Fate.exit [DecidableEq K] {s : Table K} (h : s.Fate) (p : Slot) : (s.exit p).Fate := by
  have hk := exit_kind s p
  have hpid := exit_pid s p
  have hd : ∀ q, ((s.exit p).procs q).killed = (s.procs q).killed :=
    s.procs.exit_killed s.initproc p
  have hclean := h.clean
  exact h.frame (.inr ⟨_, rfl, trivial⟩) (by grind) (by grind)

theorem Fate.move [DecidableEq K] {s t : Table K} {a : Act K} (h : s.Fate) (ht : s.Tree)
    (hm : Move s a t) (hc : s.Careful a) : t.Fate := by
  have hset : ∀ {p : Slot} {x : Proc K} {t : Table K}, t.procs = s.procs.set p x →
      t.log = s.log → x.kind = .alive → t.Fate :=
    fun hp hl hk => h.set hp (.inl hl) (hk ▸ nofun) (hk ▸ nofun)
  have hmade : ∀ {p np : Slot} {g : Stage}, s.At p g → g.making = some np →
      (s.procs np).kind = .embryo := fun hp hg => (ht.maker _ _ (hp.2 ▸ hg)).2
  cases hm with
  | dispatch _ => exact hset rfl rfl rfl
  | yield _ => exact hset rfl rfl rfl
  | sleep _ => exact hset rfl rfl rfl
  | tidy hp => exact hset rfl rfl (Proc.kind_running hp)
  | @wakeup k =>
    have halike := s.procs.wakeup1_alike (.other k)
    have hkilled := s.procs.wakeup1_killed (.other k)
    exact h.frame (.inl rfl) (fun q hq => (hkilled q).trans (h.clean q ((halike q).kind ▸ hq)))
      fun q hq => ⟨(halike q).kind ▸ hq, (halike q).pid, fun hk => .inl (hkilled q ▸ hk)⟩
  | killed _ hq => exact h.kill hq (hc _ hq)
  | noKill _ _ => exact h.frame (.inr ⟨_, rfl, nofun⟩) h.clean fun q hq => ⟨hq, rfl, .inl⟩
  | ofile hp => exact hset rfl rfl (Proc.kind_running hp.1)
  | noSlot _ _ => exact h
  | taken _ hnp => exact h.take hnp
  | stacked _ => exact h.frame (.inl rfl) h.clean fun q hq => ⟨hq, rfl, .inl⟩
  | noStack hp => exact h.set rfl (.inl rfl) (fun _ => hc _ hp.2) nofun
  | adopted hp =>
    exact h.set rfl (.inl rfl) (fun hk => nomatch (hmade hp rfl).symm.trans hk) fun _ =>
      ⟨hmade hp rfl, rfl, rfl⟩
  | noMemory hp => exact h.set rfl (.inl rfl) (fun _ => hc _ hp.2) nofun
  | filedup hp =>
    exact h.set rfl (.inl rfl) (fun hk => nomatch (hmade hp rfl).symm.trans hk) fun _ =>
      ⟨hmade hp rfl, rfl, rfl⟩
  | @run p np hp =>
    exact h.set rfl (.inr ⟨_, rfl, h.embryo np (hmade hp rfl)⟩) nofun nofun
  | exiting _ _ => exact h.frame (.inl rfl) h.clean fun q hq => ⟨hq, rfl, .inl⟩
  | fileclose hp => exact hset rfl rfl (Proc.kind_running hp.1)
  | exit _ => exact h.exit _
  | reaped _ _ => exact h.set rfl (.inr ⟨_, rfl, trivial⟩) (fun _ => rfl) nofun
  | noChild _ _ _ => exact h.frame (.inl rfl) h.clean fun q hq => ⟨hq, rfl, .inl⟩
  | waits _ _ _ _ => exact hset rfl rfl rfl

theorem boot_fate : (boot : Table K).Fate :=
  ⟨fun _ _ => rfl, fun q hq => by rw [boot_kind] at hq; grind,
    fun q hq => by rw [boot_kind] at hq; grind,
    fun newer q a b older h => by simp [boot] at h, nofun⟩

/-- In a careful run every child starts unkilled, unless it was killed before it started, and
`kill` returns 0 only for a process there is. -/
theorem starts_unkilled [DecidableEq K] {s : Table K} {as : List (Act K)}
    (h : Run.exec step boot as = some s) (hc : Run.Along step Careful boot as) :
    StartsUnkilled s.log ∧ KillsLive s.log := by
  have hs : s.Tree ∧ s.Fate := by
    refine Run.exec_invariant (I := fun s => s.Tree ∧ s.Fate) (fun s a t hs hc hst => ?_)
      ⟨boot_sane.tree, boot_fate⟩ hc h
    have hm := step_move hst
    exact ⟨hs.1.change hm.change, hs.2.move hs.1 hm hc⟩
  exact ⟨hs.2.starts, hs.2.kills⟩

def forkKill : List (Act Unit) := .dispatch 0 :: initForks ++ [.kill 0 2]

theorem starts_unkilled_fork : ∃ s : Table Unit, Run.exec step boot forkKill = some s ∧
    s.log = [.killed 2 true true, .forked 1 1 2 false, .assigned 1 2] ∧
    StartsUnkilled s.log ∧ KillsLive s.log := by
  have hrun : (Run.exec step boot forkKill).map (·.log) =
      some [.killed 2 true true, .forked 1 1 2 false, .assigned 1 2] := by decide +kernel
  obtain ⟨s, hs, hlog⟩ := Option.map_eq_some_iff.mp hrun
  exact ⟨s, hs, hlog, starts_unkilled hs (by decide +kernel)⟩

/-- `initproc` calls `kill(0)` and forks. -/
def killZeroFork : List (Act Unit) := .dispatch 0 :: .kill 0 0 :: initForks

/-- `kill(0)` returns 0 though no process has the pid 0, and the next child starts killed. -/
theorem starts_killed : ∃ s : Table Unit, Run.exec step boot killZeroFork = some s ∧
    ¬StartsUnkilled s.log ∧ ¬KillsLive s.log := by
  have hrun : (Run.exec step boot killZeroFork).map (·.log) =
      some [.forked 1 1 2 true, .assigned 1 2, .killed 0 true false] := by decide +kernel
  obtain ⟨s, hs, hlog⟩ := Option.map_eq_some_iff.mp hrun
  refine ⟨s, hs, fun h => ?_, fun h => ?_⟩
  · obtain ⟨mid, ⟨⟨old, hmid⟩, -⟩, ok, live, hin⟩ := h [] 1 1 2 _ (hlog.trans rfl)
    have hin := List.mem_append_left (.assigned 1 2 :: old) hin
    rw [← hmid] at hin
    simp at hin
  · exact nomatch h 0 false (hlog ▸ by decide)

end Table

end Xv6.Ptable
