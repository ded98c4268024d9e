import Xv6.Log.GroupInvariant
import Mathlib.Algebra.Order.BigOperators.Group.Finset
import Mathlib.Data.Set.Card

/-! How full the log can get. Admission by `begin_op`, the test of `log_write` and the size
`mkfs` gives the log are written independently of each other. -/
namespace Xv6

variable {P : Type*}

/-- The step is no `log_write`, or one of an operation that then has logged at most `n` distinct
sectors. -/
def WithinOp (n : ℕ) (s : GroupState P) : LogAct P → Prop
  | .check p x => (x :: s.cur p).toFinset.card ≤ n
  | _ => True

instance (n : ℕ) (s : GroupState P) (a : LogAct P) : Decidable (WithinOp n s a) := by
  cases a <;> unfold WithinOp <;> infer_instance

def logSectors (p : P) (first n : ℕ) : List (LogAct P) :=
  (List.range' first n).flatMap fun x => [.check p x, .append p]

def beginThree : List (LogAct (Fin 3)) :=
  [.call 0, .test 0, .call 1, .test 1, .call 2, .test 2]

/-- Three admitted operations of ten sectors each, up to the test for the thirtieth. -/
def fillRun : List (LogAct (Fin 3)) :=
  beginThree ++ logSectors 0 100 10 ++ logSectors 1 200 10 ++ logSectors 2 300 9 ++
    [.check 2 309]

/-- Twenty-eight sectors are logged, then two operations make the test of `log_write` before
either of them appends. -/
def raceRun : List (LogAct (Fin 3)) :=
  beginThree ++ logSectors 0 100 10 ++ logSectors 1 200 9 ++ logSectors 2 300 9 ++
    [.check 1 209, .check 2 309, .append 1, .append 2]

/-! The test of `log_write`. -/

variable {s : GroupState P}

variable [DecidableEq P]

theorem GroupInv.panic_none {log : LogArea} (h : GroupInv s) {a : LogAct P} {s' : GroupState P}
    (ha : ∀ p x, a ≠ .check p x) (hs : groupStep log s a = some s') : s'.panic = none := by
  obtain ⟨hn, hm⟩ := groupStep_move hs
  cases hm with
  | check => exact absurd rfl (ha _ _)
  | test =>
    unfold GroupState.beginOp
    split_ifs <;> exact hn
  | @endOp p hp =>
    have hcom := h.proc.not_committing (p := p) (by simp [hp, LogPc.Active])
    unfold GroupState.endOp
    simp only [hcom, Bool.false_eq_true, if_false]
    split_ifs <;> exact hn
  | @commit p c =>
    cases c <;> simp only [GroupState.commitStep] <;> (try split_ifs) <;> exact hn
  | _ => exact hn

theorem check_cases {log : LogArea} {p : P} {x : ℕ} {s' : GroupState P}
    (hs : groupStep log s (.check p x) = some s') (h : GroupInv s) :
    s.panic = none ∧ s.pc p = .inOp ∧
      ((LOGSIZE ≤ s.lh.length ∨ (log.size : ℤ) - 1 ≤ s.lh.length) ∧
          s' = { s with panic := some "too big a transaction" } ∨
        s.lh.length < LOGSIZE ∧ (s.lh.length : ℤ) < (log.size : ℤ) - 1 ∧
          s' = s.setPc p (.logging x)) := by
  obtain ⟨hn, ⟨⟩⟩ := groupStep_move hs
  rename_i hp
  have hpos := h.proc.outstanding_pos (p := p) (by simp [hp, LogPc.Active])
  refine ⟨hn, hp, ?_⟩
  unfold GroupState.logCheck
  split_ifs with hbig hout
  · exact Or.inl ⟨hbig, rfl⟩
  · omega
  · right
    rw [not_or, not_le, not_le] at hbig
    exact ⟨hbig.1, hbig.2, rfl⟩

theorem setPc_logging {p q : P} {c : LogPc} {x : ℕ} (hc : ∀ y, c ≠ .logging y)
    (h : (s.setPc p c).pc q = .logging x) : q ≠ p ∧ s.pc q = .logging x := by
  by_cases hq : q = p
  · subst hq
    simp [GroupState.setPc] at h
    exact absurd h (hc x)
  · exact ⟨hq, by simpa [GroupState.setPc, Function.update_of_ne hq] using h⟩

omit [DecidableEq P] in
theorem wakeup_logging {q : P} {x : ℕ} (h : s.wakeup.pc q = .logging x) :
    s.pc q = .logging x := by
  by_cases hq : s.pc q = .asleep
  · simp [GroupState.wakeup, hq] at h
  · simpa [GroupState.wakeup, hq] using h

omit [DecidableEq P] in
theorem GroupInv.not_committer (h : GroupInv s) {p : P} (hp : (s.pc p).Active) (q : P) :
    ¬ (s.pc q).Committing := by
  intro hq
  have hcom := h.proc.not_committing hp
  rw [h.proc.committer.mpr ⟨q, hq⟩] at hcom
  contradiction

/-- What is left in the log where no operation logs more than `MAXOPBLOCKS - 1` distinct sectors.
`begin_op` reserves one sector more for each operation in progress, and there are two of them
unless the header was empty: so the header never comes to `LOGSIZE - 1`. -/
structure Reserved (s : GroupState P) : Prop where
  within : ∀ p, (s.cur p).toFinset.card ≤ MAXOPBLOCKS - 1
  pending : ∀ p x, s.pc p = .logging x → (x :: s.cur p).toFinset.card ≤ MAXOPBLOCKS - 1
  room : ∀ A : Finset P, (∀ p, p ∈ A ↔ (s.pc p).Active) → A.Nonempty →
    s.lh.length + (MAXOPBLOCKS - 1) * A.card + 2 ≤ LOGSIZE + ∑ p ∈ A, (s.cur p).toFinset.card
  empty : s.committing = false → (∀ p, ¬ (s.pc p).Active) → s.lh = []
  cleared : ∀ p, s.pc p = .commit .clearHead ∨ s.pc p = .committed → s.lh = []

namespace Reserved

omit [DecidableEq P] in
theorem length_lt (hr : Reserved s) (h : GroupInv s) {p : P} (hp : (s.pc p).Active) :
    s.lh.length + 1 < LOGSIZE := by
  obtain ⟨A, hA, -⟩ := h.proc.active
  have hroom := hr.room A hA ⟨p, (hA p).mpr hp⟩
  have hsum : ∑ q ∈ A, (s.cur q).toFinset.card ≤ A.card * (MAXOPBLOCKS - 1) :=
    Finset.sum_le_card_nsmul A _ _ fun q _ => hr.within q
  rw [Nat.mul_comm] at hsum
  omega

omit [DecidableEq P] in
theorem setPcs (hr : Reserved s) {s' : GroupState P}
    (hpc : ∀ q, (s'.pc q).Active ↔ (s.pc q).Active)
    (hpend : ∀ q x, s'.pc q = .logging x → s.pc q = .logging x)
    (hclear : ∀ q, s'.pc q = .commit .clearHead ∨ s'.pc q = .committed → s'.lh = [])
    (hlh : s'.lh = s.lh) (hcur : s'.cur = s.cur) (hcom : s'.committing = s.committing) :
    Reserved s' := by
  refine ⟨hcur ▸ hr.within, fun q x hq => hcur ▸ hr.pending q x (hpend q x hq),
    fun A hA hne => ?_, fun hc hna => ?_, hclear⟩
  · rw [hlh, hcur]
    exact hr.room A (fun q => (hA q).trans (hpc q)) hne
  · rw [hlh]
    exact hr.empty (hcom ▸ hc) fun q hq => hna q ((hpc q).mpr hq)

theorem setPc (hr : Reserved s) {p : P} {c : LogPc} (ha : c.Active ↔ (s.pc p).Active)
    (hl : ∀ x, c ≠ .logging x) (hc : c = .commit .clearHead ∨ c = .committed → s.lh = []) :
    Reserved (s.setPc p c) := by
  refine hr.setPcs (fun q => ?_) (fun q x hq => (setPc_logging hl hq).2)
    (fun q hq => ?_) rfl rfl rfl
  all_goals
    by_cases hqp : q = p
    · subst hqp
      simp_all [GroupState.setPc]
    · simp_all [GroupState.setPc, hr.cleared q]

omit [DecidableEq P] in
theorem emptied (hr : Reserved s) {s' : GroupState P} (hlh : s'.lh = [])
    (hna : ∀ q, ¬ (s'.pc q).Active) (hcur : s'.cur = s.cur) : Reserved s' := by
  refine ⟨hcur ▸ hr.within, fun q x hq => absurd ?_ (hna q), fun A hA hne => ?_, fun _ _ => hlh,
    fun _ _ => hlh⟩
  · simp [hq, LogPc.Active]
  · obtain ⟨q, hq⟩ := hne
    exact absurd ((hA q).mp hq) (hna q)

theorem beginOp (hr : Reserved s) (h : GroupInv s) {p : P} (hp : s.pc p = .waiting) :
    Reserved (s.beginOp p) := by
  have hna : ¬ (s.pc p).Active := by simp [hp, LogPc.Active]
  have hsleep : Reserved (s.setPc p .asleep) :=
    hr.setPc (by simp [hp, LogPc.Active]) (by simp) (by simp)
  unfold GroupState.beginOp
  split_ifs with hc hfull
  · exact hsleep
  · exact hsleep
  obtain ⟨A, hA, hcard⟩ := h.proc.active
  have hpA : p ∉ A := fun hpA => hna ((hA p).mp hpA)
  refine ⟨hr.within, fun q x hq => hr.pending q x ?_, fun B hB _ => ?_, fun _ hn => ?_,
    fun q hq => ?_⟩
  · exact (setPc_logging (p := p) (c := .inOp) (by simp) hq).2
  · have hBA : B = insert p A := by
      ext q
      by_cases hqp : q = p
      · subst hqp
        simp [hB, GroupState.setPc, LogPc.Active]
      · simp [hB, hA, GroupState.setPc, hqp]
    rw [hBA, Finset.card_insert_of_notMem hpA]
    have hadm : s.lh.length + (A.card + 1) * MAXOPBLOCKS ≤ LOGSIZE := by
      rw [hcard] at hfull
      exact_mod_cast not_lt.mp hfull
    suffices hlh : s.lh.length + (MAXOPBLOCKS - 1) * (A.card + 1) + 2 ≤ LOGSIZE from
      hlh.trans (Nat.le_add_right _ _)
    rcases A.eq_empty_or_nonempty with rfl | hne
    · rw [hr.empty (by simpa using hc) fun q hq => by simpa using (hA q).mpr hq]
      simp [MAXOPBLOCKS, LOGSIZE]
    · have hpos := hne.card_pos
      simp only [MAXOPBLOCKS, LOGSIZE] at hadm ⊢
      omega
  · exact absurd (by simp [GroupState.setPc, LogPc.Active]) (hn p)
  · by_cases hqp : q = p
    · subst hqp
      simp [GroupState.setPc] at hq
    · exact hr.cleared q (by simpa [GroupState.setPc, hqp] using hq)

theorem logAppend (hr : Reserved s) (h : GroupInv s) {p : P} {x : ℕ} (hp : s.pc p = .logging x) :
    Reserved (s.logAppend p x) := by
  have hact : (s.pc p).Active := by simp [hp, LogPc.Active]
  have hcur (q : P) (hqp : q ≠ p) : (s.logAppend p x).cur q = s.cur q :=
    Function.update_of_ne hqp _ _
  have hself : ((s.logAppend p x).cur p).toFinset = (x :: s.cur p).toFinset := by
    ext y
    simp [GroupState.logAppend]
  have hpc (q : P) : ((s.logAppend p x).pc q).Active ↔ (s.pc q).Active := by
    by_cases hqp : q = p
    · subst hqp
      simp [GroupState.logAppend, GroupState.setPc, hp, LogPc.Active]
    · simp [GroupState.logAppend, GroupState.setPc, hqp]
  have hle (q : P) : (s.cur q).toFinset.card ≤ ((s.logAppend p x).cur q).toFinset.card := by
    by_cases hqp : q = p
    · subst hqp
      rw [hself, List.toFinset_cons]
      exact Finset.card_le_card (Finset.subset_insert _ _)
    · rw [hcur q hqp]
  refine ⟨fun q => ?_, fun q y hq => ?_, fun B hB hne => ?_, fun _ hn => ?_, fun q hq => ?_⟩
  · by_cases hqp : q = p
    · subst hqp
      rw [hself]
      exact hr.pending q x hp
    · rw [hcur q hqp]
      exact hr.within q
  · obtain ⟨hqp, hq⟩ := setPc_logging (p := p) (c := .inOp) (by simp) hq
    rw [hcur q hqp]
    exact hr.pending q y hq
  · have hroom := hr.room B (fun q => (hB q).trans (hpc q)) hne
    simp only [GroupState.logAppend, absorb_eq]
    split_ifs with hx
    · exact hroom.trans (Nat.add_le_add_left (Finset.sum_le_sum fun q _ => hle q) _)
    -- A sector that is new to the header is new to the operation.
    · have hnew : x ∉ s.cur p := fun hxp => hx ((h.head.header x).mpr (Or.inr ⟨p, hxp⟩))
      have hlt := Finset.sum_lt_sum (fun q _ => hle q) ⟨p, (hB p).mpr ((hpc p).mpr hact), by
        rw [hself, List.toFinset_cons, Finset.card_insert_of_notMem (by simpa using hnew)]
        exact Nat.lt_succ_self _⟩
      rw [List.length_append, List.length_singleton]
      simp only [GroupState.logAppend] at hlt
      omega
  · exact absurd ((hpc p).mpr hact) (hn p)
  · by_cases hqp : q = p
    · subst hqp
      simp [GroupState.logAppend, GroupState.setPc] at hq
    · refine absurd ?_ (h.not_committer hact q)
      rcases hq with hq | hq <;>
        · simp only [GroupState.logAppend, GroupState.setPc, Function.update_of_ne hqp] at hq
          simp [hq, LogPc.Committing]

theorem leave (hr : Reserved s) {p : P} (hp : (s.pc p).Active) {s' : GroupState P}
    (hpc : ∀ q, (s'.pc q).Active ↔ q ≠ p ∧ (s.pc q).Active)
    (hpend : ∀ q x, s'.pc q = .logging x → q ≠ p ∧ s.pc q = .logging x)
    (hlh : s'.lh = s.lh) (hcur : s'.cur = Function.update s.cur p [])
    (hlast : s'.committing = true ∨ ∃ q, (s'.pc q).Active)
    (hclear : ∀ q, s'.pc q ≠ .commit .clearHead ∧ s'.pc q ≠ .committed) : Reserved s' := by
  have hother (q : P) (hqp : q ≠ p) : s'.cur q = s.cur q := by rw [hcur, Function.update_of_ne hqp]
  refine ⟨fun q => ?_, fun q x hq => ?_, fun B hB _ => ?_, fun hc hn => ?_, fun q hq => ?_⟩
  · by_cases hqp : q = p
    · simp [hcur, hqp]
    · exact hother q hqp ▸ hr.within q
  · obtain ⟨hqp, hq⟩ := hpend q x hq
    exact hother q hqp ▸ hr.pending q x hq
  · have hpB : p ∉ B := fun hpB => ((hpc p).mp ((hB p).mp hpB)).1 rfl
    have hroom := hr.room (insert p B) (fun q => by
      by_cases hqp : q = p
      · simp [hqp, hp]
      · simp [hqp, hB, hpc]) (Finset.insert_nonempty p B)
    rw [Finset.card_insert_of_notMem hpB, Finset.sum_insert hpB] at hroom
    have hsum : ∑ q ∈ B, (s'.cur q).toFinset.card = ∑ q ∈ B, (s.cur q).toFinset.card :=
      Finset.sum_congr rfl fun q hq => by rw [hother q (by rintro rfl; exact hpB hq)]
    have hwithin := hr.within p
    rw [hlh, hsum]
    simp only [MAXOPBLOCKS, LOGSIZE] at hroom hwithin ⊢
    omega
  · rcases hlast with hcom | ⟨q, hq⟩
    · simp [hcom] at hc
    · exact absurd hq (hn q)
  · rcases hq with hq | hq
    · exact absurd hq (hclear q).1
    · exact absurd hq (hclear q).2

theorem endOp (hr : Reserved s) (h : GroupInv s) {p : P} (hp : s.pc p = .inOp) :
    Reserved (s.endOp p) := by
  have hact : (s.pc p).Active := by simp [hp, LogPc.Active]
  have hcom := h.proc.not_committing hact
  obtain ⟨A, hA, hcard⟩ := h.proc.active
  have hpA := (hA p).mpr hact
  have hquiet (q : P) : s.pc q ≠ .commit .clearHead ∧ s.pc q ≠ .committed :=
    ⟨fun hq => h.not_committer hact q (by simp [hq, LogPc.Committing]),
      fun hq => h.not_committer hact q (by simp [hq, LogPc.Committing])⟩
  unfold GroupState.endOp
  dsimp only
  rw [if_neg (by simp [hcom])]
  split_ifs with hz
  · refine hr.leave hact (fun q => ?_) (fun q x hq => setPc_logging (by simp) hq) rfl rfl
      (Or.inl rfl)
      fun q => ?_
    all_goals
      by_cases hqp : q = p
      · simp [GroupState.setPc, hqp, LogPc.Active]
      · simp [GroupState.setPc, hqp, hquiet q]
  · have hpc (q : P) : ((({ s with
        outstanding := s.outstanding - 1
        cur := Function.update s.cur p []
        ended := s.ended ++ s.cur p } : GroupState P).setPc p .idle).wakeup.pc q).Active ↔
        q ≠ p ∧ (s.pc q).Active := by
      by_cases hqp : q = p
      · simp [GroupState.wakeup, GroupState.setPc, hqp, LogPc.Active]
      · by_cases hq : s.pc q = .asleep <;>
          simp [GroupState.wakeup, GroupState.setPc, hqp, hq, LogPc.Active]
    refine hr.leave hact hpc (fun q x hq => setPc_logging (by simp) (wakeup_logging hq)) rfl rfl
      (Or.inr ?_) fun q => ?_
    · have hne : (A.erase p).Nonempty := by
        rw [← Finset.card_pos, Finset.card_erase_of_mem hpA]
        have hpos := Finset.card_pos.mpr ⟨p, hpA⟩
        omega
      obtain ⟨q, hq⟩ := hne
      rw [Finset.mem_erase] at hq
      exact ⟨q, (hpc q).mpr ⟨hq.1, (hA q).mp hq.2⟩⟩
    · by_cases hqp : q = p
      · simp [GroupState.wakeup, GroupState.setPc, hqp]
      · by_cases hq : s.pc q = .asleep
        · simp [GroupState.wakeup, GroupState.setPc, hqp, hq]
        · simp [GroupState.wakeup, GroupState.setPc, hqp, hq, hquiet q]

theorem commitStep (hr : Reserved s) (h : GroupInv s) {p : P} {c : CommitPc}
    (hp : s.pc p = .commit c) : Reserved (s.commitStep p c) := by
  have hset (d : LogPc) (ha : ¬ d.Active) (hl : ∀ x, d ≠ .logging x)
      (hd : d = .commit .clearHead ∨ d = .committed → s.lh = []) : Reserved (s.setPc p d) :=
    hr.setPc (iff_of_false ha (by simp [hp, LogPc.Active])) hl hd
  cases c with
  | start =>
    simp only [GroupState.commitStep]
    split_ifs with hlen
    · exact hset _ (by simp [LogPc.Active]) (by simp) (by simp)
    · exact hset _ (by simp [LogPc.Active]) (by simp) fun _ => List.length_eq_zero_iff.mp (by omega)
  | clear =>
    have hnone := h.proc.exclusive (h.proc.committer.mpr ⟨p, by simp [hp, LogPc.Committing]⟩)
    refine hr.emptied rfl (fun q hq => ?_) rfl
    by_cases hqp : q = p
    · simp [GroupState.commitStep, GroupState.setPc, hqp, LogPc.Active] at hq
    · exact hnone q (by simpa [GroupState.commitStep, GroupState.setPc, hqp] using hq)
  | clearHead => exact hset _ (by simp [LogPc.Active]) (by simp) fun _ => hr.cleared p (Or.inl hp)
  | writeHead => exact hset _ (by simp [LogPc.Active]) (by simp) (by simp)
  | _ =>
    simp only [GroupState.commitStep]
    split_ifs <;> exact hset _ (by simp [LogPc.Active]) (by simp) (by simp)

theorem endCommit (hr : Reserved s) (h : GroupInv s) {p : P} (hp : s.pc p = .committed) :
    Reserved (s.endCommit p) := by
  have hnone := h.proc.exclusive (h.proc.committer.mpr ⟨p, by simp [hp, LogPc.Committing]⟩)
  refine hr.emptied (hr.cleared p (Or.inr hp)) (fun q hq => hnone q ?_) rfl
  by_cases hqp : q = p
  · simp [GroupState.endCommit, GroupState.wakeup, GroupState.setPc, hqp, LogPc.Active] at hq
  · by_cases hsleep : s.pc q = .asleep
    · simp [GroupState.endCommit, GroupState.wakeup, GroupState.setPc, hqp, hsleep,
        LogPc.Active] at hq
    · simpa [GroupState.endCommit, GroupState.wakeup, GroupState.setPc, hqp, hsleep] using hq

theorem logCheck (hr : Reserved s) (h : GroupInv s) {p : P} (hp : s.pc p = .inOp) {x : ℕ}
    (hx : (x :: s.cur p).toFinset.card ≤ MAXOPBLOCKS - 1) :
    Reserved (s.logCheck (initlog mkfsSb) p x) ∧
      (s.logCheck (initlog mkfsSb) p x).panic = s.panic := by
  have hact : (s.pc p).Active := by simp [hp, LogPc.Active]
  have hlt := hr.length_lt h hact
  have hpos := h.proc.outstanding_pos hact
  have hsize : (initlog mkfsSb).size = LOGSIZE := rfl
  unfold GroupState.logCheck
  rw [if_neg (by omega), if_neg (by omega)]
  have hpc (q : P) : ((s.setPc p (.logging x)).pc q).Active ↔ (s.pc q).Active := by
    by_cases hqp : q = p
    · simp [GroupState.setPc, hqp, hp, LogPc.Active]
    · simp [GroupState.setPc, hqp]
  refine ⟨⟨hr.within, fun q y hq => ?_, fun A hA => ?_, fun _ hn => ?_, fun q hq => ?_⟩, rfl⟩
  · by_cases hqp : q = p
    · subst hqp
      simp only [GroupState.setPc, Function.update_self, LogPc.logging.injEq] at hq
      exact hq ▸ hx
    · exact hr.pending q y (by simpa [GroupState.setPc, hqp] using hq)
  · exact hr.room A fun q => (hA q).trans (hpc q)
  · exact absurd ((hpc p).mpr hact) (hn p)
  · by_cases hqp : q = p
    · simp [GroupState.setPc, hqp] at hq
    · exact hr.cleared q (by simpa [GroupState.setPc, hqp] using hq)

theorem step (hr : Reserved s) (h : GroupInv s) {a : LogAct P} {s' : GroupState P}
    (hw : WithinOp (MAXOPBLOCKS - 1) s a) (hs : groupStep (initlog mkfsSb) s a = some s') :
    Reserved s' ∧ s'.panic = none := by
  obtain ⟨hn, hm⟩ := groupStep_move hs
  cases hm with
  | check hp => exact ⟨(hr.logCheck h hp hw).1, (hr.logCheck h hp hw).2.trans hn⟩
  | call hp =>
    exact ⟨hr.setPc (by simp [hp, LogPc.Active]) (by simp) (by simp), h.panic_none (by simp) hs⟩
  | wake hp =>
    exact ⟨hr.setPc (by simp [hp, LogPc.Active]) (by simp) (by simp), h.panic_none (by simp) hs⟩
  | test hp => exact ⟨hr.beginOp h hp, h.panic_none (by simp) hs⟩
  | append hp => exact ⟨hr.logAppend h hp, h.panic_none (by simp) hs⟩
  | endOp hp => exact ⟨hr.endOp h hp, h.panic_none (by simp) hs⟩
  | commit hp => exact ⟨hr.commitStep h hp, h.panic_none (by simp) hs⟩
  | finish hp => exact ⟨hr.endCommit h hp, h.panic_none (by simp) hs⟩

omit [DecidableEq P] in
theorem init : Reserved (GroupState.init : GroupState P) := by
  refine ⟨fun _ => by simp [GroupState.init], by simp [GroupState.init], fun A hA hne => ?_,
    fun _ _ => rfl, fun _ _ => rfl⟩
  obtain ⟨q, hq⟩ := hne
  simpa [GroupState.init, LogPc.Active] using (hA q).mp hq

end Reserved

/-- Admission does not keep the log from overflowing: three operations within their
reservation reach the panic. -/
theorem admission_insufficient :
    ¬ ∀ (as : List (LogAct (Fin 3))) (t : GroupState (Fin 3)),
      Run.exec (groupStep (initlog mkfsSb)) GroupState.init as = some t →
      Run.Along (groupStep (initlog mkfsSb)) (WithinOp MAXOPBLOCKS) GroupState.init as →
      t.panic ≠ some "too big a transaction" := by
  intro hall
  have hrun : (Run.exec (groupStep (initlog mkfsSb)) GroupState.init fillRun).map
      (fun s => s.panic) = some (some "too big a transaction") := by decide +kernel
  obtain ⟨t, ht, hp⟩ := Option.map_eq_some_iff.mp hrun
  exact hall fillRun t ht (by decide +kernel) hp

/-- With the log `mkfs` makes, admission is enough for operations that log at most
`MAXOPBLOCKS - 1` distinct sectors each: in no run of them does `log_write` panic. -/
theorem admission_sufficient (as : List (LogAct P)) (t : GroupState P)
    (ht : Run.exec (groupStep (initlog mkfsSb)) GroupState.init as = some t)
    (hop : Run.Along (groupStep (initlog mkfsSb)) (WithinOp (MAXOPBLOCKS - 1))
      GroupState.init as) : t.panic ≠ some "too big a transaction" := by
  have hinv := Run.exec_invariant (I := fun s => GroupInv s ∧ Reserved s ∧ s.panic = none)
    (fun s a u hI hC hu => ⟨hI.1.step _ hu, hI.2.1.step hI.1 hC hu⟩)
    ⟨GroupInv.init, Reserved.init, rfl⟩ hop ht
  simp [hinv.2.2]

/-- Three operations at once, of nine distinct sectors each; the last one then logs its first
sector again. -/
theorem admission_sufficient_three :
    ∃ t : GroupState (Fin 3),
      Run.exec (groupStep (initlog mkfsSb)) GroupState.init
        (beginThree ++ logSectors 0 100 9 ++ logSectors 1 200 9 ++ logSectors 2 300 9 ++
          logSectors 2 300 1) = some t ∧
      t.lh.length = 27 ∧ t.panic ≠ some "too big a transaction" := by
  have hrun : ∃ t : GroupState (Fin 3), Run.exec (groupStep (initlog mkfsSb)) GroupState.init
        (beginThree ++ logSectors 0 100 9 ++ logSectors 1 200 9 ++ logSectors 2 300 9 ++
          logSectors 2 300 1) = some t ∧ t.lh.length = 27 := by
    rw [← Option.map_eq_some_iff (f := fun t : GroupState (Fin 3) => t.lh.length)]
    decide +kernel
  obtain ⟨t, ht, hlen⟩ := hrun
  exact ⟨t, ht, hlen, admission_sufficient _ t ht (by decide +kernel)⟩

/-! The size of the header. -/

/-- The header fits in the log, and so does every block `write_log` writes. -/
def HeaderFits (log : LogArea) (s : GroupState P) : Prop :=
  (s.lh.length : ℤ) ≤ (log.size : ℤ) - 1 ∧ s.lh.length ≤ LOGSIZE ∧
    ∀ p tail, s.pc p = .commit (.writeLog tail) → tail < s.lh.length →
      log.Mem (log.start + tail + 1)

/-- The sectors in the header and those of the `log_write`s that have passed the test and not
yet appended. -/
def GroupState.claimed (s : GroupState P) : Set ℕ :=
  { x | x ∈ s.lh ∨ ∃ q, s.pc q = .logging x }

/-- The step is no `log_write` that passes the test, or one after which the claimed sectors
number at most `log.size - 1`. -/
def RoomFor (log : LogArea) (s : GroupState P) : LogAct P → Prop
  | .check _ x =>
    (s.lh.length : ℤ) < (log.size : ℤ) - 1 → (insert x s.claimed).encard < log.size
  | _ => True

/-- Appending moves a sector from the claims of a process to the header; every other step
except the test only drops claims. -/
theorem claimed_of_not_check {log : LogArea} {a : LogAct P} {s' : GroupState P}
    (ha : ∀ p x, a ≠ .check p x) (hs : groupStep log s a = some s') :
    s'.claimed ⊆ s.claimed := by
  obtain ⟨-, hm⟩ := groupStep_move hs
  have hmove {u : GroupState P} (hpc : ∀ q x, u.pc q = .logging x → s.pc q = .logging x)
      (hlh : ∀ x ∈ u.lh, x ∈ s.claimed) : u.claimed ⊆ s.claimed := by
    rintro x (hx | ⟨q, hq⟩)
    · exact hlh x hx
    · exact Or.inr ⟨q, hpc q x hq⟩
  have hset (p : P) (c : LogPc) (hc : ∀ y, c ≠ .logging y) : (s.setPc p c).claimed ⊆ s.claimed :=
    hmove (fun q x h => (setPc_logging hc h).2) (fun x hx => Or.inl hx)
  cases hm with
  | check => exact absurd rfl (ha _ _)
  | call => exact hset _ _ (by simp)
  | wake => exact hset _ _ (by simp)
  | @test p =>
    unfold GroupState.beginOp
    split_ifs
    · exact hset p _ (by simp)
    · exact hset p _ (by simp)
    · exact hset p .inOp (by simp)
  | @append p y hp =>
    apply hmove
    · exact fun q x h => (setPc_logging (p := p) (c := .inOp) (by simp) h).2
    · intro x hx
      rcases mem_absorb.mp hx with hx | rfl
      · exact Or.inl hx
      · exact Or.inr ⟨p, hp⟩
  | @endOp p =>
    unfold GroupState.endOp
    dsimp only
    split_ifs
    · exact hmove (fun q x h => h) (fun x hx => Or.inl hx)
    · exact hset p (.commit .start) (by simp)
    · apply hmove
      · exact fun q x h => (setPc_logging (p := p) (c := .idle) (by simp) (wakeup_logging h)).2
      · exact fun x hx => Or.inl hx
  | @commit p c =>
    cases c with
    | clear =>
      apply hmove
      · exact fun q x h => (setPc_logging (p := p) (c := .commit .clearHead) (by simp) h).2
      · simp [GroupState.commitStep]
    | writeHead => exact hset p _ (by simp)
    | clearHead => exact hset p _ (by simp)
    | _ =>
      simp only [GroupState.commitStep]
      split_ifs <;> exact hset p _ (by simp)
  | @finish p =>
    apply hmove
    · exact fun q x h => (setPc_logging (p := p) (c := .idle) (by simp) (wakeup_logging h)).2
    · exact fun x hx => Or.inl hx

theorem claimed_check {p : P} {x : ℕ} (hp : s.pc p = .inOp) :
    (s.setPc p (.logging x)).claimed = insert x s.claimed := by
  ext y
  rw [Set.mem_insert_iff]
  constructor
  · rintro (hy | ⟨q, hq⟩)
    · exact Or.inr (Or.inl hy)
    · by_cases hqp : q = p
      · subst hqp
        simp [GroupState.setPc] at hq
        exact Or.inl hq.symm
      · exact Or.inr (Or.inr ⟨q, by simpa [GroupState.setPc, hqp] using hq⟩)
  · rintro (rfl | hy | ⟨q, hq⟩)
    · exact Or.inr ⟨p, by simp [GroupState.setPc]⟩
    · exact Or.inl hy
    · refine Or.inr ⟨q, ?_⟩
      have hqp : q ≠ p := by
        rintro rfl
        simp [hp] at hq
      simpa [GroupState.setPc, hqp] using hq

theorem claimed_step {log : LogArea} (h : GroupInv s) (hc : s.claimed.encard < log.size)
    {a : LogAct P} {s' : GroupState P} (hroom : RoomFor log s a)
    (hs : groupStep log s a = some s') : s'.claimed.encard < log.size := by
  by_cases ha : ∃ p x, a = .check p x
  · obtain ⟨p, x, rfl⟩ := ha
    obtain ⟨-, hp, ⟨-, rfl⟩ | ⟨-, hlt, rfl⟩⟩ := check_cases hs h
    · exact hc
    · rw [claimed_check hp]
      exact hroom hlt
  · have ha' : ∀ p x, a ≠ .check p x := fun p x he => ha ⟨p, x, he⟩
    exact (Set.encard_le_encard (claimed_of_not_check ha' hs)).trans_lt hc

omit [DecidableEq P] in
theorem headerFits_of_claimed {log : LogArea} (hlog : log.size ≤ LOGSIZE + 1) (h : GroupInv s)
    (hc : s.claimed.encard < log.size) : HeaderFits log s := by
  have hsub : ((s.lh.toFinset : Finset ℕ) : Set ℕ) ⊆ s.claimed := by
    intro x hx
    exact Or.inl (by simpa using hx)
  have hle := (Set.encard_le_encard hsub).trans_lt hc
  rw [Set.encard_coe_eq_coe_finsetCard, List.toFinset_card_of_nodup h.head.nodup] at hle
  have hlt : s.lh.length < log.size := by exact_mod_cast hle
  refine ⟨by omega, by omega, fun p tail _ ht => ⟨by omega, by omega⟩⟩

theorem claimed_logAppend {p : P} {y : ℕ} (hp : s.pc p = .logging y) :
    (s.logAppend p y).claimed = s.claimed := by
  ext x
  constructor
  · rintro (hx | ⟨q, hq⟩)
    · rcases mem_absorb.mp hx with hx | rfl
      · exact Or.inl hx
      · exact Or.inr ⟨p, hp⟩
    · exact Or.inr ⟨q, (setPc_logging (p := p) (c := .inOp) (by simp) hq).2⟩
  · rintro (hx | ⟨q, hq⟩)
    · exact Or.inl (mem_absorb.mpr (Or.inl hx))
    · by_cases hqp : q = p
      · subst hqp
        rw [hp, LogPc.logging.injEq] at hq
        exact Or.inl (mem_absorb.mpr (Or.inr hq.symm))
      · exact Or.inr ⟨q, by simpa [GroupState.logAppend, GroupState.setPc, hqp] using hq⟩

/-- Letting the `log_write`s that have passed the test append, one after another, turns all
claims into header entries. -/
theorem exists_append_all {log : LogArea} (A : Finset P) (h : GroupInv s) (hn : s.panic = none)
    (hA : ∀ q x, s.pc q = .logging x → q ∈ A) :
    ∃ t, Run.Reaches (groupStep log) s t ∧ GroupInv t ∧ ∀ x, x ∈ t.lh ↔ x ∈ s.claimed := by
  induction A using Finset.strongInduction generalizing s with
  | H A ih =>
    by_cases hl : ∃ p y, s.pc p = .logging y
    · obtain ⟨p, y, hp⟩ := hl
      have hpA := hA p y hp
      have hstep : groupStep log s (.append p) = some (s.logAppend p y) := by
        simp [groupStep, hp, hn]
      obtain ⟨t, ht, hinv, hmem⟩ := ih (A.erase p) (Finset.erase_ssubset hpA) (h.logAppend hp) hn
        (by
          intro q x hq
          have hqp : q ≠ p := by
            rintro rfl
            simp [GroupState.logAppend, GroupState.setPc] at hq
          rw [Finset.mem_erase]
          exact ⟨hqp, hA q x (setPc_logging (p := p) (c := .inOp) (by simp) hq).2⟩)
      exact ⟨t, ht.head hstep, hinv, by simpa [claimed_logAppend hp] using hmem⟩
    · refine ⟨s, Run.Reaches.refl s, h, fun x => ⟨Or.inl, ?_⟩⟩
      rintro (hx | ⟨q, hq⟩)
      · exact hx
      · exact absurd ⟨q, x, hq⟩ hl

theorem overflow_of_no_room {log : LogArea} (h : GroupInv s) (hn : s.panic = none)
    (hfull : ¬ s.claimed.encard < log.size) :
    ∃ t, Run.Reaches (groupStep log) s t ∧ ¬ (t.lh.length : ℤ) ≤ (log.size : ℤ) - 1 := by
  obtain ⟨A, hA, -⟩ := h.proc.active
  obtain ⟨t, ht, hinv, hmem⟩ : ∃ t, Run.Reaches (groupStep log) s t ∧ GroupInv t ∧
      ∀ x, x ∈ t.lh ↔ x ∈ s.claimed :=
    exists_append_all A h hn (fun q x hq => (hA q).mpr (by simp [hq, LogPc.Active]))
  refine ⟨t, ht, ?_⟩
  have heq : ((t.lh.toFinset : Finset ℕ) : Set ℕ) = s.claimed := by
    ext x
    simpa using hmem x
  rw [← heq, Set.encard_coe_eq_coe_finsetCard,
    List.toFinset_card_of_nodup hinv.head.nodup] at hfull
  have hge : ¬ t.lh.length < log.size := by exact_mod_cast hfull
  omega

/-- The test before the lock does not bound the header: two operations that both pass it
append past the last log block. -/
theorem header_outgrows_log :
    ¬ ∀ (as : List (LogAct (Fin 3))) (t : GroupState (Fin 3)),
      Run.exec (groupStep (initlog mkfsSb)) GroupState.init as = some t →
      HeaderFits (initlog mkfsSb) t := by
  intro hall
  have hrun : (Run.exec (groupStep (initlog mkfsSb)) GroupState.init raceRun).map
      (fun s => s.lh.length) = some 30 := by decide +kernel
  obtain ⟨t, ht, hl⟩ := Option.map_eq_some_iff.mp hrun
  have hfit := (hall raceRun t ht).1
  rw [hl] at hfit
  exact absurd hfit (by decide)

example : Run.Along (groupStep (initlog mkfsSb)) (WithinOp MAXOPBLOCKS) GroupState.init
    raceRun := by
  decide +kernel

/-- With the log `mkfs` makes, the header stays within the log in every run in which each
`log_write` that passes its test leaves room for all sectors claimed by then; a test passed
without that room can be continued to a header larger than the log. -/
theorem header_fits_of_room :
    (∀ (as : List (LogAct P)) (t : GroupState P),
      Run.exec (groupStep (initlog mkfsSb)) GroupState.init as = some t →
      Run.Along (groupStep (initlog mkfsSb)) (RoomFor (initlog mkfsSb)) GroupState.init as →
      HeaderFits (initlog mkfsSb) t) ∧
    ∀ (s s' : GroupState P) (p : P) (x : ℕ),
      Run.Reaches (groupStep (initlog mkfsSb)) GroupState.init s →
      groupStep (initlog mkfsSb) s (.check p x) = some s' → s'.panic = none →
      ¬ RoomFor (initlog mkfsSb) s (.check p x) →
      ∃ t, Run.Reaches (groupStep (initlog mkfsSb)) s' t ∧ ¬ HeaderFits (initlog mkfsSb) t := by
  refine ⟨fun as t ht hroom => ?_, fun s s' p x hs hstep hn hroom => ?_⟩
  · have hinv := Run.exec_invariant
      (I := fun s => GroupInv s ∧ s.claimed.encard < (initlog mkfsSb).size)
      (fun s a u hI hC hu => ⟨hI.1.step _ hu, claimed_step hI.1 hI.2 hC hu⟩)
      ⟨GroupInv.init, by simp [GroupState.claimed, GroupState.init, initlog, mkfsSb, LOGSIZE,
        MAXOPBLOCKS]⟩ hroom ht
    exact headerFits_of_claimed (by decide) hinv.1 hinv.2
  · have hi := GroupInv.of_reaches _ hs
    obtain ⟨-, hp, ⟨-, rfl⟩ | ⟨-, -, rfl⟩⟩ := check_cases hstep hi
    · simp at hn
    · simp only [RoomFor, not_forall] at hroom
      obtain ⟨-, hfull⟩ := hroom
      rw [← claimed_check hp] at hfull
      obtain ⟨t, ht, hbig⟩ := overflow_of_no_room (hi.step _ hstep) hn hfull
      exact ⟨t, ht, fun hfit => hbig hfit.1⟩

/-- Two operations make the test of `log_write` before either of them appends. -/
theorem header_fits_of_room_two :
    ∃ t : GroupState (Fin 3),
      Run.exec (groupStep (initlog mkfsSb)) GroupState.init
        (beginThree ++ [.check 1 209, .check 2 309, .append 1, .append 2]) = some t ∧
      t.lh = [209, 309] ∧
      Run.Along (groupStep (initlog mkfsSb)) (RoomFor (initlog mkfsSb)) GroupState.init
        (beginThree ++ [.check 1 209, .check 2 309, .append 1, .append 2]) ∧
      HeaderFits (initlog mkfsSb) t := by
  have hroom : Run.Along (groupStep (initlog mkfsSb)) (RoomFor (initlog mkfsSb)) GroupState.init
      (beginThree ++ [.check 1 209, .check 2 309, .append 1, .append 2]) := by
    have hfew (s : GroupState (Fin 3)) (p : Fin 3) (x : ℕ) (hx : x ∈ ({209, 309} : Finset ℕ))
        (hlh : s.lh = []) (hpc : ∀ q, s.pc q = .inOp ∨ s.pc q = .logging 209) :
        RoomFor (initlog mkfsSb) s (.check p x) := by
      intro _
      have hsub : insert x s.claimed ⊆ (({209, 309} : Finset ℕ) : Set ℕ) := by
        rintro y (rfl | hy | ⟨q, hq⟩)
        · exact hx
        · simp [hlh] at hy
        · rcases hpc q with h | h <;> simp_all
      refine (Set.encard_le_encard hsub).trans_lt ?_
      rw [Set.encard_coe_eq_coe_finsetCard]
      exact_mod_cast (by decide : 2 < 30)
    simp only [beginThree, List.cons_append, List.nil_append]
    iterate 10 rw [Run.along_cons rfl]
    exact ⟨trivial, trivial, trivial, trivial, trivial, trivial,
      hfew _ _ _ (by decide) rfl (by decide), hfew _ _ _ (by decide) rfl (by decide), trivial,
      trivial, trivial⟩
  exact ⟨_, rfl, rfl, hroom, header_fits_of_room.1 _ _ rfl hroom⟩

end Xv6
