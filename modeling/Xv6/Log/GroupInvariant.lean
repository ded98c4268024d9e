import Xv6.Log.Group

/-! The invariant of group commit and what it excludes. -/
namespace Xv6

variable {P : Type*}

/-- How the processes and the counters of `struct log` fit together: `active` counts the
operations in progress, and a running commit excludes them. -/
structure ProcInv (pc : P → LogPc) (outstanding : ℤ) (committing : Bool) : Prop where
  active : ∃ A : Finset P, (∀ p, p ∈ A ↔ (pc p).Active) ∧ outstanding = A.card
  committer : committing = true ↔ ∃ p, (pc p).Committing
  single : ∀ p q, (pc p).Committing → (pc q).Committing → p = q
  exclusive : committing = true → ∀ p, ¬ (pc p).Active

/-- The header lists each sector of this group of operations once. -/
structure HeadInv (s : GroupState P) : Prop where
  nodup : s.lh.Nodup
  header : ∀ x, x ∈ s.lh ↔ x ∈ s.ended ∨ ∃ p, x ∈ s.cur p
  logged : ∀ x, x ∈ s.lh ↔ x ∈ s.logged
  cur : ∀ p, ¬ (s.pc p).Active → s.cur p = []

structure GroupInv (s : GroupState P) : Prop where
  proc : ProcInv s.pc s.outstanding s.committing
  head : HeadInv s
  panic : s.panic = none ∨ s.panic = some "too big a transaction"

theorem GroupInv.init : GroupInv (GroupState.init : GroupState P) := by
  refine ⟨⟨⟨∅, ?_, rfl⟩, ?_, ?_, ?_⟩, ⟨?_, ?_, ?_, ?_⟩, Or.inl rfl⟩ <;>
    simp [GroupState.init, LogPc.Active, LogPc.Committing]

namespace ProcInv

variable {pc : P → LogPc} {outstanding : ℤ} {committing : Bool}

theorem congr (h : ProcInv pc outstanding committing) {pc' : P → LogPc}
    (ha : ∀ p, (pc' p).Active ↔ (pc p).Active)
    (hc : ∀ p, (pc' p).Committing ↔ (pc p).Committing) : ProcInv pc' outstanding committing := by
  obtain ⟨A, hA, hcard⟩ := h.active
  refine ⟨⟨A, fun p => (hA p).trans (ha p).symm, hcard⟩, ?_, ?_, ?_⟩
  · simp only [hc]
    exact h.committer
  · intro p q hp hq
    exact h.single p q ((hc p).mp hp) ((hc q).mp hq)
  · intro hcom p hp
    exact h.exclusive hcom p ((ha p).mp hp)

theorem outstanding_pos (h : ProcInv pc outstanding committing) {p : P} (hp : (pc p).Active) :
    0 < outstanding := by
  obtain ⟨A, hA, rfl⟩ := h.active
  exact_mod_cast Finset.card_pos.mpr ⟨p, (hA p).mpr hp⟩

theorem not_committing (h : ProcInv pc outstanding committing) {p : P} (hp : (pc p).Active) :
    committing = false := by
  by_contra hc
  exact h.exclusive (by simpa using hc) p hp

theorem outstanding_eq_zero (h : ProcInv pc outstanding committing) (hc : committing = true) :
    outstanding = 0 := by
  obtain ⟨A, hA, rfl⟩ := h.active
  have he : A = ∅ := by
    apply Finset.eq_empty_of_forall_notMem
    intro p hp
    exact h.exclusive hc p ((hA p).mp hp)
  simp [he]

variable [DecidableEq P]

theorem update (h : ProcInv pc outstanding committing) {p : P} {c : LogPc}
    (ha : c.Active ↔ (pc p).Active) (hc : c.Committing ↔ (pc p).Committing) :
    ProcInv (Function.update pc p c) outstanding committing := by
  apply h.congr <;> intro q <;> by_cases hq : q = p
  · subst hq
    simpa using ha
  · rw [Function.update_of_ne hq]
  · subst hq
    simpa using hc
  · rw [Function.update_of_ne hq]

theorem enter (h : ProcInv pc outstanding committing) (hcom : committing = false) {p : P}
    (hp : ¬ (pc p).Active) : ProcInv (Function.update pc p .inOp) (outstanding + 1) committing := by
  obtain ⟨A, hA, hcard⟩ := h.active
  have hnc : ∀ q, ¬ (pc q).Committing := by
    intro q hq
    rw [h.committer.mpr ⟨q, hq⟩] at hcom
    contradiction
  have hpA : p ∉ A := fun hp' => hp ((hA p).mp hp')
  have hnc' : ∀ q, ¬ (Function.update pc p LogPc.inOp q).Committing := by
    intro q
    by_cases hq : q = p
    · subst hq
      simp [LogPc.Committing]
    · rw [Function.update_of_ne hq]
      exact hnc q
  refine ⟨⟨insert p A, fun q => ?_, ?_⟩, ?_, ?_, ?_⟩
  · by_cases hq : q = p
    · subst hq
      simp [LogPc.Active]
    · simp [hq, hA]
  · simp [Finset.card_insert_of_notMem hpA, hcard]
  · simp [hcom, hnc']
  · exact fun q _ hq _ => absurd hq (hnc' q)
  · simp [hcom]

theorem leave (h : ProcInv pc outstanding committing) {p : P} (hp : (pc p).Active) :
    ProcInv (Function.update pc p (if outstanding - 1 = 0 then .commit .start else .idle))
      (outstanding - 1) (decide (outstanding - 1 = 0)) := by
  have hcom := h.not_committing hp
  obtain ⟨A, hA, hcard⟩ := h.active
  have hnc : ∀ q, ¬ (pc q).Committing := by
    intro q hq
    rw [h.committer.mpr ⟨q, hq⟩] at hcom
    contradiction
  have hpA : p ∈ A := (hA p).mpr hp
  have hcard' : outstanding - 1 = (A.erase p).card := by
    have hpos := Finset.card_pos.mpr ⟨p, hpA⟩
    rw [Finset.card_erase_of_mem hpA, hcard]
    omega
  have hact : ∀ q, q ∈ A.erase p ↔
      (Function.update pc p (if outstanding - 1 = 0 then .commit .start else .idle) q).Active := by
    intro q
    by_cases hq : q = p
    · subst hq
      split_ifs <;> simp [LogPc.Active]
    · simp [hq, hA]
  refine ⟨⟨A.erase p, hact, hcard'⟩, ?_, ?_, ?_⟩
  · rw [decide_eq_true_iff]
    refine ⟨fun hz => ⟨p, by simp [hz, LogPc.Committing]⟩, ?_⟩
    rintro ⟨q, hq⟩
    by_cases hqp : q = p
    · subst hqp
      by_contra hz
      simp [hz, LogPc.Committing] at hq
    · rw [Function.update_of_ne hqp] at hq
      exact absurd hq (hnc q)
  · have hself : ∀ q, (Function.update pc p
        (if outstanding - 1 = 0 then .commit .start else .idle) q).Committing → q = p := by
      intro q hq
      by_contra hqp
      rw [Function.update_of_ne hqp] at hq
      exact hnc q hq
    intro q r hq hr
    rw [hself q hq, hself r hr]
  · intro hz q hq
    rw [decide_eq_true_iff] at hz
    have he : A.erase p = ∅ := by
      rw [← Finset.card_eq_zero]
      omega
    have hmem := (hact q).mpr hq
    simp [he] at hmem

theorem finish (h : ProcInv pc outstanding committing) {p : P} (hp : (pc p).Committing) :
    ProcInv (Function.update pc p .idle) outstanding false := by
  have hcom := h.committer.mpr ⟨p, hp⟩
  obtain ⟨A, hA, hcard⟩ := h.active
  have hnc : ∀ q, ¬ (Function.update pc p LogPc.idle q).Committing := by
    intro q
    by_cases hq : q = p
    · subst hq
      simp [LogPc.Committing]
    · rw [Function.update_of_ne hq]
      exact fun hc => hq (h.single q p hc hp)
  refine ⟨⟨A, fun q => ?_, hcard⟩, by simp [hnc], fun q _ hq _ => absurd hq (hnc q), by simp⟩
  by_cases hq : q = p
  · subst hq
    rw [hA]
    exact iff_of_false (h.exclusive hcom q) (by simp [LogPc.Active])
  · rw [hA, Function.update_of_ne hq]

end ProcInv

theorem HeadInv.setPcs {s : GroupState P} (h : HeadInv s) {s' : GroupState P}
    (hpc : ∀ p, (s.pc p).Active → (s'.pc p).Active) (hlh : s'.lh = s.lh)
    (hcur : s'.cur = s.cur) (hended : s'.ended = s.ended) (hlogged : s'.logged = s.logged) :
    HeadInv s' := by
  obtain ⟨h1, h2, h3, h4⟩ := h
  refine ⟨hlh ▸ h1, ?_, ?_, ?_⟩
  · rw [hlh, hcur, hended]
    exact h2
  · rw [hlh, hlogged]
    exact h3
  · intro p hp
    rw [hcur]
    exact h4 p (fun hp' => hp (hpc p hp'))

theorem absorb_eq (lh : List ℕ) (x : ℕ) :
    GroupState.absorb lh x = if x ∈ lh then lh else lh ++ [x] := by
  unfold GroupState.absorb
  dsimp only
  split_ifs with hi hx hx
  · exact absurd hi (Nat.ne_of_lt (List.findIdx_lt_length_of_exists ⟨x, hx, by simp⟩))
  · rfl
  · have hlt : lh.findIdx (· == x) < lh.length :=
      List.findIdx_lt_length_of_exists ⟨x, hx, by simp⟩
    have hget := List.findIdx_getElem (w := hlt)
    have hv : lh[lh.findIdx (· == x)] = x := by simpa using hget
    conv_rhs => rw [← List.set_getElem_self hlt]
    rw [hv]
  · apply absurd _ hi
    apply List.findIdx_eq_length.mpr
    intro y hy
    simp only [beq_eq_false_iff_ne]
    rintro rfl
    exact hx hy

theorem mem_absorb {lh : List ℕ} {x y : ℕ} :
    y ∈ GroupState.absorb lh x ↔ y ∈ lh ∨ y = x := by
  rw [absorb_eq]
  split_ifs with hx
  · constructor
    · exact Or.inl
    · rintro (h | rfl)
      · exact h
      · exact hx
  · simp

theorem nodup_absorb {lh : List ℕ} {x : ℕ} (h : lh.Nodup) : (GroupState.absorb lh x).Nodup := by
  rw [absorb_eq]
  split_ifs with hx
  · exact h
  · rw [List.nodup_append]
    exact ⟨h, by simp, by rintro a ha b hb rfl; simp at hb; exact hx (hb ▸ ha)⟩

variable {s : GroupState P} {p : P}

theorem GroupInv.wakeup (h : GroupInv s) : GroupInv s.wakeup := by
  have ha : ∀ q, (s.wakeup.pc q).Active ↔ (s.pc q).Active := by
    intro q
    by_cases hq : s.pc q = .asleep <;> simp [GroupState.wakeup, hq, LogPc.Active]
  have hc : ∀ q, (s.wakeup.pc q).Committing ↔ (s.pc q).Committing := by
    intro q
    by_cases hq : s.pc q = .asleep <;> simp [GroupState.wakeup, hq, LogPc.Committing]
  exact ⟨h.proc.congr ha hc, h.head.setPcs (fun q => (ha q).mpr) rfl rfl rfl rfl, h.panic⟩

variable [DecidableEq P]

theorem GroupInv.setPc (h : GroupInv s) {c : LogPc} (ha : c.Active ↔ (s.pc p).Active)
    (hc : c.Committing ↔ (s.pc p).Committing) : GroupInv (s.setPc p c) := by
  refine ⟨h.proc.update ha hc, h.head.setPcs (fun q hq => ?_) rfl rfl rfl rfl, h.panic⟩
  by_cases hqp : q = p
  · subst hqp
    simpa [GroupState.setPc] using ha.mpr hq
  · simpa [GroupState.setPc, Function.update_of_ne hqp] using hq

theorem GroupInv.beginOp (h : GroupInv s) (hp : s.pc p = .waiting) :
    GroupInv (s.beginOp p) := by
  have hsleep : GroupInv (s.setPc p .asleep) :=
    h.setPc (by simp [hp, LogPc.Active]) (by simp [hp, LogPc.Committing])
  unfold GroupState.beginOp
  split_ifs with hc hfull
  · exact hsleep
  · exact hsleep
  · have hna : ¬ (s.pc p).Active := by simp [hp, LogPc.Active]
    refine ⟨h.proc.enter (by simpa using hc) hna,
      h.head.setPcs (fun q hq => ?_) rfl rfl rfl rfl, h.panic⟩
    have hqp : q ≠ p := by
      rintro rfl
      exact hna hq
    simpa [GroupState.setPc, Function.update_of_ne hqp] using hq

theorem GroupInv.logCheck (log : LogArea) (h : GroupInv s) (hp : s.pc p = .inOp) (x : ℕ) :
    GroupInv (s.logCheck log p x) := by
  have hpos := h.proc.outstanding_pos (p := p) (by simp [hp, LogPc.Active])
  unfold GroupState.logCheck
  split_ifs with hbig hout
  · exact ⟨h.proc, h.head.setPcs (fun q hq => hq) rfl rfl rfl rfl, Or.inr rfl⟩
  · omega
  · exact h.setPc (by simp [hp, LogPc.Active]) (by simp [hp, LogPc.Committing])

theorem GroupInv.logAppend (h : GroupInv s) {x : ℕ} (hp : s.pc p = .logging x) :
    GroupInv (s.logAppend p x) := by
  have hs : GroupInv (s.setPc p .inOp) :=
    h.setPc (by simp [hp, LogPc.Active]) (by simp [hp, LogPc.Committing])
  refine ⟨hs.proc, ⟨nodup_absorb h.head.nodup, ?_, ?_, ?_⟩, h.panic⟩
  · intro y
    have hc : (∃ q, y ∈ Function.update s.cur p (s.cur p ++ [x]) q) ↔
        (∃ q, y ∈ s.cur q) ∨ y = x := by
      constructor
      · rintro ⟨q, hq⟩
        by_cases hqp : q = p
        · subst hqp
          rw [Function.update_self, List.mem_append, List.mem_singleton] at hq
          exact hq.imp (fun hq => ⟨q, hq⟩) id
        · rw [Function.update_of_ne hqp] at hq
          exact Or.inl ⟨q, hq⟩
      · rintro (⟨q, hq⟩ | rfl)
        · refine ⟨q, ?_⟩
          by_cases hqp : q = p
          · subst hqp
            simp [hq]
          · rwa [Function.update_of_ne hqp]
        · exact ⟨p, by simp⟩
    simp only [GroupState.logAppend, GroupState.setPc, mem_absorb, hc, h.head.header, or_assoc]
  · intro y
    simp [GroupState.logAppend, GroupState.setPc, mem_absorb, h.head.logged]
  · intro q hq
    have hqp : q ≠ p := by
      rintro rfl
      simp [GroupState.logAppend, GroupState.setPc, LogPc.Active] at hq
    simp only [GroupState.logAppend, Function.update_of_ne hqp]
    exact hs.head.cur q hq

theorem GroupInv.endOp (h : GroupInv s) (hp : s.pc p = .inOp) : GroupInv (s.endOp p) := by
  have hact : (s.pc p).Active := by simp [hp, LogPc.Active]
  have hcom := h.proc.not_committing hact
  have hleave := h.proc.leave hact
  have hhead (c : LogPc) : HeadInv { s with
      outstanding := s.outstanding - 1, cur := Function.update s.cur p [],
      ended := s.ended ++ s.cur p, pc := Function.update s.pc p c } := by
    refine ⟨h.head.nodup, fun y => ?_, h.head.logged, fun q hq => ?_⟩
    · have hc : (∃ q, y ∈ s.cur q) ↔
          y ∈ s.cur p ∨ ∃ q, y ∈ Function.update s.cur p [] q := by
        constructor
        · rintro ⟨q, hq⟩
          by_cases hqp : q = p
          · exact Or.inl (hqp ▸ hq)
          · exact Or.inr ⟨q, by rwa [Function.update_of_ne hqp]⟩
        · rintro (hq | ⟨q, hq⟩)
          · exact ⟨p, hq⟩
          · by_cases hqp : q = p
            · subst hqp
              simp at hq
            · exact ⟨q, by rwa [Function.update_of_ne hqp] at hq⟩
      simp only [h.head.header, hc, List.mem_append, or_assoc]
    · by_cases hqp : q = p
      · subst hqp
        simp
      · dsimp only at hq ⊢
        rw [Function.update_of_ne hqp] at hq ⊢
        exact h.head.cur q hq
  unfold GroupState.endOp
  dsimp only
  split_ifs with hc hz
  · simp [hcom] at hc
  · rw [if_pos hz, decide_eq_true hz] at hleave
    have hh := hhead (.commit .start)
    exact ⟨hleave, hh.setPcs (fun q hq => hq) rfl rfl rfl rfl, h.panic⟩
  · rw [if_neg hz, decide_eq_false hz, ← hcom] at hleave
    exact GroupInv.wakeup ⟨hleave, hhead .idle, h.panic⟩

theorem GroupInv.commitStep (h : GroupInv s) {c : CommitPc} (hp : s.pc p = .commit c) :
    GroupInv (s.commitStep p c) := by
  have hc (d : CommitPc) : GroupInv (s.setPc p (.commit d)) :=
    h.setPc (by simp [hp, LogPc.Active]) (by simp [hp, LogPc.Committing])
  have hdone : GroupInv (s.setPc p .committed) :=
    h.setPc (by simp [hp, LogPc.Active]) (by simp [hp, LogPc.Committing])
  have hcom : s.committing = true := h.proc.committer.mpr ⟨p, by simp [hp, LogPc.Committing]⟩
  cases c with
  | start =>
    simp only [GroupState.commitStep]
    split_ifs
    · exact hc _
    · exact hdone
  | writeLog tail =>
    simp only [GroupState.commitStep]
    split_ifs
    · exact hc _
    · exact hc _
  | writeHead => exact hc _
  | install tail =>
    simp only [GroupState.commitStep]
    split_ifs
    · exact hc _
    · exact hc _
  | clear =>
    have hcl := hc .clearHead
    have hnone : ∀ q, s.cur q = [] := fun q => h.head.cur q (h.proc.exclusive hcom q)
    refine ⟨hcl.proc, ⟨List.nodup_nil, ?_, ?_, fun q _ => hnone q⟩, h.panic⟩
    · simp [GroupState.commitStep, GroupState.setPc, hnone]
    · simp [GroupState.commitStep]
  | clearHead => exact hdone

theorem GroupInv.endCommit (h : GroupInv s) (hp : s.pc p = .committed) :
    GroupInv (s.endCommit p) := by
  have hcm : (s.pc p).Committing := by simp [hp, LogPc.Committing]
  have hi : GroupInv { s.setPc p .idle with committing := false } := by
    refine ⟨h.proc.finish hcm, h.head.setPcs (fun q hq => ?_) rfl rfl rfl rfl, h.panic⟩
    exact absurd hq (h.proc.exclusive (h.proc.committer.mpr ⟨p, hcm⟩) q)
  exact hi.wakeup

theorem GroupInv.step (log : LogArea) {a : LogAct P} {s' : GroupState P} (h : GroupInv s)
    (hs : groupStep log s a = some s') : GroupInv s' := by
  obtain ⟨-, hm⟩ := groupStep_move hs
  cases hm with
  | call hp => exact h.setPc (by simp [hp, LogPc.Active]) (by simp [hp, LogPc.Committing])
  | test hp => exact h.beginOp hp
  | wake hp => exact h.setPc (by simp [hp, LogPc.Active]) (by simp [hp, LogPc.Committing])
  | check hp => exact h.logCheck log hp _
  | append hp => exact h.logAppend hp
  | endOp hp => exact h.endOp hp
  | commit hp => exact h.commitStep hp
  | finish hp => exact h.endCommit hp

theorem GroupInv.of_reaches (log : LogArea) (h : Run.Reaches (groupStep log) GroupState.init s) :
    GroupInv s :=
  h.invariant (fun _ _ _ hi hs => hi.step log hs) GroupInv.init

/-- While a commit is running no process is in an operation, so none can log or leave. -/
theorem GroupInv.no_log_during_commit (log : LogArea) (h : GroupInv s)
    (hc : s.committing = true) {a : LogAct P} {s' : GroupState P}
    (hs : groupStep log s a = some s') :
    (∀ q x, a ≠ .check q x) ∧ (∀ q, a ≠ .append q) ∧
      ∀ q, a = .test q → ¬ (s'.pc q).Active := by
  obtain ⟨-, hm⟩ := groupStep_move hs
  have hex := h.proc.exclusive hc
  cases hm with
  | test hp => simp [GroupState.beginOp, hc, GroupState.setPc, LogPc.Active]
  | @check q x hp => exact absurd (by simp [hp, LogPc.Active]) (hex q)
  | @append q x hp => exact absurd (by simp [hp, LogPc.Active]) (hex q)
  | _ => simp

theorem GroupInv.commit_start (log : LogArea) (h : GroupInv s) {s' : GroupState P}
    (hs : groupStep log s (.endOp p) = some s') (hc : s'.pc p = .commit .start) :
    s'.lh.Nodup ∧ (∀ x, x ∈ s'.lh ↔ x ∈ s'.ended) ∧ ∀ q, ¬ (s'.pc q).Active := by
  have h' := h.step log hs
  have hcom : s'.committing = true :=
    h'.proc.committer.mpr ⟨p, by simp [hc, LogPc.Committing]⟩
  have hna := h'.proc.exclusive hcom
  refine ⟨h'.head.nodup, fun x => ?_, hna⟩
  rw [h'.head.header]
  constructor
  · rintro (hx | ⟨q, hq⟩)
    · exact hx
    · simp [h'.head.cur q (hna q)] at hq
  · exact Or.inl

/-- Group commit never captures half an operation: in every state that any interleaving
reaches, `outstanding` counts the operations in progress, a running commit excludes them and
every log write and admission, the two panics about misuse of the log are unreachable, and a
commit starts with exactly the sectors of the operations that ended since the last one. -/
theorem group_commit_whole_operations (log : LogArea) (s : GroupState P)
    (h : Run.Reaches (groupStep log) GroupState.init s) :
    (s.committing = true → s.outstanding = 0) ∧
    (∃ A : Finset P, (∀ p, p ∈ A ↔ (s.pc p).Active) ∧ s.outstanding = A.card) ∧
    (s.committing = true ↔ ∃ p, (s.pc p).Committing) ∧
    (∀ a s', s.committing = true → groupStep log s a = some s' →
      (∀ q x, a ≠ .check q x) ∧ (∀ q, a ≠ .append q) ∧
        ∀ q, a = .test q → ¬ (s'.pc q).Active) ∧
    s.panic ≠ some "log.committing" ∧ s.panic ≠ some "log_write outside of trans" ∧
    ∀ p s', groupStep log s (.endOp p) = some s' → s'.pc p = .commit .start →
      s'.lh.Nodup ∧ (∀ x, x ∈ s'.lh ↔ x ∈ s'.ended) ∧ ∀ q, ¬ (s'.pc q).Active := by
  have hi := GroupInv.of_reaches log h
  refine ⟨hi.proc.outstanding_eq_zero, hi.proc.active, hi.proc.committer,
    fun a s' hc hs => hi.no_log_during_commit log hc hs, ?_, ?_,
    fun p s' hs hc => hi.commit_start log hs hc⟩
  · rcases hi.panic with hp | hp <;> simp [hp]
  · rcases hi.panic with hp | hp <;> simp [hp]

/-- One process has begun an operation and a second one has logged a sector. -/
theorem group_commit_whole_operations_two :
    ∃ s : GroupState (Fin 2),
      Run.exec (groupStep ⟨994, 30⟩) GroupState.init
        [.call 0, .test 0, .call 1, .test 1, .check 1 40, .append 1] = some s ∧
      s.lh = [40] ∧ ∃ A : Finset (Fin 2), (∀ p, p ∈ A ↔ (s.pc p).Active) ∧
        s.outstanding = A.card :=
  ⟨_, rfl, rfl, (group_commit_whole_operations ⟨994, 30⟩ _
    ⟨[.call 0, .test 0, .call 1, .test 1, .check 1 40, .append 1], rfl⟩).2.1⟩

end Xv6
