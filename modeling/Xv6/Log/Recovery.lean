import Xv6.Log.Commit

/-! Crash atomicity of the redo log. A commit or a recovery is cut after any number of its
sector writes; recoveries are restarted until one completes. -/
namespace Xv6

/-- A transaction handed to `commit`: the sectors of the in-memory header and the contents
the buffer cache holds for them. -/
structure Txn (log : LogArea) where
  sector : List ℕ
  data : ℕ → Block
  nodup : sector.Nodup
  room : sector.length + 1 ≤ log.size
  array : sector.length ≤ LOGSIZE
  uint : ∀ x ∈ sector, x < 2 ^ 32
  home : ∀ x ∈ sector, ¬ log.Mem x

namespace Txn

variable {log : LogArea}

/-- The disk with all logged sectors replaced by their cached contents. -/
def install (t : Txn log) (d : Disk) : Disk := fun x => if x ∈ t.sector then t.data x else d x

theorem start_notMem (t : Txn log) : log.start ∉ t.sector := by
  intro h
  have hroom := t.room
  exact t.home _ h ⟨le_rfl, by omega⟩

end Txn

def LogSys.stage {log : LogArea} (t : Txn log) (s : LogSys) : LogSys :=
  { disk := s.disk, mem := t.install s.mem, lh := t.sector, writes := [] }

/-- The disk when a run from `d` that would make the writes `ws` stops after `k` of them. -/
def cut (k : ℕ) (ws : List (ℕ × Block)) (d : Disk) : Disk := Redo.apply (ws.take k) d

/-- Recoveries started one after another, the `i`th stopped after `stops[i]` writes. -/
def interrupted (log : LogArea) : List ℕ → Disk → Disk
  | [], d => d
  | k :: stops, d =>
    interrupted log stops (cut k (recoverFromLog log (LogSys.boot d)).writes d)

def recovered (log : LogArea) (stops : List ℕ) (d : Disk) : LogSys :=
  recoverFromLog log (LogSys.boot (interrupted log stops d))

/-- Some write of the header sector has reached the disk. -/
def HeadReached (log : LogArea) (ws : List (ℕ × Block)) : Prop := ∃ w ∈ ws, w.1 = log.start

instance (log : LogArea) (ws : List (ℕ × Block)) : Decidable (HeadReached log ws) := by
  unfold HeadReached
  infer_instance

/-- The log is empty and the sectors outside it are those of `e`. -/
structure Idle (log : LogArea) (e d : Disk) : Prop where
  head : headCount (d log.start) = 0
  home : ∀ x, ¬ log.Mem x → d x = e x

/-- The log holds `t` and the sectors outside it that `t` does not write are those of `e`. -/
structure Pending {log : LogArea} (t : Txn log) (e d : Disk) : Prop where
  head : headSectors (d log.start) = t.sector
  data : ∀ i (hi : i < t.sector.length), d (log.start + 0 + 1 + i) = t.data t.sector[i]
  home : ∀ x, ¬ log.Mem x → x ∉ t.sector → d x = e x

variable {log : LogArea}

theorem Idle.congr {e d d' : Disk} (h : Idle log e d) (hh : headCount (d' log.start) = 0)
    (hd : ∀ x, ¬ log.Mem x → d' x = d x) : Idle log e d' :=
  ⟨hh, fun x hx => (hd x hx).trans (h.home x hx)⟩

def finishWrites (log : LogArea) (data : ℕ → Block) (lh : List ℕ) (b : Block) :
    List (ℕ × Block) := homeWrites data lh ++ [(log.start, putHead b [])]

theorem headCount_putHead_nil (b : Block) : headCount (putHead b []) = 0 :=
  headCount_putHead (by simp)

theorem Pending.cut_home {t : Txn log} {e d : Disk} (h : Pending t e d) (k : ℕ) :
    Pending t e (cut k (homeWrites t.data t.sector) d) := by
  have hout : ∀ x, x ∉ t.sector → cut k (homeWrites t.data t.sector) d x = d x := by
    intro x hx
    apply Redo.apply_of_notMem
    intro w hw he
    exact hx (he ▸ mem_homeWrites (List.mem_of_mem_take hw))
  refine ⟨?_, ?_, ?_⟩
  · rw [hout _ t.start_notMem]
    exact h.head
  · intro i hi
    rw [hout, h.data i hi]
    intro hmem
    have hroom := t.room
    exact t.home _ hmem ⟨by omega, by omega⟩
  · intro x hx hxs
    rw [hout x hxs]
    exact h.home x hx hxs

theorem Pending.finish {t : Txn log} {e d : Disk} (h : Pending t e d) (b : Block) :
    Idle log (t.install e) (Redo.apply (finishWrites log t.data t.sector b) d) := by
  have hroom := t.room
  rw [finishWrites, Redo.apply_append]
  refine ⟨?_, ?_⟩
  · simp [headCount_putHead_nil]
  · intro x hx
    have hne : x ≠ log.start := by
      rintro rfl
      exact hx ⟨le_rfl, by omega⟩
    rw [Redo.apply_cons, Redo.apply_nil, Function.update_of_ne hne, apply_homeWrites t.nodup]
    unfold Txn.install
    split_ifs with hxs
    · rfl
    · exact h.home x hx hxs

theorem Pending.cut_finish {t : Txn log} {e d : Disk} (h : Pending t e d) (k : ℕ) (b : Block) :
    Pending t e (cut k (finishWrites log t.data t.sector b) d) ∨
      Idle log (t.install e) (cut k (finishWrites log t.data t.sector b) d) := by
  by_cases hk : k ≤ (homeWrites t.data t.sector).length
  · left
    rw [cut, finishWrites, List.take_append_of_le_length hk]
    exact h.cut_home k
  · right
    rw [cut, List.take_of_length_le]
    · exact h.finish b
    · simp only [finishWrites, List.length_append, List.length_singleton]
      omega

theorem wrote_finish {t : Txn log} {s : LogSys} (hlh : s.lh = t.sector)
    (hdata : ∀ i (hi : i < t.sector.length), s.mem (log.start + 0 + 1 + i) = t.data t.sector[i]) :
    Wrote s (writeHead log { installTrans log s with lh := [] })
      (finishWrites log t.data t.sector (s.mem log.start)) := by
  have hroom := t.room
  have h1 := wrote_installFrom t.home 0 (by omega) s
  rw [installWrites_eq_home hdata] at h1
  have hm : (installFrom log 0 t.sector s).mem log.start = s.mem log.start := by
    rw [h1.mem]
    apply Redo.apply_of_notMem
    intro w hw he
    exact t.start_notMem (he ▸ mem_homeWrites hw)
  have h2 := wrote_bwrite (installFrom log 0 t.sector s) log.start (putHead (s.mem log.start) [])
  have h := h1.trans h2
  simp only [installTrans, hlh, writeHead, LogSys.bread, hm]
  exact ⟨h.disk, h.mem, h.writes⟩

/-! Recovery. -/

theorem wrote_recover_pending {t : Txn log} {e d : Disk} (h : Pending t e d) :
    Wrote (LogSys.boot d) (recoverFromLog log (LogSys.boot d))
      (finishWrites log t.data t.sector (d log.start)) := by
  have hw := wrote_finish (t := t) (s := readHead log (LogSys.boot d)) h.head h.data
  exact ⟨hw.disk, hw.mem, hw.writes⟩

theorem wrote_recover_idle {e d : Disk} (h : Idle log e d) :
    Wrote (LogSys.boot d) (recoverFromLog log (LogSys.boot d))
      [(log.start, putHead (d log.start) [])] := by
  have hn : headSectors (d log.start) = [] := headSectors_eq_nil h.head
  simp only [recoverFromLog, installTrans, readHead, LogSys.bread, LogSys.boot, hn, installFrom]
  exact wrote_writeHead log (LogSys.boot d)

theorem Idle.cut_clear {e d : Disk} (hsize : 0 < log.size) (h : Idle log e d) (k : ℕ)
    (b : Block) : Idle log e (cut k [(log.start, putHead b [])] d) := by
  cases k with
  | zero => exact h
  | succ k =>
    apply h.congr
    · simp [cut, headCount_putHead_nil]
    · intro x hx
      have hne : x ≠ log.start := by
        rintro rfl
        exact hx ⟨le_rfl, by omega⟩
      simp [cut, Function.update_of_ne hne]

/-- What every recovery, complete or not, keeps: the transaction is pending or installed, or
nothing of it is visible. -/
def Settled (t : Txn log) (e : Disk) (committed : Prop) (d : Disk) : Prop :=
  (committed → Pending t e d ∨ Idle log (t.install e) d) ∧ (¬ committed → Idle log e d)

theorem boot_writes {d : Disk} {r : LogSys} {ws : List (ℕ × Block)}
    (h : Wrote (LogSys.boot d) r ws) : r.writes = ws := h.writes

theorem Settled.cut_recover {t : Txn log} {e d : Disk} {c : Prop} (h : Settled t e c d) (k : ℕ) :
    Settled t e c (cut k (recoverFromLog log (LogSys.boot d)).writes d) := by
  have hsize : 0 < log.size := by have := t.room; omega
  refine ⟨fun hc => ?_, fun hc => ?_⟩
  · rcases h.1 hc with hp | hi
    · rw [boot_writes (wrote_recover_pending hp)]
      exact hp.cut_finish k _
    · rw [boot_writes (wrote_recover_idle hi)]
      exact Or.inr (hi.cut_clear hsize k _)
  · rw [boot_writes (wrote_recover_idle (h.2 hc))]
    exact (h.2 hc).cut_clear hsize k _

theorem Settled.interrupted {t : Txn log} {e : Disk} {c : Prop} (stops : List ℕ) {d : Disk}
    (h : Settled t e c d) : Settled t e c (interrupted log stops d) := by
  induction stops generalizing d with
  | nil => exact h
  | cons k stops ih => exact ih (h.cut_recover k)

/-- Between transactions the cache agrees with the disk and the log is empty. -/
structure Quiet (log : LogArea) (e : Disk) (s : LogSys) : Prop where
  clean : s.mem = s.disk
  idle : Idle log e s.disk

theorem quiet_of_wrote_boot {e d : Disk} {r : LogSys} {ws : List (ℕ × Block)}
    (h : Wrote (LogSys.boot d) r ws) (hi : Idle log e (Redo.apply ws d)) : Quiet log e r := by
  refine ⟨?_, ?_⟩
  · rw [h.mem, h.disk]
    rfl
  · rw [h.disk]
    exact hi

theorem Settled.recover {t : Txn log} {e d : Disk} {c : Prop} [Decidable c]
    (h : Settled t e c d) :
    Quiet log (if c then t.install e else e) (recoverFromLog log (LogSys.boot d)) := by
  have hsize : 0 < log.size := by have := t.room; omega
  split_ifs with hc
  · rcases h.1 hc with hp | hi
    · exact quiet_of_wrote_boot (wrote_recover_pending hp) (hp.finish _)
    · exact quiet_of_wrote_boot (wrote_recover_idle hi) (hi.cut_clear hsize 1 _)
  · exact quiet_of_wrote_boot (wrote_recover_idle (h.2 hc)) ((h.2 hc).cut_clear hsize 1 _)

/-! Commit. -/

/-- All writes of `commit`: the log blocks, the header, the home blocks, the cleared header. -/
def commitWrites (t : Txn log) (b : Block) : List (ℕ × Block) :=
  logWrites log 0 t.data t.sector ++ (log.start, putHead b t.sector) ::
    finishWrites log t.data t.sector (putHead b t.sector)

theorem stage_mem_of_mem {t : Txn log} (s : LogSys) {x : ℕ} (hx : x ∈ t.sector) :
    (s.stage t).mem x = t.data x := by
  simp [LogSys.stage, Txn.install, hx]

theorem stage_mem_of_notMem {t : Txn log} (s : LogSys) {x : ℕ} (hx : x ∉ t.sector) :
    (s.stage t).mem x = s.mem x := by
  simp [LogSys.stage, Txn.install, hx]

theorem wrote_logged {t : Txn log} (s : LogSys) :
    Wrote (s.stage t) (writeHead log (writeLog log (s.stage t)))
      (logWrites log 0 t.data t.sector ++ [(log.start, putHead (s.mem log.start) t.sector)]) := by
  have hroom := t.room
  have h1 := wrote_writeLogFrom t.home 0 (by omega) (s.stage t)
  have hsame : ∀ x ∈ t.sector, (s.stage t).mem x = t.data x := fun x hx => stage_mem_of_mem s hx
  rw [logWrites_congr hsame] at h1
  have hm : (writeLogFrom log 0 t.sector (s.stage t)).mem log.start = s.mem log.start := by
    rw [h1.mem, Redo.apply_of_notMem, stage_mem_of_notMem s t.start_notMem]
    intro w hw
    have hlt := (mem_logWrites hw).1
    omega
  have h2 := wrote_writeHead log (writeLogFrom log 0 t.sector (s.stage t))
  rw [hm, writeLogFrom_lh] at h2
  exact h1.trans h2

theorem apply_logged (t : Txn log) (b : Block) (d : Disk) :
    (∀ i (hi : i < t.sector.length),
      Redo.apply (logWrites log 0 t.data t.sector ++ [(log.start, b)]) d
        (log.start + 0 + 1 + i) = t.data t.sector[i]) ∧
    Redo.apply (logWrites log 0 t.data t.sector ++ [(log.start, b)]) d log.start = b := by
  refine ⟨fun i hi => ?_, by simp⟩
  have hne : log.start + 0 + 1 + i ≠ log.start := by omega
  rw [Redo.apply_append, Redo.apply_cons, Redo.apply_nil, Function.update_of_ne hne,
    apply_logWrites _ hi]

theorem wrote_commit {t : Txn log} (s : LogSys) (hn : 0 < t.sector.length) :
    Wrote (s.stage t) (commit log (s.stage t)) (commitWrites t (s.mem log.start)) := by
  have h1 := wrote_logged (t := t) s
  have hlh : (writeHead log (writeLog log (s.stage t))).lh = t.sector := by
    rw [writeHead_lh, writeLog, writeLogFrom_lh]
    rfl
  have hdata := apply_logged t (putHead (s.mem log.start) t.sector) (s.stage t).mem
  rw [← h1.mem] at hdata
  have h2 := wrote_finish hlh hdata.1
  rw [hdata.2] at h2
  have hc : 0 < (s.stage t).lh.length := hn
  rw [commit, if_pos hc]
  have h := h1.trans h2
  rwa [List.append_assoc, List.singleton_append] at h

theorem Idle.cut_logWrites {e d : Disk} (t : Txn log) (h : Idle log e d) (k : ℕ) :
    Idle log e (cut k (logWrites log 0 t.data t.sector) d) := by
  have hroom := t.room
  have hout : ∀ x, (x = log.start ∨ ¬ log.Mem x) →
      cut k (logWrites log 0 t.data t.sector) d x = d x := by
    intro x hx
    apply Redo.apply_of_notMem
    rintro w hw rfl
    have hlt := mem_logWrites (List.mem_of_mem_take hw)
    rcases hx with hx | hx
    · omega
    · exact hx ⟨by omega, by omega⟩
  apply h.congr
  · rw [hout _ (Or.inl rfl)]
    exact h.head
  · exact fun x hx => hout x (Or.inr hx)

theorem pending_logged {e d : Disk} (t : Txn log) (h : Idle log e d) (b : Block) :
    Pending t e (Redo.apply
      (logWrites log 0 t.data t.sector ++ [(log.start, putHead b t.sector)]) d) := by
  have hroom := t.room
  have hl := apply_logged t (putHead b t.sector) d
  refine ⟨?_, hl.1, ?_⟩
  · rw [hl.2, headSectors_putHead t.array t.uint]
  · intro x hx _
    have hne : x ≠ log.start := by
      rintro rfl
      exact hx ⟨le_rfl, by omega⟩
    have hlog := (h.cut_logWrites t t.sector.length).home x hx
    rw [cut, List.take_of_length_le (by simp)] at hlog
    rw [Redo.apply_append, Redo.apply_cons, Redo.apply_nil, Function.update_of_ne hne, hlog]

/-- A prefix of the writes of `commit` contains the header write exactly from the write after
the log blocks on. -/
theorem headReached_take_commitWrites (t : Txn log) (b : Block) (k : ℕ) :
    HeadReached log ((commitWrites t b).take k) ↔ t.sector.length < k := by
  refine ⟨?_, fun hk => ?_⟩
  · rintro ⟨w, hw, he⟩
    by_contra hk
    rw [commitWrites, List.take_append_of_le_length (by simp; omega)] at hw
    have hlt := mem_logWrites (List.mem_of_mem_take hw)
    omega
  · refine ⟨(log.start, putHead b t.sector), ?_, rfl⟩
    have hlen : (logWrites log 0 t.data t.sector).length < k := by simpa using hk
    rw [commitWrites, List.take_append, List.mem_append]
    right
    obtain ⟨j, hj⟩ : ∃ j, k - (logWrites log 0 t.data t.sector).length = j + 1 :=
      ⟨k - (logWrites log 0 t.data t.sector).length - 1, by omega⟩
    rw [hj, List.take_succ_cons]
    exact List.mem_cons_self

theorem settled_cut_commitWrites {e d : Disk} (t : Txn log) (h : Idle log e d) (b : Block)
    (k : ℕ) :
    Settled t e (HeadReached log ((commitWrites t b).take k)) (cut k (commitWrites t b) d) := by
  rw [Settled, headReached_take_commitWrites]
  have hlen : (logWrites log 0 t.data t.sector).length = t.sector.length := by simp
  refine ⟨fun hk => ?_, fun hk => ?_⟩
  · obtain ⟨j, rfl⟩ : ∃ j, k = t.sector.length + (j + 1) := ⟨k - t.sector.length - 1, by omega⟩
    have hcut : cut (t.sector.length + (j + 1)) (commitWrites t b) d =
        cut j (finishWrites log t.data t.sector (putHead b t.sector))
          (Redo.apply
            (logWrites log 0 t.data t.sector ++ [(log.start, putHead b t.sector)]) d) := by
      rw [cut, cut, commitWrites, ← hlen, List.take_length_add_append, List.take_succ_cons,
        Redo.apply_append, Redo.apply_append]
      rfl
    rw [hcut]
    exact (pending_logged t h b).cut_finish j _
  · rw [cut, commitWrites, List.take_append_of_le_length (by omega)]
    exact h.cut_logWrites t k

/-! Transactions one after another. -/

/-- One transaction: its commit either completes, or stops after some of its writes and is
followed by interrupted recoveries and a complete one. -/
structure Episode (log : LogArea) where
  txn : Txn log
  stop : Option (ℕ × List ℕ)

namespace Episode

def performed (ep : Episode log) (s : LogSys) : List (ℕ × Block) :=
  match ep.stop with
  | none => (commit log (s.stage ep.txn)).writes
  | some (k, _) => (commit log (s.stage ep.txn)).writes.take k

def run (ep : Episode log) (s : LogSys) : LogSys :=
  match ep.stop with
  | none => commit log (s.stage ep.txn)
  | some (_, stops) => recovered log stops (Redo.apply (ep.performed s) s.disk)

def outcome (ep : Episode log) (s : LogSys) (e : Disk) : Disk :=
  if HeadReached log (ep.performed s) then ep.txn.install e else e

end Episode

def runAll : List (Episode log) → LogSys → LogSys
  | [], s => s
  | ep :: eps, s => runAll eps (ep.run s)

def outcomeAll : List (Episode log) → LogSys → Disk → Disk
  | [], _, e => e
  | ep :: eps, s, e => outcomeAll eps (ep.run s) (ep.outcome s e)

theorem commit_empty {t : Txn log} (s : LogSys) (hn : t.sector = []) :
    commit log (s.stage t) = s.stage t := by
  simp [commit, LogSys.stage, hn]

theorem Quiet.settled {e : Disk} {s : LogSys} (h : Quiet log e s) (t : Txn log) (k : ℕ) :
    Settled t e (HeadReached log ((commit log (s.stage t)).writes.take k))
      (Redo.apply ((commit log (s.stage t)).writes.take k) s.disk) := by
  by_cases hn : t.sector = []
  · have hw : (commit log (s.stage t)).writes = [] := by rw [commit_empty s hn]; rfl
    rw [hw, List.take_nil]
    exact ⟨fun ⟨w, hw, _⟩ => absurd hw (by simp), fun _ => h.idle⟩
  · have hw : (commit log (s.stage t)).writes = commitWrites t (s.mem log.start) :=
      (wrote_commit s (List.length_pos_iff.mpr hn)).writes
    rw [hw]
    exact settled_cut_commitWrites t h.idle _ k

theorem mem_commitWrites {t : Txn log} {x : ℕ} (hx : x ∈ t.sector) (b : Block) :
    ∃ w ∈ commitWrites t b, w.1 = x := by
  refine ⟨(x, t.data x), ?_, rfl⟩
  simp [commitWrites, finishWrites, homeWrites, hx]

theorem Quiet.commit {e : Disk} {s : LogSys} (h : Quiet log e s) (t : Txn log) :
    Quiet log (t.install e) (commit log (s.stage t)) := by
  by_cases hn : t.sector = []
  · have hi (d : Disk) : t.install d = d := by
      funext x
      simp [Txn.install, hn]
    rw [commit_empty s hn, hi]
    refine ⟨?_, h.idle⟩
    rw [LogSys.stage, hi]
    exact h.clean
  · have hw := wrote_commit s (List.length_pos_iff.mpr hn)
    refine ⟨?_, ?_⟩
    · rw [hw.mem, hw.disk]
      funext x
      apply Redo.apply_congr
      by_cases hx : x ∈ t.sector
      · exact Or.inr (mem_commitWrites hx _)
      · left
        rw [stage_mem_of_notMem s hx, h.clean]
        rfl
    · have hf := (pending_logged t h.idle (s.mem log.start)).finish
        (putHead (s.mem log.start) t.sector)
      rw [hw.disk, commitWrites, ← List.singleton_append, ← List.append_assoc, Redo.apply_append]
      exact hf

theorem Quiet.run {e : Disk} {s : LogSys} (h : Quiet log e s) (ep : Episode log) :
    Quiet log (ep.outcome s e) (ep.run s) := by
  obtain ⟨t, stop⟩ := ep
  cases stop with
  | none =>
    have hc := h.commit t
    have ho : Episode.outcome ⟨t, none⟩ s e = t.install e := by
      by_cases hn : t.sector = []
      · funext x
        simp only [Episode.outcome]
        split_ifs <;> simp [Txn.install, hn]
      · have hlen : t.sector.length < (commitWrites t (s.mem log.start)).length := by
          simp [commitWrites, finishWrites]
        have hr := (headReached_take_commitWrites t (s.mem log.start) _).mpr hlen
        rw [List.take_length] at hr
        have hw : (Xv6.commit log (s.stage t)).writes = commitWrites t (s.mem log.start) :=
          (wrote_commit s (List.length_pos_iff.mpr hn)).writes
        rw [← hw] at hr
        exact if_pos hr
    rw [ho]
    exact hc
  | some c => exact ((h.settled t c.1).interrupted c.2).recover

theorem Quiet.runAll {e : Disk} {s : LogSys} (h : Quiet log e s) (eps : List (Episode log)) :
    Quiet log (outcomeAll eps s e) (runAll eps s) := by
  induction eps generalizing e s with
  | nil => exact h
  | cons ep eps ih => exact ih (h.run ep)

theorem quiet_boot {d : Disk} (hd : headCount (d log.start) = 0) :
    Quiet log d (LogSys.boot d) := ⟨rfl, hd, fun _ _ => rfl⟩

/-- Crash atomicity. A commit on a disk with an empty log is cut after `k` writes and followed
by any recoveries. Outside the log area the disk then holds the whole transaction if a header
write was among the `k`, and nothing of it otherwise, and the log is empty again. Hence any
sequence of transactions leaves exactly the effects of those whose header reached the disk. -/
theorem commit_recover_atomic (log : LogArea) (d : Disk) (hd : headCount (d log.start) = 0) :
    (∀ (t : Txn log) (k : ℕ) (stops : List ℕ),
      let done := (commit log ((LogSys.boot d).stage t)).writes.take k
      let d' := (recovered log stops (Redo.apply done d)).disk
      (∀ x, ¬ log.Mem x → d' x = if HeadReached log done then t.install d x else d x) ∧
        headCount (d' log.start) = 0) ∧
    ∀ eps : List (Episode log),
      (∀ x, ¬ log.Mem x →
        (runAll eps (LogSys.boot d)).disk x = outcomeAll eps (LogSys.boot d) d x) ∧
      headCount ((runAll eps (LogSys.boot d)).disk log.start) = 0 := by
  refine ⟨fun t k stops => ?_, fun eps => ?_⟩
  · have hq := (((quiet_boot hd).settled t k).interrupted stops).recover
    refine ⟨fun x hx => (hq.idle.home x hx).trans ?_, hq.idle.head⟩
    split_ifs <;> rfl
  · have hq := (quiet_boot hd).runAll eps
    exact ⟨hq.idle.home, hq.idle.head⟩

/-- Two sectors committed over a zeroed disk and cut after the header and one home block. -/
theorem commit_recover_atomic_zero :
    headCount ((fun _ => Bytes.zero : Disk) 10) = 0 ∧
      ∃ t : Txn ⟨10, 4⟩, t.sector = [3, 5] ∧
        HeadReached ⟨10, 4⟩
          ((commit ⟨10, 4⟩ ((LogSys.boot fun _ => Bytes.zero).stage t)).writes.take 4) ∧
        ∀ x, ¬ LogArea.Mem ⟨10, 4⟩ x →
          (recovered ⟨10, 4⟩ [1, 0] (Redo.apply
            ((commit ⟨10, 4⟩ ((LogSys.boot fun _ => Bytes.zero).stage t)).writes.take 4)
              fun _ => Bytes.zero)).disk x =
            if x = 3 ∨ x = 5 then Bytes.zero.setWord 0 1 else Bytes.zero := by
  have hz : headCount ((fun _ => Bytes.zero : Disk) 10) = 0 := by simp [headCount]
  let t : Txn ⟨10, 4⟩ :=
    { sector := [3, 5], data := fun _ => Bytes.zero.setWord 0 1, nodup := by decide,
      room := by decide,
      array := by decide, uint := by decide, home := by decide }
  have hr : HeadReached ⟨10, 4⟩
      ((commit ⟨10, 4⟩ ((LogSys.boot fun _ => Bytes.zero).stage t)).writes.take 4) :=
    ⟨_, List.mem_of_getElem? (i := 2) rfl, rfl⟩
  refine ⟨hz, t, rfl, hr, fun x hx => ?_⟩
  have h := ((commit_recover_atomic ⟨10, 4⟩ (fun _ => Bytes.zero) hz).1 t 4 [1, 0]).1 x hx
  rw [if_pos hr] at h
  rw [h]
  simp [t, Txn.install]

end Xv6
