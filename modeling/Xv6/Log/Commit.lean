import Xv6.Param
import Xv6.Lib.Redo

/-! The on-disk redo log of `log.c`: header blocks, `write_log`, `write_head`,
`install_trans`, `commit` and `recover_from_log`, over the block contents that `bread`
returns. Every `bwrite` is recorded, so that a crash is a cut of the recorded writes. -/
namespace Xv6

/-- Where the log lives: `log.start` and `log.size`. -/
structure LogArea where
  start : ℕ
  size : ℕ
  deriving DecidableEq, Repr

namespace LogArea

def Mem (log : LogArea) (s : ℕ) : Prop := log.start ≤ s ∧ s < log.start + log.size

instance (log : LogArea) (s : ℕ) : Decidable (log.Mem s) := by
  unfold Mem
  infer_instance

end LogArea

def initlog (sb : Superblock) : LogArea := ⟨sb.size - sb.nlog, sb.nlog⟩

/-- The disk, what `bread` returns for each sector, the in-memory header
`log.lh.sector[0..log.lh.n)`, and the sector writes made so far. -/
structure LogSys where
  disk : Disk
  mem : Disk
  lh : List ℕ
  writes : List (ℕ × Block)

namespace LogSys

def bread (s : LogSys) (sector : ℕ) : Block := s.mem sector

def bwrite (sector : ℕ) (b : Block) (s : LogSys) : LogSys :=
  { s with
    disk := Function.update s.disk sector b
    mem := Function.update s.mem sector b
    writes := s.writes ++ [(sector, b)] }

def boot (d : Disk) : LogSys := ⟨d, d, [], []⟩

end LogSys

/-- `lh->n` of a header block. The field is a signed `int`: a negative count runs no loop. -/
def headCount (b : Block) : ℕ := if b.word 0 < 2 ^ 31 then b.word 0 else 0

def headSectors (b : Block) : List ℕ := (List.range (headCount b)).map fun i => b.word (4 + 4 * i)

/-- The header block `write_head` writes over `b`: only `n` and the first `n` sectors change. -/
def putHead (b : Block) (lh : List ℕ) : Block := (b.setWord 0 lh.length).setWords 4 lh

def readHead (log : LogArea) (s : LogSys) : LogSys :=
  { s with lh := headSectors (s.bread log.start) }

def writeHead (log : LogArea) (s : LogSys) : LogSys :=
  s.bwrite log.start (putHead (s.bread log.start) s.lh)

def installFrom (log : LogArea) : ℕ → List ℕ → LogSys → LogSys
  | _, [], s => s
  | tail, sector :: rest, s =>
    installFrom log (tail + 1) rest (s.bwrite sector (s.bread (log.start + tail + 1)))

def installTrans (log : LogArea) (s : LogSys) : LogSys := installFrom log 0 s.lh s

def writeLogFrom (log : LogArea) : ℕ → List ℕ → LogSys → LogSys
  | _, [], s => s
  | tail, sector :: rest, s =>
    writeLogFrom log (tail + 1) rest (s.bwrite (log.start + tail + 1) (s.bread sector))

def writeLog (log : LogArea) (s : LogSys) : LogSys := writeLogFrom log 0 s.lh s

def recoverFromLog (log : LogArea) (s : LogSys) : LogSys :=
  let s := installTrans log (readHead log s)
  writeHead log { s with lh := [] }

def commit (log : LogArea) (s : LogSys) : LogSys :=
  if 0 < s.lh.length then
    let s := installTrans log (writeHead log (writeLog log s))
    writeHead log { s with lh := [] }
  else s

@[simp] theorem bwrite_lh (sector : ℕ) (b : Block) (s : LogSys) :
    (s.bwrite sector b).lh = s.lh := rfl

@[simp] theorem writeLogFrom_lh (log : LogArea) (tail : ℕ) (lh : List ℕ) (s : LogSys) :
    (writeLogFrom log tail lh s).lh = s.lh := by
  induction lh generalizing tail s with
  | nil => rfl
  | cons x rest ih => simp [writeLogFrom, ih]

@[simp] theorem writeHead_lh (log : LogArea) (s : LogSys) : (writeHead log s).lh = s.lh := rfl

/-! Headers. -/

theorem headCount_putHead {b : Block} {lh : List ℕ} (h : lh.length ≤ LOGSIZE) :
    headCount (putHead b lh) = lh.length := by
  have hl : lh.length ≤ 30 := h
  have hw : (putHead b lh).word 0 = lh.length := by
    rw [putHead, Bytes.word_setWords_disjoint _ (by omega),
      Bytes.word_setWord_same (by decide), Nat.mod_eq_of_lt (by omega)]
  rw [headCount, hw, if_pos (by omega)]

theorem headSectors_putHead {b : Block} {lh : List ℕ} (h : lh.length ≤ LOGSIZE)
    (hu : ∀ s ∈ lh, s < 2 ^ 32) : headSectors (putHead b lh) = lh := by
  have hl : lh.length ≤ 30 := h
  apply List.ext_getElem
  · simp [headSectors, headCount_putHead h]
  · intro i hi hi'
    have hb : 4 + 4 * lh.length ≤ BSIZE := by unfold BSIZE; omega
    simp only [headSectors, List.getElem_map, List.getElem_range, putHead]
    rw [Bytes.word_setWords _ hb hi', Nat.mod_eq_of_lt (hu _ (List.getElem_mem hi'))]

theorem headSectors_eq_nil {b : Block} (h : headCount b = 0) : headSectors b = [] := by
  simp [headSectors, h]

/-! The writes of each loop. -/

def logWrites (log : LogArea) (tail : ℕ) (data : ℕ → Block) : List ℕ → List (ℕ × Block)
  | [] => []
  | sector :: rest => (log.start + tail + 1, data sector) :: logWrites log (tail + 1) data rest

def installWrites (log : LogArea) (tail : ℕ) (mem : Disk) : List ℕ → List (ℕ × Block)
  | [] => []
  | sector :: rest =>
    (sector, mem (log.start + tail + 1)) :: installWrites log (tail + 1) mem rest

def homeWrites (data : ℕ → Block) (lh : List ℕ) : List (ℕ × Block) :=
  lh.map fun sector => (sector, data sector)

/-- `s'` comes from `s` by the sector writes `ws`, cache and disk alike. -/
structure Wrote (s s' : LogSys) (ws : List (ℕ × Block)) : Prop where
  disk : s'.disk = Redo.apply ws s.disk
  mem : s'.mem = Redo.apply ws s.mem
  writes : s'.writes = s.writes ++ ws

theorem Wrote.refl (s : LogSys) : Wrote s s [] := ⟨rfl, rfl, by simp⟩

theorem Wrote.trans {s t u : LogSys} {vs ws : List (ℕ × Block)} (h : Wrote s t vs)
    (h' : Wrote t u ws) : Wrote s u (vs ++ ws) := by
  refine ⟨?_, ?_, ?_⟩
  · rw [h'.disk, h.disk, Redo.apply_append]
  · rw [h'.mem, h.mem, Redo.apply_append]
  · rw [h'.writes, h.writes, List.append_assoc]

theorem wrote_bwrite (s : LogSys) (sector : ℕ) (b : Block) :
    Wrote s (s.bwrite sector b) [(sector, b)] := ⟨rfl, rfl, rfl⟩

theorem wrote_writeHead (log : LogArea) (s : LogSys) :
    Wrote s (writeHead log s) [(log.start, putHead (s.mem log.start) s.lh)] :=
  wrote_bwrite s _ _

theorem mem_logWrites {log : LogArea} {tail : ℕ} {data : ℕ → Block} {lh : List ℕ}
    {w : ℕ × Block} (h : w ∈ logWrites log tail data lh) :
    log.start + tail < w.1 ∧ w.1 ≤ log.start + tail + lh.length := by
  induction lh generalizing tail with
  | nil => simp [logWrites] at h
  | cons x rest ih =>
    rw [logWrites, List.mem_cons] at h
    simp only [List.length_cons]
    rcases h with rfl | h
    · dsimp only
      omega
    · have hr := ih h
      omega

@[simp] theorem length_logWrites (log : LogArea) (tail : ℕ) (data : ℕ → Block) (lh : List ℕ) :
    (logWrites log tail data lh).length = lh.length := by
  induction lh generalizing tail with
  | nil => rfl
  | cons x rest ih => simp [logWrites, ih]

theorem logWrites_congr {log : LogArea} {tail : ℕ} {data data' : ℕ → Block} {lh : List ℕ}
    (h : ∀ x ∈ lh, data x = data' x) :
    logWrites log tail data lh = logWrites log tail data' lh := by
  induction lh generalizing tail with
  | nil => rfl
  | cons x rest ih =>
    rw [logWrites, logWrites, h x List.mem_cons_self,
      ih (fun y hy => h y (List.mem_cons_of_mem x hy))]

theorem apply_logWrites {log : LogArea} {tail : ℕ} {data : ℕ → Block} {lh : List ℕ} (d : Disk)
    {i : ℕ} (hi : i < lh.length) :
    Redo.apply (logWrites log tail data lh) d (log.start + tail + 1 + i) = data lh[i] := by
  induction lh generalizing tail d i with
  | nil => simp at hi
  | cons x rest ih =>
    rw [logWrites, Redo.apply_cons]
    cases i with
    | zero =>
      rw [Redo.apply_of_notMem]
      · simp
      · intro w hw
        have hlt := (mem_logWrites hw).1
        omega
    | succ i =>
      have hs : log.start + tail + 1 + (i + 1) = log.start + (tail + 1) + 1 + i := by omega
      rw [hs, ih _ (by simpa using hi)]
      rfl

theorem installWrites_congr {log : LogArea} {tail : ℕ} {mem mem' : Disk} {lh : List ℕ}
    (h : ∀ i < lh.length, mem (log.start + tail + 1 + i) = mem' (log.start + tail + 1 + i)) :
    installWrites log tail mem lh = installWrites log tail mem' lh := by
  induction lh generalizing tail with
  | nil => rfl
  | cons x rest ih =>
    have h0 := h 0 (by simp)
    have hr := @ih (tail + 1) (by
      intro i hi
      rw [show log.start + (tail + 1) + 1 + i = log.start + tail + 1 + (i + 1) by omega]
      exact h (i + 1) (by simpa using hi))
    rw [installWrites, installWrites, hr]
    simpa using h0

theorem installWrites_eq_home {log : LogArea} {tail : ℕ} {mem : Disk} {data : ℕ → Block}
    {lh : List ℕ}
    (h : ∀ i (hi : i < lh.length), mem (log.start + tail + 1 + i) = data lh[i]) :
    installWrites log tail mem lh = homeWrites data lh := by
  induction lh generalizing tail with
  | nil => rfl
  | cons x rest ih =>
    have h0 : mem (log.start + tail + 1) = data x := h 0 (by simp)
    have hr := @ih (tail + 1) (by
      intro i hi
      have hs := h (i + 1) (by simpa using hi)
      rw [show log.start + (tail + 1) + 1 + i = log.start + tail + 1 + (i + 1) by omega]
      simpa using hs)
    rw [installWrites, hr, h0]
    rfl

@[simp] theorem length_homeWrites (data : ℕ → Block) (lh : List ℕ) :
    (homeWrites data lh).length = lh.length := by
  simp [homeWrites]

theorem mem_homeWrites {data : ℕ → Block} {lh : List ℕ} {w : ℕ × Block}
    (h : w ∈ homeWrites data lh) : w.1 ∈ lh := by
  obtain ⟨x, hx, rfl⟩ := List.mem_map.mp h
  exact hx

theorem apply_homeWrites {data : ℕ → Block} {lh : List ℕ} (hnd : lh.Nodup) (d : Disk) (x : ℕ) :
    Redo.apply (homeWrites data lh) d x = if x ∈ lh then data x else d x := by
  split_ifs with hx
  · apply Redo.apply_of_mem
    · simpa [homeWrites, Function.comp_def] using hnd
    · exact List.mem_map.mpr ⟨x, hx, rfl⟩
  · apply Redo.apply_of_notMem
    intro w hw he
    exact hx (he ▸ mem_homeWrites hw)

theorem wrote_writeLogFrom {log : LogArea} {lh : List ℕ} (hout : ∀ x ∈ lh, ¬ log.Mem x)
    (tail : ℕ) (hroom : tail + lh.length + 1 ≤ log.size) (s : LogSys) :
    Wrote s (writeLogFrom log tail lh s) (logWrites log tail s.mem lh) := by
  induction lh generalizing tail s with
  | nil => exact Wrote.refl s
  | cons x rest ih =>
    simp only [List.length_cons] at hroom
    have hrest : ∀ y ∈ rest, ¬ log.Mem y := fun y hy => hout y (List.mem_cons_of_mem x hy)
    have hih := ih hrest (tail + 1) (by omega) (s.bwrite (log.start + tail + 1) (s.mem x))
    have hsame : ∀ y ∈ rest,
        (s.bwrite (log.start + tail + 1) (s.mem x)).mem y = s.mem y := by
      intro y hy
      have hy' := hrest y hy
      apply Function.update_of_ne
      rintro rfl
      exact hy' ⟨by omega, by omega⟩
    rw [logWrites_congr hsame] at hih
    exact (wrote_bwrite s _ _).trans hih

/-- `install_trans` copies each log block to its home sector. The log itself is not touched,
so every block is the one the log held at the start. -/
theorem wrote_installFrom {log : LogArea} {lh : List ℕ} (hout : ∀ x ∈ lh, ¬ log.Mem x)
    (tail : ℕ) (hroom : tail + lh.length + 1 ≤ log.size) (s : LogSys) :
    Wrote s (installFrom log tail lh s) (installWrites log tail s.mem lh) := by
  induction lh generalizing tail s with
  | nil => exact Wrote.refl s
  | cons x rest ih =>
    simp only [List.length_cons] at hroom
    have hrest : ∀ y ∈ rest, ¬ log.Mem y := fun y hy => hout y (List.mem_cons_of_mem x hy)
    have hih := ih hrest (tail + 1) (by omega) (s.bwrite x (s.mem (log.start + tail + 1)))
    have hsame : ∀ j < rest.length,
        (s.bwrite x (s.mem (log.start + tail + 1))).mem (log.start + (tail + 1) + 1 + j) =
          s.mem (log.start + (tail + 1) + 1 + j) := by
      intro j hj
      apply Function.update_of_ne
      rintro rfl
      exact hout _ List.mem_cons_self ⟨by omega, by omega⟩
    rw [installWrites_congr hsame] at hih
    exact (wrote_bwrite s _ _).trans hih

end Xv6
