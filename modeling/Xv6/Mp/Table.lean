import Mathlib.Data.UInt
import Mathlib.Data.List.Basic
import Mathlib.Logic.Basic

/-! `mp.c`: the search for the MP configuration table, and the loop over its entries. Memory is
physical, by address. -/
namespace Xv6.Mp

def NCPU : ℕ := 8

def MP : ℕ := 16

def MPCONF : ℕ := 44

def MPPROCSIZE : ℕ := 20

/-- `sizeof(struct mpioapic)`, and the size of the other entries. -/
def MPENTRY : ℕ := 8

def MPPROC : UInt8 := 0x00

def MPBUS : UInt8 := 0x01

def MPIOAPIC : UInt8 := 0x02

def MPIOINTR : UInt8 := 0x03

def MPLINTR : UInt8 := 0x04

def MPBOOT : UInt8 := 0x02

abbrev Memory := ℕ → UInt8

def bytes (mem : Memory) (a n : ℕ) : List UInt8 := (List.range n).map fun i => mem (a + i)

def number (mem : Memory) (a : ℕ) : ℕ → ℕ
  | 0 => 0
  | n + 1 => (mem a).toNat + 256 * number mem (a + 1) n

/-- `sum(addr, len)`, as the `uchar` that it returns. -/
def sum (mem : Memory) (addr len : ℕ) : ℕ :=
  ((bytes mem addr len).map UInt8.toNat).sum % 256

def mpsearch1 (mem : Memory) (a len : ℕ) : Option ℕ :=
  ((List.range ((len + MP - 1) / MP)).map fun i => a + i * MP).find? fun p =>
    bytes mem p 4 = [95, 77, 80, 95] ∧ sum mem p MP = 0

/-- The BIOS data area gives the address of the EBDA, or the size of the base memory. -/
def mpsearch (mem : Memory) : Option ℕ :=
  let p := ((mem 0x40F).toNat * 256 + (mem 0x40E).toNat) * 16
  let found :=
    if p ≠ 0 then mpsearch1 mem p 1024
    else mpsearch1 mem ((((mem 0x414).toNat * 256 + (mem 0x413).toNat) * 1024 + 2 ^ 32 - 1024) %
      2 ^ 32) 1024
  found.orElse fun _ => mpsearch1 mem 0xF0000 0x10000

def length (mem : Memory) (conf : ℕ) : ℕ := number mem (conf + 4) 2

/-- The MP structure and the configuration table, if both are in order. -/
def mpconfig (mem : Memory) : Option (ℕ × ℕ) :=
  match mpsearch mem with
  | none => none
  | some mp =>
    let conf := number mem (mp + 4) 4
    if conf = 0 then none
    else if bytes mem conf 4 ≠ [80, 67, 77, 80] then none
    else if mem (conf + 6) ≠ 1 ∧ mem (conf + 6) ≠ 4 then none
    else if sum mem conf (length mem conf) ≠ 0 then none
    else some (mp, conf)

/-- The variables of `mpinit`; `bcpu` is an index into `cpus`. `stores` records the indexes at
which `cpus` is written, and `spans` the entries that `p` has passed, with their sizes. -/
structure Scan where
  p : ℕ
  ncpu : ℕ
  bcpu : ℕ
  ismp : Bool
  lapic : ℕ
  ioapicid : UInt8
  stores : List ℕ
  spans : List (ℕ × ℕ)

def Scan.advance (s : Scan) (size : ℕ) : Scan :=
  { s with p := s.p + size, spans := (s.p, size) :: s.spans }

def Scan.processor (mem : Memory) (s : Scan) : Scan :=
  { s with
    ismp := if s.ncpu ≠ (mem (s.p + 1)).toNat then false else s.ismp
    bcpu := if mem (s.p + 3) &&& MPBOOT ≠ 0 then s.ncpu else s.bcpu
    ncpu := s.ncpu + 1
    stores := s.ncpu :: s.stores }

/-- The body of the loop: the `switch` on the type of the entry at `p`. -/
def entry (mem : Memory) (s : Scan) : Scan :=
  if mem s.p = MPPROC then (s.processor mem).advance MPPROCSIZE
  else if mem s.p = MPIOAPIC then ({ s with ioapicid := mem (s.p + 1) } : Scan).advance MPENTRY
  else if mem s.p = MPBUS ∨ mem s.p = MPIOINTR ∨ mem s.p = MPLINTR then s.advance MPENTRY
  else { s with ismp := false }

/-- At most `n` turns of the loop, up to the end `e` of the table. -/
def entries (mem : Memory) (e : ℕ) : ℕ → Scan → Scan
  | 0, s => s
  | n + 1, s => if s.p < e then entries mem e n (entry mem s) else s

def start (mem : Memory) (conf : ℕ) : Scan :=
  ⟨conf + MPCONF, 0, 0, true, number mem (conf + 36) 4, 0, [], []⟩

/-- After the loop: back to one processor if the table was not to be used. -/
def finish (s : Scan) : Scan :=
  if s.ismp then s else { s with ncpu := 1, lapic := 0, ioapicid := 0 }

/-- The loop of `mpinit` ends, passes only entries that lie in the table, and stores only into
`cpus`. -/
def Total (mem : Memory) (conf : ℕ) : Prop :=
  ∃ n, ¬ (entries mem (conf + length mem conf) n (start mem conf)).p < conf + length mem conf ∧
    (∀ q ∈ (entries mem (conf + length mem conf) n (start mem conf)).spans,
      conf ≤ q.1 ∧ q.1 + q.2 ≤ conf + length mem conf) ∧
    (∀ i ∈ (entries mem (conf + length mem conf) n (start mem conf)).stores, i < NCPU) ∧
    (finish (entries mem (conf + length mem conf) n (start mem conf))).ncpu ≤ NCPU

def Known (c : UInt8) : Prop := c = MPBUS ∨ c = MPIOAPIC ∨ c = MPIOINTR ∨ c = MPLINTR

/-- Entries of known types, `k` of them processors, fill the bytes from `p` to `e`. -/
inductive Tiles (mem : Memory) (e : ℕ) : ℕ → ℕ → Prop where
  | done {p : ℕ} : e ≤ p → Tiles mem e p 0
  | proc {p k : ℕ} : mem p = MPPROC → p + MPPROCSIZE ≤ e → Tiles mem e (p + MPPROCSIZE) k →
      Tiles mem e p (k + 1)
  | other {p k : ℕ} : Known (mem p) → p + MPENTRY ≤ e → Tiles mem e (p + MPENTRY) k →
      Tiles mem e p k

section loop

variable {mem : Memory} {e k n : ℕ} {s : Scan}

theorem entries_of_lt (h : s.p < e) : entries mem e (n + 1) s = entries mem e n (entry mem s) := by
  rw [entries, if_pos h]

theorem entries_of_ge (h : ¬ s.p < e) (n : ℕ) : entries mem e n s = s := by
  cases n with
  | zero => rfl
  | succ n => rw [entries, if_neg h]

structure Passed (s t : Scan) : Prop where
  p : t.p = s.p + MPENTRY
  ncpu : t.ncpu = s.ncpu
  stores : t.stores = s.stores
  spans : t.spans = (s.p, MPENTRY) :: s.spans

theorem entry_proc (h : mem s.p = MPPROC) : entry mem s = (s.processor mem).advance MPPROCSIZE := by
  rw [entry, if_pos h]

theorem entry_other (h : Known (mem s.p)) : Passed s (entry mem s) := by
  unfold Known at h
  have hproc : mem s.p ≠ MPPROC := by
    rcases h with h | h | h | h <;> rw [h] <;> decide
  rw [entry, if_neg hproc]
  by_cases hio : mem s.p = MPIOAPIC
  · rw [if_pos hio]
    exact ⟨rfl, rfl, rfl, rfl⟩
  · rw [if_neg hio, if_pos (by tauto)]
    exact ⟨rfl, rfl, rfl, rfl⟩

theorem entry_unknown (hproc : mem s.p ≠ MPPROC) (h : ¬ Known (mem s.p)) :
    entry mem s = { s with ismp := false } := by
  unfold Known at h
  rw [entry, if_neg hproc, if_neg (by tauto), if_neg (by tauto)]

theorem entries_mono (n : ℕ) (s : Scan) :
    s.stores ⊆ (entries mem e n s).stores ∧ s.spans ⊆ (entries mem e n s).spans := by
  induction n generalizing s with
  | zero => exact ⟨List.Subset.refl _, List.Subset.refl _⟩
  | succ n ih =>
    by_cases hlt : s.p < e
    · rw [entries_of_lt hlt]
      obtain ⟨h1, h2⟩ := ih (entry mem s)
      by_cases hproc : mem s.p = MPPROC
      · rw [entry_proc hproc] at h1 h2 ⊢
        exact ⟨List.Subset.trans (List.subset_cons_self ..) h1,
          List.Subset.trans (List.subset_cons_self ..) h2⟩
      · by_cases hknown : Known (mem s.p)
        · have hpass := entry_other hknown
          rw [hpass.stores] at h1
          rw [hpass.spans] at h2
          exact ⟨h1, List.Subset.trans (List.subset_cons_self ..) h2⟩
        · rw [entry_unknown hproc hknown] at h1 h2 ⊢
          exact ⟨h1, h2⟩
    · rw [entries_of_ge hlt]
      exact ⟨List.Subset.refl _, List.Subset.refl _⟩

theorem Tiles.entries {p : ℕ} (h : Tiles mem e p k) (hp : s.p = p) :
    ∃ n, ¬ (Mp.entries mem e n s).p < e ∧ (Mp.entries mem e n s).ncpu = s.ncpu + k ∧
      (∀ i ∈ (Mp.entries mem e n s).stores, i ∈ s.stores ∨ i < s.ncpu + k) ∧
      ∀ q ∈ (Mp.entries mem e n s).spans, q ∈ s.spans ∨ p ≤ q.1 ∧ q.1 + q.2 ≤ e := by
  induction h generalizing s with
  | done hle =>
    refine ⟨0, by rw [Mp.entries, hp]; omega, rfl, ?_, ?_⟩
    · exact fun i hi => Or.inl hi
    · exact fun q hq => Or.inl hq
  | @proc p k htype hle _ ih =>
    subst hp
    have hsize : MPPROCSIZE = 20 := rfl
    obtain ⟨n, hend, hncpu, hstores, hspans⟩ :=
      ih (s := entry mem s) (by rw [entry_proc htype]; rfl)
    rw [entry_proc htype] at hend hncpu hstores hspans
    refine ⟨n + 1, ?_⟩
    rw [entries_of_lt (by omega), entry_proc htype]
    have hcount : ((s.processor mem).advance MPPROCSIZE).ncpu = s.ncpu + 1 := rfl
    rw [hcount] at hncpu hstores
    refine ⟨hend, by omega, fun i hi => ?_, fun q hq => ?_⟩
    · rcases hstores i hi with hi | hi
      · rcases List.mem_cons.mp hi with rfl | hi
        · exact Or.inr (by omega)
        · exact Or.inl hi
      · exact Or.inr (by omega)
    · rcases hspans q hq with hq | hq
      · rcases List.mem_cons.mp hq with rfl | hq
        · exact Or.inr ⟨le_rfl, hle⟩
        · exact Or.inl hq
      · exact Or.inr ⟨by omega, hq.2⟩
  | @other p k htype hle _ ih =>
    subst hp
    have hsize : MPENTRY = 8 := rfl
    have hpass := entry_other htype
    obtain ⟨n, hend, hncpu, hstores, hspans⟩ := ih (s := entry mem s) hpass.p
    rw [hpass.ncpu, hpass.stores] at hstores
    rw [hpass.ncpu] at hncpu
    rw [hpass.spans] at hspans
    refine ⟨n + 1, ?_⟩
    rw [entries_of_lt (by omega)]
    refine ⟨hend, hncpu, hstores, fun q hq => ?_⟩
    rcases hspans q hq with hq | hq
    · rcases List.mem_cons.mp hq with rfl | hq
      · exact Or.inr ⟨le_rfl, hle⟩
      · exact Or.inl hq
    · exact Or.inr ⟨by omega, hq.2⟩

/-- A loop that ends and stays in the table has passed entries that fill it. -/
theorem tiles_of_entries (n : ℕ) (s : Scan) (hend : ¬ (entries mem e n s).p < e)
    (hspans : ∀ q ∈ (entries mem e n s).spans, q.1 + q.2 ≤ e) :
    ∃ k, Tiles mem e s.p k ∧
      ∀ i, s.ncpu ≤ i → i < s.ncpu + k → i ∈ (entries mem e n s).stores := by
  induction n generalizing s with
  | zero => exact ⟨0, .done (not_lt.mp hend), fun i h1 h2 => by omega⟩
  | succ n ih =>
    by_cases hlt : s.p < e
    · rw [entries_of_lt hlt] at hend hspans ⊢
      obtain ⟨k, htiles, hstores⟩ := ih (entry mem s) hend hspans
      by_cases hproc : mem s.p = MPPROC
      · rw [entry_proc hproc] at htiles hstores hspans ⊢
        have hspan := hspans _ ((entries_mono n _).2 List.mem_cons_self)
        refine ⟨k + 1, .proc hproc hspan htiles, fun i h1 h2 => ?_⟩
        by_cases hi : i = s.ncpu
        · rw [hi]
          exact (entries_mono n _).1 List.mem_cons_self
        · have hcount : ((s.processor mem).advance MPPROCSIZE).ncpu = s.ncpu + 1 := rfl
          rw [hcount] at hstores
          exact hstores i (by omega) (by omega)
      · by_cases hknown : Known (mem s.p)
        · have hpass := entry_other hknown
          rw [hpass.ncpu] at hstores
          rw [hpass.p] at htiles
          have hspan := hspans (s.p, MPENTRY)
            ((entries_mono n _).2 (by rw [hpass.spans]; exact List.mem_cons_self))
          exact ⟨k, .other hknown hspan htiles, hstores⟩
        · rw [entry_unknown hproc hknown] at htiles hstores ⊢
          exact ⟨k, htiles, hstores⟩
    · exact ⟨0, .done (not_lt.mp hlt), fun i h1 h2 => by omega⟩

end loop

theorem total_iff (mem : Memory) (conf : ℕ) :
    Total mem conf ↔ ∃ k ≤ NCPU, Tiles mem (conf + length mem conf) (conf + MPCONF) k := by
  constructor
  · rintro ⟨n, hend, hspans, hstores, -⟩
    obtain ⟨k, htiles, hk⟩ := tiles_of_entries n (start mem conf) hend fun q hq => (hspans q hq).2
    refine ⟨k, ?_, htiles⟩
    by_contra hlt
    have hcount : (start mem conf).ncpu = 0 := rfl
    exact lt_irrefl _ (hstores NCPU (hk NCPU (Nat.zero_le _) (by omega)))
  · rintro ⟨k, hk, htiles⟩
    obtain ⟨n, hend, hncpu, hstores, hspans⟩ := htiles.entries (s := start mem conf) rfl
    have hcount : (start mem conf).ncpu = 0 := rfl
    have hone : 1 ≤ NCPU := by decide
    refine ⟨n, hend, fun q hq => ?_, fun i hi => ?_, ?_⟩
    · rcases hspans q hq with hq | ⟨hlo, hhi⟩
      · exact absurd hq List.not_mem_nil
      · exact ⟨by omega, hhi⟩
    · rcases hstores i hi with hi | hi
      · exact absurd hi List.not_mem_nil
      · omega
    · unfold finish
      split_ifs
      · omega
      · exact hone

/-- `mpinit` is in order exactly if entries of known types, at most `NCPU` of them processors, fill
the table that `mpconfig` accepts. -/
theorem mpinit_total_iff (mem : Memory) :
    (∀ mp conf, mpconfig mem = some (mp, conf) → Total mem conf) ↔
      ∀ mp conf, mpconfig mem = some (mp, conf) →
        ∃ k ≤ NCPU, Tiles mem (conf + length mem conf) (conf + MPCONF) k := by
  simp only [total_iff]

/-- A memory with a table of `bytes` at `0x20000`, found through the EBDA at `0x10000`. -/
def firmware (table : List UInt8) : Memory := fun a =>
  if a = 0x40F then 0x10
  else if 0x10000 ≤ a ∧ a < 0x10010 then
    [95, 77, 80, 95, 0, 0, 2, 0, 1, 4, 0x9e, 0, 0, 0, 0, 0].getD (a - 0x10000) 0
  else if 0x20000 ≤ a then table.getD (a - 0x20000) 0
  else 0

def badTable : List UInt8 :=
  [80, 67, 77, 80, 45, 0, 4, 0x9a] ++ List.replicate 36 0 ++ [5]

theorem entries_unknown {mem : Memory} {e : ℕ} (n : ℕ) {s : Scan} (hproc : mem s.p ≠ MPPROC)
    (h : ¬ Known (mem s.p)) : (entries mem e n s).p = s.p := by
  induction n generalizing s with
  | zero => rfl
  | succ n ih =>
    by_cases hlt : s.p < e
    · rw [entries_of_lt hlt, entry_unknown hproc h]
      exact ih hproc h
    · rw [entries_of_ge hlt]

/-- `mpconfig` accepts the table, and `mpinit` never gets past its entry. -/
theorem mpinit_unknown_entry :
    mpconfig (firmware badTable) = some (0x10000, 0x20000) ∧
      ∀ n, (entries (firmware badTable) (0x20000 + length (firmware badTable) 0x20000) n
        (start (firmware badTable) 0x20000)).p < 0x20000 + length (firmware badTable) 0x20000 := by
  refine ⟨by decide, fun n => ?_⟩
  have htype : firmware badTable (start (firmware badTable) 0x20000).p = 5 := by decide
  rw [entries_unknown n (by rw [htype]; decide) (by rw [htype]; unfold Known; decide)]
  decide

end Xv6.Mp
