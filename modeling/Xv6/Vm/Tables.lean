import Xv6.Vm.Paging
import Xv6.Lib.Exclusive
import Mathlib.Tactic.NormNum

/-! Page directories and their page tables: the entries they hold, and what `walkpgdir` and
`mappages` do to them. -/
namespace Xv6
namespace Vm
open Prog

theorem PGSIZE_eq : PGSIZE = 4096 := rfl

theorem NPDENTRIES_eq : NPDENTRIES = 1024 := rfl

theorem KERNBASE_eq : KERNBASE = 2 ^ 31 := by
  norm_num [KERNBASE]

/-- A frame of the memory that `main` hands to `freerange`. -/
def Image.Pool (k : Image) (f : ℕ) : Prop := k.kend ≤ p2v (f * PGSIZE) ∧ f * PGSIZE < PHYSTOP

theorem Image.Pool.lt {k : Image} {f : ℕ} (h : k.Pool f) : f < 2 ^ 20 := by
  have hlt := h.2
  rw [PGSIZE_eq, PHYSTOP] at hlt
  omega

theorem Image.Pool.ne_zero {k : Image} {f : ℕ} (h : k.Pool f) : f ≠ 0 := by
  rintro rfl
  have hle := h.1
  have h1 := k.text
  have h2 := k.data_le
  rw [p2v, KERNBASE_eq] at hle
  rw [KERNLINK, EXTMEM, KERNBASE_eq] at h1
  omega

/-- The page table that entry `i` of directory `d` refers to. -/
def tableAt (s : Mem) (d i : ℕ) : Option ℕ :=
  if s.word d i % 2 = 1 then some (s.word d i / PGSIZE) else none

/-- The page-table entry of page `v` in directory `d`, 0 where there is no page table. -/
def pteAt (s : Mem) (d v : ℕ) : ℕ :=
  match tableAt s d (v / NPTENTRIES) with
  | none => 0
  | some t => s.word t (v % NPTENTRIES)

section words

variable {s : Mem} {f g i j w : ℕ}

theorem word_setPage_of_ne (h : g ≠ f) (p : Page) (j : ℕ) :
    (s.setPage f p).word g j = s.word g j := by
  simp only [Mem.word, Mem.setPage, Function.update_of_ne h]

theorem word_setWord_same (hi : i < NPTENTRIES) : (s.setWord f i w).word f i = w % 2 ^ 32 := by
  simp only [Mem.word, Mem.setWord, Mem.setPage, Function.update_self]
  rw [Bytes.word_setWord_same]
  rw [NPTENTRIES] at hi
  rw [PGSIZE_eq]
  omega

theorem word_setWord_of_ne (h : g ≠ f ∨ j ≠ i) : (s.setWord f i w).word g j = s.word g j := by
  by_cases hg : g = f
  · have hj : j ≠ i := h.resolve_left fun hne => hne hg
    simp only [Mem.word, Mem.setWord, Mem.setPage, hg, Function.update_self]
    exact Bytes.word_setWord_disjoint (by omega)
  · exact word_setPage_of_ne hg _ j

theorem word_lt (s : Mem) (f i : ℕ) : s.word f i < 2 ^ 32 := Bytes.word_lt _ _

theorem tableAt_congr {t : Mem} {d : ℕ} (h : t.word d i = s.word d i) :
    tableAt t d i = tableAt s d i := by
  rw [tableAt, tableAt, h]

theorem PDX_page {v : ℕ} (hv : v < 2 ^ 20) : PDX (v * PGSIZE) = v / NPTENTRIES := by
  rw [PDX, PGSIZE_eq, NPTENTRIES]
  omega

theorem PTX_page (v : ℕ) : PTX (v * PGSIZE) = v % NPTENTRIES := by
  rw [PTX, PGSIZE_eq, NPTENTRIES]
  omega

end words

/-- The pages that make up directories: each directory and its page tables. -/
inductive Spine (ι : Type) where
  | dir (x : ι)
  | table (x : ι) (i : ℕ)
  deriving DecidableEq

variable {ι : Type}

def spine (s : Mem) (D : ι → Option ℕ) : Spine ι → Option ℕ
  | .dir x => D x
  | .table x i => if i < NPDENTRIES then (D x).bind fun d => tableAt s d i else none

/-- Directories and page tables are distinct pages of the pool, none of them free. -/
structure Tables (k : Image) (s : Mem) (D : ι → Option ℕ) : Prop where
  excl : Exclusive s.free (spine s D)
  pool : ∀ f ∈ s.free, k.Pool f
  held : ∀ x f, spine s D x = some f → k.Pool f

section spine

variable {k : Image} {s t u : Mem} {D : ι → Option ℕ} {x y : ι} {d e f i j p v w : ℕ}

theorem spine_table (hx : D x = some d) (hi : i < NPDENTRIES) :
    spine s D (.table x i) = tableAt s d i := by
  simp [spine, hi, hx]

theorem spine_table_some (h : spine s D (.table x i) = some f) :
    i < NPDENTRIES ∧ ∃ d, D x = some d ∧ tableAt s d i = some f := by
  simp only [spine] at h
  split_ifs at h with hi
  exact ⟨hi, Option.bind_eq_some_iff.mp h⟩

namespace Tables

theorem dir_inj (h : Tables k s D) (hx : D x = some d) (hy : D y = some d) : y = x := by
  have heq := h.excl.inj (.dir x) (.dir y) d hx hy
  exact (Spine.dir.inj heq).symm

theorem table_ne_dir (h : Tables k s D) (hx : D x = some d) (hi : i < NPDENTRIES)
    (ht : tableAt s d i = some f) (hy : D y = some e) : e ≠ f := by
  rintro rfl
  have heq := h.excl.inj (.table x i) (.dir y) e (by rw [spine_table hx hi, ht]) hy
  simp at heq

theorem table_inj (h : Tables k s D) (hx : D x = some d) (hi : i < NPDENTRIES)
    (ht : tableAt s d i = some f) (hy : D y = some e) (hj : j < NPDENTRIES)
    (ht' : tableAt s e j = some f) : y = x ∧ j = i := by
  have heq := h.excl.inj (.table x i) (.table y j) f (by rw [spine_table hx hi, ht])
    (by rw [spine_table hy hj, ht'])
  obtain ⟨h1, h2⟩ := Spine.table.inj heq
  exact ⟨h1.symm, h2.symm⟩

theorem dir_notMem (h : Tables k s D) (hx : D x = some d) : d ∉ s.free := h.excl.apart (.dir x) d hx

theorem table_notMem (h : Tables k s D) (hx : D x = some d) (hi : i < NPDENTRIES)
    (ht : tableAt s d i = some f) : f ∉ s.free :=
  h.excl.apart (.table x i) f (by rw [spine_table hx hi, ht])

theorem tableAt_setWord (h : Tables k s D) (hx : D x = some d) (hp : p < NPDENTRIES)
    (ht : tableAt s d p = some f) (hy : D y = some e) (j w i : ℕ) :
    tableAt (s.setWord f j w) e i = tableAt s e i :=
  tableAt_congr (word_setWord_of_ne (Or.inl (h.table_ne_dir hx hp ht hy)))

theorem spine_setWord (h : Tables k s D) (hx : D x = some d) (hp : p < NPDENTRIES)
    (ht : tableAt s d p = some f) (j w : ℕ) : spine (s.setWord f j w) D = spine s D := by
  funext z
  cases z with
  | dir y => rfl
  | table y i =>
    simp only [spine]
    split_ifs with hi
    · cases hy : D y with
      | none => rw [Option.bind_none, Option.bind_none]
      | some e => rw [Option.bind_some, Option.bind_some, h.tableAt_setWord hx hp ht hy]
    · rfl

theorem setWord (h : Tables k s D) (hx : D x = some d) (hp : p < NPDENTRIES)
    (ht : tableAt s d p = some f) (j w : ℕ) : Tables k (s.setWord f j w) D := by
  have hspine := h.spine_setWord hx hp ht j w
  refine ⟨?_, h.pool, ?_⟩
  · rw [hspine]
    exact h.excl
  · rw [hspine]
    exact h.held

theorem pteAt_setWord [DecidableEq ι] (h : Tables k s D) (hx : D x = some d)
    (ht : tableAt s d (v / NPTENTRIES) = some f) (hv : v < 2 ^ 20) (hw : w < 2 ^ 32)
    (hy : D y = some e) {u : ℕ} (hu : u < 2 ^ 20) :
    pteAt (s.setWord f (v % NPTENTRIES) w) e u = if y = x ∧ u = v then w else pteAt s e u := by
  have hN : NPTENTRIES = 1024 := rfl
  have hp : v / NPTENTRIES < NPDENTRIES := by
    rw [hN, NPDENTRIES_eq]
    omega
  have hq : u / NPTENTRIES < NPDENTRIES := by
    rw [hN, NPDENTRIES_eq]
    omega
  have hmod : v % NPTENTRIES < NPTENTRIES := Nat.mod_lt v (by decide)
  unfold pteAt
  rw [h.tableAt_setWord hx hp ht hy]
  cases htu : tableAt s e (u / NPTENTRIES) with
  | none =>
    have hne : ¬ (y = x ∧ u = v) := by
      rintro ⟨rfl, rfl⟩
      rw [hx] at hy
      obtain rfl := Option.some.inj hy
      rw [ht] at htu
      simp at htu
    rw [if_neg hne]
  | some g =>
    dsimp only
    by_cases hg : g = f
    · subst hg
      obtain ⟨rfl, hdiv⟩ := h.table_inj hx hp ht hy hq htu
      by_cases hmodeq : u % NPTENTRIES = v % NPTENTRIES
      · have huv : u = v := by
          rw [hN] at hdiv hmodeq
          omega
        rw [if_pos ⟨rfl, huv⟩, hmodeq, word_setWord_same hmod, Nat.mod_eq_of_lt hw]
      · rw [if_neg (by rintro ⟨-, rfl⟩; exact hmodeq rfl)]
        exact word_setWord_of_ne (Or.inr hmodeq)
    · have hne : ¬ (y = x ∧ u = v) := by
        rintro ⟨rfl, rfl⟩
        rw [hx] at hy
        obtain rfl := Option.some.inj hy
        rw [ht] at htu
        exact hg (Option.some.inj htu).symm
      rw [if_neg hne]
      exact word_setWord_of_ne (Or.inl hg)

end Tables

end spine

end Vm
end Xv6
