import Xv6.Vm.Walk
import Mathlib.Data.List.Range
import Mathlib.Order.Interval.Finset.Nat

/-! `mappages` maps exactly the pages of its range. -/
namespace Xv6
namespace Vm
open Prog

/-- The physical address and the flags that the entry of page `u` gives, if it is present. -/
def translate (s : Mem) (d u : ℕ) : Option (ℕ × ℕ) :=
  if pteAt s d u % 2 = 1 then some (pteAt s d u / PGSIZE * PGSIZE, pteAt s d u % PGSIZE) else none

/-- The directory entries without a page table among those for `n` pages from `v` on. -/
def missing (s : Mem) (d v n : ℕ) : Finset ℕ :=
  (Finset.range NPDENTRIES).filter fun p =>
    v / NPTENTRIES ≤ p ∧ p ≤ (v + n - 1) / NPTENTRIES ∧ tableAt s d p = none

def pagesIn (va size : ℕ) : ℕ := (va + size - 1) / PGSIZE - va / PGSIZE + 1

section mappages

variable {k : Image} {s t : Mem} {d v n pa perm : ℕ}

/-- Where every missing page table can be allocated, the pages before a failure leave room for
one more. -/
theorem Mapped.room {m : ℕ} (hs : Tables k s fun _ : Unit => some d) (hv : v + n ≤ 2 ^ 20)
    (h : Mapped k (fun _ : Unit => some d) () v m pa perm s t) (hm : m < n)
    (hroom : (missing s d v n).card ≤ s.free.length)
    (hnone : tableAt t d ((v + m) / NPTENTRIES) = none) : t.free ≠ [] := by
  intro hfree
  have hN : NPTENTRIES = 1024 := rfl
  have hP : NPDENTRIES = 1024 := rfl
  have hlt : (v + m) / NPTENTRIES < NPDENTRIES := by
    rw [hN, hP]
    omega
  have hspine : ∀ r i, i < NPDENTRIES → spine r (fun _ : Unit => some d) (.table () i) =
      tableAt r d i := fun r i hi => spine_table rfl hi
  have hself : (v + m) / NPTENTRIES ∈ missing s d v n := by
    refine Finset.mem_filter.mpr ⟨Finset.mem_range.mpr hlt, ?_, ?_, ?_⟩
    · exact Nat.div_le_div_right (Nat.le_add_right v m)
    · exact Nat.div_le_div_right (by omega)
    · cases hst : tableAt s d ((v + m) / NPTENTRIES) with
      | none => rfl
      | some f =>
        have hkept := h.grown.kept (.table () ((v + m) / NPTENTRIES)) f
        rw [hspine s _ hlt, hspine t _ hlt, hnone] at hkept
        cases hkept hst
  have hle := h.grown.free_length (F := (missing s d v n).erase ((v + m) / NPTENTRIES)) hs (by
    rintro i ⟨u, hlo, hhi, rfl⟩ hi hsn htn
    rw [hspine _ _ hi] at hsn htn
    refine Finset.mem_erase.mpr ⟨fun heq => htn (heq ▸ hnone), ?_⟩
    refine Finset.mem_filter.mpr ⟨Finset.mem_range.mpr hi, ?_, ?_, hsn⟩
    · exact Nat.div_le_div_right hlo
    · exact Nat.div_le_div_right (by omega))
  have hcard := Finset.card_erase_of_mem hself
  have hpos := Finset.card_pos.mpr ⟨_, hself⟩
  rw [hfree, List.length_nil] at hle
  omega

theorem mappages_maps (hs : Tables k s fun _ : Unit => some d) {va size : ℕ} (pa perm : ℕ)
    (hsize : 0 < size) (hva : va + size - 1 < 2 ^ 32) (hpa : pa < 2 ^ 32) (hperm : perm < 2 ^ 32)
    (habsent : ∀ i < pagesIn va size, pteAt s d (va / PGSIZE + i) % 2 = 0)
    (hroom : (missing s d (va / PGSIZE) (pagesIn va size)).card ≤ s.free.length) :
    ∃ t, mappages d va size pa perm s = .ok true t ∧
      Mapped k (fun _ : Unit => some d) () (va / PGSIZE) (pagesIn va size) pa perm s t := by
  have hG : PGSIZE = 4096 := rfl
  have hlast : PGROUNDDOWN ((va + size + (2 ^ 32 - 1)) % 2 ^ 32) =
      (va / PGSIZE + pagesIn va size - 1) * PGSIZE := by
    have hmod : (va + size + (2 ^ 32 - 1)) % 2 ^ 32 = va + size - 1 := by omega
    have hdiv : va / PGSIZE ≤ (va + size - 1) / PGSIZE := Nat.div_le_div_right (by omega)
    have hpages : va / PGSIZE + pagesIn va size - 1 = (va + size - 1) / PGSIZE := by
      rw [pagesIn, ← Nat.add_assoc, Nat.add_sub_cancel, Nat.add_sub_cancel' hdiv]
    rw [hmod, PGROUNDDOWN, hpages]
  have hv : va / PGSIZE + pagesIn va size ≤ 2 ^ 20 := by
    have hdiv : va / PGSIZE ≤ (va + size - 1) / PGSIZE := Nat.div_le_div_right (by omega)
    rw [pagesIn]
    rw [hG] at hdiv ⊢
    omega
  have hspec := mappagesFrom_spec hs (x := ()) rfl (v := va / PGSIZE) (n := pagesIn va size)
    (Nat.succ_pos _) hv hpa hperm (le_trans (Nat.le_add_left ..) hv)
  rw [← hlast] at hspec
  have hrun : mappages d va size pa perm = mappagesFrom d
      (PGROUNDDOWN ((va + size + (2 ^ 32 - 1)) % 2 ^ 32)) perm (2 ^ 20) (va / PGSIZE * PGSIZE) pa :=
    rfl
  rw [← hrun] at hspec
  cases hok : mappages d va size pa perm s with
  | stop msg =>
    rw [wp_of_stop hok] at hspec
    obtain ⟨-, u, hlo, hhi, hodd⟩ := hspec
    have hzero := habsent (u - va / PGSIZE) (by omega)
    rw [show va / PGSIZE + (u - va / PGSIZE) = u by omega] at hzero
    omega
  | ok ok t =>
    rw [wp_of_eq hok] at hspec
    obtain ⟨m, -, hmap, htrue, hfalse⟩ := hspec
    cases ok with
    | true => exact ⟨t, rfl, htrue rfl ▸ hmap⟩
    | false =>
      obtain ⟨hlt, hfree, hnone⟩ := hfalse rfl
      exact absurd hfree (hmap.room hs hv hlt hroom hnone)

theorem translate_mapped {i : ℕ} (hpa : pa % PGSIZE = 0) (hperm : perm < PGSIZE)
    (h : pteAt t d v = mapped pa perm i) :
    translate t d v = some ((pa + i * PGSIZE) % 2 ^ 32, perm ||| PTE_P) := by
  have hG : PGSIZE = 4096 := rfl
  have hframe : (pa + i * PGSIZE) % 2 ^ 32 = (pa + i * PGSIZE) % 2 ^ 32 / PGSIZE * PGSIZE := by
    rw [hG] at hpa ⊢
    omega
  have hentry : mapped pa perm i = entry ((pa + i * PGSIZE) % 2 ^ 32 / PGSIZE) perm := by
    rw [mapped, entry, ← hframe]
  rw [translate, h, hentry, if_pos entry_odd, entry_div hperm, entry_mod hperm, ← hframe]

end mappages

/-- `mappages` maps every page of its range, and changes the translation of no other page. -/
theorem mappages_exact (k : Image) (s : Mem) (d : ℕ) (hs : Tables k s fun _ : Unit => some d)
    (va size pa perm : ℕ) (hsize : 0 < size) (hva : va + size - 1 < 2 ^ 32) (hpa : pa < 2 ^ 32)
    (haligned : pa % PGSIZE = 0) (hperm : perm < PGSIZE)
    (habsent : ∀ i < pagesIn va size, translate s d (va / PGSIZE + i) = none)
    (hroom : (missing s d (va / PGSIZE) (pagesIn va size)).card ≤ s.free.length) :
    ∃ t, mappages d va size pa perm s = .ok true t ∧
      (∀ i < pagesIn va size,
        translate t d (va / PGSIZE + i) = some ((pa + i * PGSIZE) % 2 ^ 32, perm ||| PTE_P)) ∧
      ∀ u < 2 ^ 20, u < va / PGSIZE ∨ va / PGSIZE + pagesIn va size ≤ u →
        translate t d u = translate s d u := by
  have hG : PGSIZE = 4096 := rfl
  have hzero : ∀ i < pagesIn va size, pteAt s d (va / PGSIZE + i) % 2 = 0 := by
    intro i hi
    have habs := habsent i hi
    unfold translate at habs
    split_ifs at habs
    omega
  obtain ⟨t, hrun, hmap⟩ := mappages_maps hs pa perm hsize hva hpa (by omega) hzero hroom
  refine ⟨t, hrun, ?_, ?_⟩
  · intro i hi
    have hlt : va / PGSIZE + i < 2 ^ 20 := by
      have hdiv : va / PGSIZE ≤ (va + size - 1) / PGSIZE := Nat.div_le_div_right (by omega)
      rw [pagesIn] at hi
      rw [hG] at hi hdiv ⊢
      omega
    have hpte := (hmap.ptes () d _ rfl hlt).1 rfl (Nat.le_add_right ..) (by omega)
    rw [Nat.add_sub_cancel_left] at hpte
    exact translate_mapped haligned hperm hpte
  · intro u hu hout
    have hpte := (hmap.ptes () d u rfl hu).2 (by omega)
    rw [translate, translate, hpte]

def emptyDirectory : Mem := ⟨fun _ => fill 0, List.range' 1025 16⟩

def smallKernel : Image where
  data := KERNLINK + PGSIZE
  kend := KERNLINK + PGSIZE
  data_aligned := by decide
  text := by decide
  data_le := le_rfl
  kend_le := by decide

theorem word_emptyDirectory (f i : ℕ) : emptyDirectory.word f i = 0 := Bytes.word_zero _

theorem tableAt_emptyDirectory (d i : ℕ) : tableAt emptyDirectory d i = none := by
  rw [tableAt, word_emptyDirectory, if_neg (by decide)]

theorem pteAt_emptyDirectory (d u : ℕ) : pteAt emptyDirectory d u = 0 := by
  rw [pteAt, tableAt_emptyDirectory]

theorem translate_emptyDirectory (d u : ℕ) : translate emptyDirectory d u = none := by
  rw [translate, pteAt_emptyDirectory, if_neg (by decide)]

theorem pool_smallKernel {f : ℕ} (hlo : 1024 ≤ f) (hhi : f ≤ 1040) : smallKernel.Pool f := by
  have hkend : smallKernel.kend = 2 ^ 31 + 1052672 := by decide
  have hK : KERNBASE = 2 ^ 31 := KERNBASE_eq
  have hP : PHYSTOP = 234881024 := rfl
  rw [Image.Pool, hkend, p2v, hK, hP, PGSIZE_eq]
  omega

theorem tables_emptyDirectory : Tables smallKernel emptyDirectory fun _ : Unit => some 1024 := by
  have hspine : ∀ z f, spine emptyDirectory (fun _ : Unit => some 1024) z = some f →
      z = .dir () ∧ f = 1024 := by
    intro z f hz
    cases z with
    | dir x => exact ⟨rfl, (Option.some.inj hz).symm⟩
    | table x i =>
      obtain ⟨-, d, -, ht⟩ := spine_table_some hz
      rw [tableAt_emptyDirectory] at ht
      cases ht
  refine ⟨⟨List.nodup_range', ?_, ?_⟩, ?_, ?_⟩
  · intro z z' f hz hz'
    rw [(hspine z f hz).1, (hspine z' f hz').1]
  · intro z f hz
    rw [(hspine z f hz).2]
    decide
  · intro f hf
    have hmem := List.mem_range'_1.mp hf
    exact pool_smallKernel (by omega) (by omega)
  · intro z f hz
    rw [(hspine z f hz).2]
    exact pool_smallKernel le_rfl (by omega)

theorem card_missing {s : Mem} {d v n a b : ℕ} (ha : v / NPTENTRIES = a)
    (hb : (v + n - 1) / NPTENTRIES = b) : (missing s d v n).card ≤ b + 1 - a := by
  have hsub : missing s d v n ⊆ Finset.Icc a b := by
    intro p hp
    obtain ⟨-, h1, h2, -⟩ := Finset.mem_filter.mp hp
    exact Finset.mem_Icc.mpr ⟨ha ▸ h1, hb ▸ h2⟩
  exact (Finset.card_le_card hsub).trans (Nat.card_Icc a b).le

/-- The mapping of the devices, whose last page ends at `2 ^ 32`. -/
theorem mappages_exact_devices :
    ∃ t, mappages 1024 DEVSPACE (2 ^ 32 - DEVSPACE) DEVSPACE PTE_W emptyDirectory = .ok true t ∧
      translate t 1024 (2 ^ 20 - 1) = some (2 ^ 32 - PGSIZE, PTE_W ||| PTE_P) := by
  have hfirst : DEVSPACE / PGSIZE = 1040384 := by decide
  have hpages : pagesIn DEVSPACE (2 ^ 32 - DEVSPACE) = 8192 := by decide
  obtain ⟨t, hrun, hmap, -⟩ := mappages_exact smallKernel emptyDirectory 1024 tables_emptyDirectory
    DEVSPACE (2 ^ 32 - DEVSPACE) DEVSPACE PTE_W (by decide) (by decide) (by decide) (by decide)
    (by decide) (fun i _ => translate_emptyDirectory ..) (by
      rw [hfirst, hpages]
      exact (card_missing (a := 1016) (b := 1023) (by decide) (by decide)).trans (by decide))
  refine ⟨t, hrun, ?_⟩
  have hlast := hmap 8191 (by rw [hpages]; decide)
  rw [hfirst] at hlast
  exact hlast

/-- The low bits of a physical address that is not aligned become flags. -/
theorem mappages_unaligned : ∃ t, mappages 1024 0 1 2 0 emptyDirectory = .ok true t ∧
    translate t 1024 0 = some (0, PTE_W ||| PTE_P) := by
  have hva : 0 + 1 - 1 < 2 ^ 32 := by decide
  have habsent : ∀ i < pagesIn 0 1, pteAt emptyDirectory 1024 (0 / PGSIZE + i) % 2 = 0 := by
    intro i _
    rw [pteAt_emptyDirectory]
  obtain ⟨t, hrun, hmap⟩ := mappages_maps tables_emptyDirectory 2 0 one_pos hva (by decide)
    (by decide) habsent ((card_missing (a := 0) (b := 0) (by decide) (by decide)).trans (by decide))
  refine ⟨t, hrun, ?_⟩
  have hpte := (hmap.ptes () 1024 0 rfl (by decide)).1 rfl (by decide) (by decide)
  rw [translate, hpte]
  decide

end Vm
end Xv6
