import Xv6.Vm.Spaces
import Mathlib.Order.Interval.Finset.Nat

/-! The kernel half of an address space: what `setupkvm`, `inituvm` and `copyuvm` build. -/
namespace Xv6
namespace Vm
open Prog

namespace Kmap

def first (m : Kmap) : ℕ := m.virt / PGSIZE

def count (m : Kmap) : ℕ := (m.physEnd + 2 ^ 32 - m.physStart) % 2 ^ 32 / PGSIZE

def Covers (m : Kmap) (u : ℕ) : Prop := m.first ≤ u ∧ u < m.first + m.count

instance (m : Kmap) (u : ℕ) : Decidable (m.Covers u) :=
  inferInstanceAs (Decidable (m.first ≤ u ∧ u < m.first + m.count))

/-- A range of whole pages in the upper half. -/
structure Good (m : Kmap) : Prop where
  virt : m.virt = m.first * PGSIZE
  size : (m.physEnd + 2 ^ 32 - m.physStart) % 2 ^ 32 = m.count * PGSIZE
  pos : 0 < m.count
  upper : userPages ≤ m.first
  bound : m.first + m.count ≤ 2 ^ 20
  phys : m.physStart < 2 ^ 32
  perm : m.perm < 2 ^ 32

end Kmap

def ptesOf : List Kmap → ℕ → ℕ
  | [], _ => 0
  | m :: ms, u => if m.Covers u then mapped m.physStart m.perm (u - m.first) else ptesOf ms u

def kernelPte (k : Image) (u : ℕ) : ℕ := ptesOf (kmap k) u

theorem Image.data_bounds (k : Image) :
    k.data % 4096 = 0 ∧ 0x80100000 < k.data ∧ k.data ≤ 0x80400000 := by
  have h1 := k.text
  have h2 := k.data_le
  have h3 := k.kend_le
  rw [KERNLINK, KERNBASE, EXTMEM] at h1
  rw [KERNBASE] at h3
  exact ⟨k.data_aligned, by omega, by omega⟩

theorem kmap_eq (k : Image) : kmap k =
    [⟨0x80000000, 0, 0x100000, 2⟩, ⟨0x80100000, 0x100000, k.data - 0x80000000, 0⟩,
      ⟨k.data, k.data - 0x80000000, 0xE000000, 2⟩, ⟨0xFE000000, 0xFE000000, 0, 2⟩] := by
  obtain ⟨-, h1, h2⟩ := k.data_bounds
  have hdata : v2p k.data = k.data - 0x80000000 := by
    rw [v2p, KERNBASE]
    omega
  have hlink : v2p KERNLINK = 0x100000 := by decide
  have hlink' : KERNLINK = 0x80100000 := by decide
  rw [kmap, hdata, hlink, hlink', KERNBASE, EXTMEM, PHYSTOP, DEVSPACE, PTE_W]

theorem Kmap.good_of {m : Kmap} {a n : ℕ} (hvirt : m.virt = a * 4096)
    (hsize : (m.physEnd + 2 ^ 32 - m.physStart) % 2 ^ 32 = n * 4096) (hn : 0 < n)
    (ha : 2 ^ 19 ≤ a) (hend : a + n ≤ 2 ^ 20) (hphys : m.physStart < 2 ^ 32)
    (hperm : m.perm < 2 ^ 32) : m.Good ∧ m.first = a ∧ m.count = n := by
  have hfirst : m.first = a := by
    rw [Kmap.first, hvirt, PGSIZE_eq]
    omega
  have hcount : m.count = n := by
    rw [Kmap.count, hsize, PGSIZE_eq]
    omega
  refine ⟨⟨?_, ?_, ?_, ?_, ?_, hphys, hperm⟩, hfirst, hcount⟩
  · rw [hfirst, hvirt, PGSIZE_eq]
  · rw [hcount, hsize, PGSIZE_eq]
  · rw [hcount]
    exact hn
  · rw [hfirst, userPages_eq]
    exact ha
  · rw [hfirst, hcount]
    exact hend

theorem kmap_ranges (k : Image) :
    (kmap k).map (fun m => (m.first, m.count)) =
      [(0x80000, 0x100), (0x80100, k.data / 4096 - 0x80100),
        (k.data / 4096, 0x8E000 - k.data / 4096), (0xFE000, 0x2000)] ∧ ∀ m ∈ kmap k, m.Good := by
  obtain ⟨h0, h1, h2⟩ := k.data_bounds
  obtain ⟨g1, a1, n1⟩ := Kmap.good_of (m := ⟨0x80000000, 0, 0x100000, 2⟩) (a := 0x80000)
    (n := 0x100) (by decide) (by decide) (by decide) (by decide) (by decide) (by decide) (by decide)
  obtain ⟨g2, a2, n2⟩ := Kmap.good_of (m := ⟨0x80100000, 0x100000, k.data - 0x80000000, 0⟩)
    (a := 0x80100) (n := k.data / 4096 - 0x80100) (by dsimp only) (by dsimp only; omega)
    (by omega) (by decide) (by omega) (by dsimp only; omega) (by dsimp only; omega)
  obtain ⟨g3, a3, n3⟩ := Kmap.good_of (m := ⟨k.data, k.data - 0x80000000, 0xE000000, 2⟩)
    (a := k.data / 4096) (n := 0x8E000 - k.data / 4096) (by dsimp only; omega)
    (by dsimp only; omega) (by omega) (by omega) (by omega) (by dsimp only; omega)
    (by dsimp only; omega)
  obtain ⟨g4, a4, n4⟩ := Kmap.good_of (m := ⟨0xFE000000, 0xFE000000, 0, 2⟩) (a := 0xFE000)
    (n := 0x2000) (by decide) (by decide) (by decide) (by decide) (by decide) (by decide)
    (by decide)
  rw [kmap_eq]
  refine ⟨?_, ?_⟩
  · simp only [List.map_cons, List.map_nil, a1, a2, a3, a4, n1, n2, n3, n4]
  · intro m hm
    simp only [List.mem_cons, List.not_mem_nil, or_false] at hm
    rcases hm with rfl | rfl | rfl | rfl
    · exact g1
    · exact g2
    · exact g3
    · exact g4

theorem kmap_disjoint (k : Image) :
    (kmap k).Pairwise fun m m' => ∀ u, m.Covers u → ¬ m'.Covers u := by
  obtain ⟨h0, h1, h2⟩ := k.data_bounds
  have hranges : ((kmap k).map fun m => (m.first, m.count)).Pairwise
      fun p q => ∀ u, p.1 ≤ u ∧ u < p.1 + p.2 → ¬ (q.1 ≤ u ∧ u < q.1 + q.2) := by
    rw [(kmap_ranges k).1]
    simp only [List.pairwise_cons, List.mem_cons, List.not_mem_nil, or_false, forall_eq_or_imp,
      forall_eq, List.Pairwise.nil, and_true, false_imp_iff, implies_true]
    refine ⟨⟨?_, ?_, ?_⟩, ⟨?_, ?_⟩, ?_⟩ <;> intro u <;> omega
  exact List.pairwise_map.mp hranges

/-- The page tables of the kernel half. -/
def kernelTables : Finset ℕ := Finset.Ico 512 568 ∪ Finset.Ico 1016 1024

theorem kernelTables_card : kernelTables.card = 64 := by
  have hdisj : Disjoint (Finset.Ico 512 568) (Finset.Ico 1016 1024) := by
    refine Finset.disjoint_left.mpr ?_
    intro i h1 h2
    rw [Finset.mem_Ico] at h1 h2
    omega
  rw [kernelTables, Finset.card_union_of_disjoint hdisj, Nat.card_Ico, Nat.card_Ico]

theorem mem_kernelTables {k : Image} {m : Kmap} {u : ℕ} (hm : m ∈ kmap k) (hu : m.Covers u) :
    u / NPTENTRIES ∈ kernelTables := by
  obtain ⟨-, h1, h2⟩ := k.data_bounds
  have hpair : (m.first, m.count) ∈ (kmap k).map fun m => (m.first, m.count) :=
    List.mem_map.mpr ⟨m, hm, rfl⟩
  obtain ⟨hlo, hhi⟩ := hu
  rw [(kmap_ranges k).1] at hpair
  simp only [List.mem_cons, Prod.mk.injEq, List.not_mem_nil, or_false] at hpair
  rw [kernelTables, Finset.mem_union, Finset.mem_Ico, Finset.mem_Ico, NPTENTRIES]
  omega

theorem kernelTables_lt {i : ℕ} (hi : i ∈ kernelTables) : i < NPDENTRIES := by
  rw [kernelTables, Finset.mem_union, Finset.mem_Ico, Finset.mem_Ico] at hi
  rw [NPDENTRIES_eq]
  omega

theorem covers_of_kernelTables (k : Image) {i : ℕ} (hi : i ∈ kernelTables) :
    ∃ m ∈ kmap k, m.Covers (i * NPTENTRIES) := by
  obtain ⟨-, h1, h2⟩ := k.data_bounds
  have hpair : ∃ q ∈ (kmap k).map fun m => (m.first, m.count),
      q.1 ≤ i * NPTENTRIES ∧ i * NPTENTRIES < q.1 + q.2 := by
    rw [kernelTables, Finset.mem_union, Finset.mem_Ico, Finset.mem_Ico] at hi
    rw [(kmap_ranges k).1, NPTENTRIES]
    simp only [List.mem_cons, List.not_mem_nil, or_false, exists_eq_or_imp, exists_eq_left]
    omega
  obtain ⟨q, hq, hcov⟩ := hpair
  obtain ⟨m, hm, rfl⟩ := List.mem_map.mp hq
  exact ⟨m, hm, hcov⟩

section setup

variable {ι κ : Type} [DecidableEq ι] {k : Image} {s t : Mem} {D : ι → Option ℕ}
  {O : κ → Option ℕ} {x : ι} {d v : ℕ}

theorem ptesOf_of_not {l : List Kmap} {u : ℕ} (h : ∀ m ∈ l, ¬ m.Covers u) : ptesOf l u = 0 := by
  induction l with
  | nil => rfl
  | cons m ms ih =>
    rw [ptesOf, if_neg (h m List.mem_cons_self)]
    exact ih fun m' hm' => h m' (List.mem_cons_of_mem m hm')

theorem ptesOf_odd {l : List Kmap} {u : ℕ} (h : ∃ m ∈ l, m.Covers u) : ptesOf l u % 2 = 1 := by
  induction l with
  | nil => simp at h
  | cons m ms ih =>
    rw [ptesOf]
    split_ifs with hcov
    · exact or_one_odd _
    · obtain ⟨m', hm', hcov'⟩ := h
      rcases List.mem_cons.mp hm' with rfl | hms
      · exact absurd hcov' hcov
      · exact ih ⟨m', hms, hcov'⟩

/-- The ranges of `l` have been mapped in the directory of `x`, or memory has run out. -/
structure MappedAll (k : Image) (D : ι → Option ℕ) (O : κ → Option ℕ) (x : ι) (d : ℕ)
    (l : List Kmap) (ok : Bool) (s t : Mem) : Prop where
  owns : Owns k t D O
  grown : Grown k D x (fun i => ∃ m ∈ l, ∃ u, m.Covers u ∧ u / NPTENTRIES = i) s t
  ptes : ∀ y e u, D y = some e → u < 2 ^ 20 → y ≠ x ∨ (∀ m ∈ l, ¬ m.Covers u) →
    pteAt t e u = pteAt s e u
  done : ok = true → ∀ u < 2 ^ 20, (∃ m ∈ l, m.Covers u) → pteAt t d u = ptesOf l u
  full : ok = false → t.free = [] ∧
    ∃ m ∈ l, ∃ u, m.Covers u ∧ tableAt t d (u / NPTENTRIES) = none

omit [DecidableEq ι] in
theorem Owns.mapKernel {n pa perm : ℕ} (h : Owns k s D O) (hv : userPages ≤ v)
    (hm : Mapped k D x v n pa perm s t) : Owns k t D O := by
  refine h.grow hm.grown ?_
  intro y e u hy hu
  have hU := userPages_eq
  exact (hm.ptes y e u hy (by omega)).2 (by omega)

theorem mapAll_spec {l : List Kmap} (h : Owns k s D O) (hx : D x = some d)
    (hgood : ∀ m ∈ l, m.Good) (hdisj : l.Pairwise fun m m' => ∀ u, m.Covers u → ¬ m'.Covers u)
    (habs : ∀ m ∈ l, ∀ u, m.Covers u → pteAt s d u % 2 = 0) :
    wp (mapAll d l) s (fun ok t => MappedAll k D O x d l ok s t) (fun _ => False) := by
  induction l generalizing s with
  | nil =>
    rw [mapAll, wp_pure]
    exact ⟨h, Grown.refl h.tables, fun _ _ _ _ _ _ => rfl, fun _ _ _ hcov => by simp at hcov,
      by simp⟩
  | cons m ms ih =>
    obtain ⟨hdisj1, hdisj2⟩ := List.pairwise_cons.mp hdisj
    have hm := hgood m List.mem_cons_self
    have hmspec := mappages_spec h.tables hx m.physStart m.perm hm.pos hm.bound
      hm.phys hm.perm
    rw [← hm.virt, ← hm.size] at hmspec
    rw [mapAll]
    refine wp_seq (wp_mono hmspec (fun _ _ hq => hq) ?_) ?_
    · rintro msg ⟨-, u, h1, h2, h3⟩
      have := habs m List.mem_cons_self u ⟨h1, h2⟩
      omega
    · rintro ok t ⟨n, hn, hmap, htrue, hfalse⟩
      have howns := h.mapKernel hm.upper hmap
      have hother : ∀ y e u, D y = some e → u < 2 ^ 20 → y ≠ x ∨ ¬ m.Covers u →
          pteAt t e u = pteAt s e u := by
        intro y e u hy hu hne
        refine (hmap.ptes y e u hy hu).2 ?_
        rintro ⟨rfl, h1, h2⟩
        exact hne.resolve_left (fun hne => hne rfl) ⟨h1, by omega⟩
      have hgrown := hmap.grown.mono
        (J := fun i => ∃ m' ∈ m :: ms, ∃ u, m'.Covers u ∧ u / NPTENTRIES = i) (by
        rintro i ⟨u, h1, h2, h3⟩
        exact ⟨m, List.mem_cons_self, u, ⟨h1, by omega⟩, h3⟩)
      cases ok with
      | false =>
        rw [if_pos rfl, wp_pure]
        obtain ⟨hlt, hnil, hmiss⟩ := hfalse rfl
        refine ⟨howns, hgrown, ?_, by simp, fun _ => ⟨hnil, m, List.mem_cons_self, m.first + n,
          ⟨by omega, by omega⟩, hmiss⟩⟩
        intro y e u hy hu hne
        exact hother y e u hy hu (hne.imp_right fun hall => hall m List.mem_cons_self)
      | true =>
        obtain rfl := htrue rfl
        rw [if_neg (by simp)]
        refine wp_post (ih howns (fun m' hm' => hgood m' (List.mem_cons_of_mem m hm')) hdisj2 ?_) ?_
        · intro m' hm' u hu
          have hlt : u < 2 ^ 20 := by
            have := (hgood m' (List.mem_cons_of_mem m hm')).bound
            have := hu.2
            omega
          rw [hother x d u hx hlt (Or.inr fun hcov => hdisj1 m' hm' u hcov hu)]
          exact habs m' (List.mem_cons_of_mem m hm') u hu
        · intro ok r hr
          have hgrown' := hr.grown.mono
            (J := fun i => ∃ m' ∈ m :: ms, ∃ u, m'.Covers u ∧ u / NPTENTRIES = i) (by
            rintro i ⟨m', hm', hu⟩
            exact ⟨m', List.mem_cons_of_mem m hm', hu⟩)
          refine ⟨hr.owns, hgrown.trans hgrown', ?_, ?_, ?_⟩
          · intro y e u hy hu hne
            rw [hr.ptes y e u hy hu (hne.imp_right fun hall m' hm' =>
                hall m' (List.mem_cons_of_mem m hm')),
              hother y e u hy hu (hne.imp_right fun hall => hall m List.mem_cons_self)]
          · intro hok u hu hcov
            rw [ptesOf]
            by_cases hcm : m.Covers u
            · rw [if_pos hcm, hr.ptes x d u hx hu (Or.inr fun m' hm' => hdisj1 m' hm' u hcm),
                (hmap.ptes x d u hx hu).1 rfl hcm.1 hcm.2]
            · obtain ⟨m', hm', hcov'⟩ := hcov
              have hms : m' ∈ ms := by
                rcases List.mem_cons.mp hm' with rfl | hms
                · exact absurd hcov' hcm
                · exact hms
              rw [if_neg hcm]
              exact hr.done hok u hu ⟨m', hms, hcov'⟩
          · intro hok
            obtain ⟨hnil, m', hm', hmiss⟩ := hr.full hok
            exact ⟨hnil, m', List.mem_cons_of_mem m hm', hmiss⟩

omit [DecidableEq ι] in
theorem MappedAll.short {ok : Bool} (h : MappedAll k D O x d (kmap k) ok s t) (hx : D x = some d)
    (hs : Tables k s D) (hok : ok = false) : s.free.length < 64 := by
  obtain ⟨hnil, m, hm, u, hu, hmiss⟩ := h.full hok
  have hlen := h.grown.free_length (F := kernelTables.erase (u / NPTENTRIES)) hs (by
    rintro i ⟨m', hm', u', hu', rfl⟩ hlt - hsome
    refine Finset.mem_erase.mpr ⟨?_, mem_kernelTables hm' hu'⟩
    intro heq
    rw [spine_table hx hlt, heq] at hsome
    exact hsome hmiss)
  rw [Finset.card_erase_of_mem (mem_kernelTables hm hu), kernelTables_card, hnil,
    List.length_nil] at hlen
  omega

omit [DecidableEq ι] in
theorem MappedAll.tables (h : MappedAll k D O x d (kmap k) true s t) (hx : D x = some d)
    (hnone : ∀ i, tableAt s d i = none) (i : ℕ) (hi : i < NPDENTRIES) :
    tableAt t d i ≠ none ↔ i ∈ kernelTables := by
  constructor
  · intro hsome
    obtain ⟨f, hf⟩ := Option.ne_none_iff_exists'.mp hsome
    rw [← spine_table hx hi] at hf
    obtain ⟨l, -, hsp, hnew⟩ := h.grown.taken
    have hfl : f ∈ l := by
      refine (hsp _ f hf).resolve_left ?_
      rw [spine_table hx hi, hnone]
      simp
    obtain ⟨j, ⟨m, hm, u, hu, rfl⟩, -, hj⟩ := hnew f hfl
    obtain ⟨-, rfl⟩ := Spine.table.inj (h.grown.tables.excl.inj _ _ f hf hj)
    exact mem_kernelTables hm hu
  · intro hmem hcon
    obtain ⟨m, hm, hu⟩ := covers_of_kernelTables k hmem
    have hlt : i * NPTENTRIES < 2 ^ 20 := by
      rw [NPDENTRIES_eq] at hi
      rw [NPTENTRIES]
      omega
    have hdiv : i * NPTENTRIES / NPTENTRIES = i := by
      rw [NPTENTRIES]
      omega
    have hpte := h.done rfl _ hlt ⟨m, hm, hu⟩
    rw [pteAt, hdiv, hcon] at hpte
    have hodd := ptesOf_odd ⟨m, hm, hu⟩
    rw [← hpte] at hodd
    simp at hodd

/-- A directory for `x` as `setupkvm` makes it. -/
structure SetUp (k : Image) (D : ι → Option ℕ) (O : κ → Option ℕ) (x : ι) (d : ℕ)
    (t : Mem) : Prop where
  owns : Owns k t (Function.update D x (some d)) O
  ptes : ∀ u < 2 ^ 20, pteAt t d u = kernelPte k u
  tables : ∀ i < NPDENTRIES, tableAt t d i ≠ none ↔ i ∈ kernelTables

structure Untouched (D : ι → Option ℕ) (s t : Mem) : Prop where
  ptes : SamePtes D s t
  pages : ∀ f, f ∉ s.free → (∀ z, spine s D z ≠ some f) → t.page f = s.page f
  free : ∃ l, s.free = l ++ t.free
  tables : ∀ y e i g, D y = some e → i < NPDENTRIES → tableAt s e i = some g →
    tableAt t e i = some g

theorem setupkvm_spec (h : Owns k s D O) (hx : D x = none) :
    wp (setupkvm k) s
      (fun r t => Untouched D s t ∧
        (r = none → Owns k t D O ∧ t.free = [] ∧ s.free.length < 65) ∧
        ∀ d, r = some d → SetUp k D O x d t ∧ s.free.length = t.free.length + 65)
      (fun _ => False) := by
  unfold setupkvm
  rw [wp_bind]
  refine wp_kalloc ?_ ?_
  · intro hfree
    rw [wp_pure]
    exact ⟨⟨fun _ _ _ _ _ => rfl, fun _ _ _ => rfl, ⟨[], rfl⟩, fun _ _ _ _ _ _ ht => ht⟩,
      fun _ => ⟨h, hfree, by rw [hfree]; simp⟩, by simp⟩
  · intro f rest hfree
    dsimp only
    have hmem : f ∈ s.free := by rw [hfree]; exact List.mem_cons_self
    have hclear := h.clearPage hfree (fill 0)
    obtain ⟨r, hr⟩ : ∃ r, r = ({ s with free := rest } : Mem).setPage f (fill 0) := ⟨_, rfl⟩
    rw [wp_bind, wp_memset, if_neg (by decide), ← hr]
    rw [← hr] at hclear
    have hzero : r.page f = fill 0 := by
      rw [hr]
      exact Function.update_self ..
    have hdir := hclear.setDir hzero x
    have hself : Function.update D x (some f) x = some f := Function.update_self ..
    have hother : ∀ y e, D y = some e → y ≠ x ∧ Function.update D x (some f) y = some e := by
      intro y e hy
      have hyx : y ≠ x := by
        rintro rfl
        rw [hx] at hy
        simp at hy
      exact ⟨hyx, by rw [Function.update_of_ne hyx]; exact hy⟩
    refine wp_seq (mapAll_spec hdir hself (kmap_ranges k).2 (kmap_disjoint k) ?_) ?_
    · intro m _ u _
      rw [pteAt_fill hzero]
    · intro ok t hall
      obtain ⟨l, hl, -, -⟩ := hall.grown.taken
      have hrest : r.free = rest := by rw [hr]; rfl
      rw [wp_pure]
      refine ⟨⟨?_, ?_, ⟨f :: l, by rw [hfree, ← hrest, hl]; rfl⟩, ?_⟩, ?_, ?_⟩
      · intro y e u hy hu
        obtain ⟨hyx, hy'⟩ := hother y e hy
        rw [hall.ptes y e u hy' hu (Or.inl hyx), hr, h.samePtes_take hfree (fill 0) y e u hy hu]
      · intro g hg hz
        have hgf : g ≠ f := fun heq => hg (heq ▸ hmem)
        have hgr : g ∉ r.free := by
          rw [hrest]
          exact fun hgr => hg (by rw [hfree]; exact List.mem_cons_of_mem f hgr)
        rw [hall.grown.pages g hgr, hr]
        · exact Function.update_of_ne hgf ..
        · intro z hzg
          rcases spine_setDir hzero hzg with h1 | ⟨-, h1⟩
          · rw [hr, h.spine_take hfree] at h1
            exact hz z h1
          · exact hgf h1
      · intro y e i g hy hi ht
        obtain ⟨-, hy'⟩ := hother y e hy
        have htake := h.spine_take hfree (fill 0) (.table y i)
        rw [← hr, spine_table hy hi, spine_table hy hi, ht] at htake
        have hkept := hall.grown.kept (.table y i) g
        rw [spine_table hy' hi, spine_table hy' hi] at hkept
        exact hkept htake
      · intro hnone
        have hok : ok = false := by
          cases ok with
          | false => rfl
          | true => simp at hnone
        have hlen := hall.short hself hdir.tables hok
        rw [hrest] at hlen
        refine ⟨?_, (hall.full hok).1, by rw [hfree, List.length_cons]; omega⟩
        have hlost := hall.owns.clearDir x
        rw [Function.update_idem, Function.update_eq_self_iff.mpr hx.symm] at hlost
        exact hlost
      · intro d hd
        have hok : ok = true ∧ f = d := by
          cases ok with
          | false => simp at hd
          | true => simpa using hd
        obtain ⟨rfl, rfl⟩ := hok
        have htabs := hall.tables hself fun i => tableAt_fill hzero
        refine ⟨⟨hall.owns, ?_, htabs⟩, ?_⟩
        · intro u hu
          by_cases hcov : ∃ m ∈ kmap k, m.Covers u
          · exact hall.done rfl u hu hcov
          · have hnot : ∀ m ∈ kmap k, ¬ m.Covers u := fun m hm hc => hcov ⟨m, hm, hc⟩
            rw [hall.ptes x f u hself hu (Or.inr hnot), pteAt_fill hzero, kernelPte,
              ptesOf_of_not hnot]
        · have hlen := hall.grown.free_length_eq (F := kernelTables) hdir.tables (by
            rintro i ⟨m, hm, u, hu, rfl⟩ -
            exact mem_kernelTables hm hu) (by
            intro i hi
            have hlt := kernelTables_lt hi
            rw [spine_table hself hlt, spine_table hself hlt, tableAt_fill hzero]
            exact ⟨rfl, (htabs i hlt).mpr hi⟩)
          rw [hrest, kernelTables_card] at hlen
          rw [hfree, List.length_cons]
          omega

omit [DecidableEq ι] in
/-- The page taken off the free list has been mapped at `v`, or lost. -/
theorem Owns.userChange_mapTaken {rest : List ℕ} {f m perm : ℕ} {p : Page} (h : Owns k s D O)
    (hx : D x = some d) (hv : v < userPages) (hm : m ≤ 1) (hperm : perm < PGSIZE)
    (hfree : s.free = f :: rest)
    (hmap : Mapped k D x v m (f * PGSIZE) perm (({ s with free := rest } : Mem).setPage f p) t) :
    UserChange k D O x (fun u => u = v) s t := by
  have hU := userPages_eq
  refine ⟨h.mapTaken hx hv hm hperm hfree hmap, ?_, ?_⟩
  · intro y e u hy hu hne
    rw [(hmap.ptes y e u hy hu).2, h.samePtes_take hfree p y e u hy hu]
    rintro ⟨rfl, h1, h2⟩
    have := hne.resolve_left fun hne => hne rfl
    omega
  · intro e u hx' hu hp
    by_cases huv : u = v
    · exact Or.inr huv
    · rw [(hmap.ptes x e u hx' (by omega)).2 (by omega),
        h.samePtes_take hfree p x e u hx' (by omega)] at hp
      exact Or.inl hp

theorem inituvm_spec {init : List UInt8} (h : Owns k s D O) (hx : D x = some d) :
    wp (inituvm d init) s (fun _ t => UserChange k D O x (fun u => u = 0) s t)
      (fun _ => True) := by
  have hU := userPages_eq
  unfold inituvm
  by_cases hlen : init.length ≥ PGSIZE
  · rw [if_pos hlen, wp_panic]
    exact trivial
  · rw [if_neg hlen, wp_bind]
    refine wp_kalloc ?_ ?_
    · intro _
      dsimp only
      rw [wp_panic]
      exact trivial
    · intro f rest hfree
      have hmem : f ∈ s.free := by rw [hfree]; exact List.mem_cons_self
      dsimp only
      rw [wp_bind, wp_memset]
      have hmap := h.mapTaken_spec hx 0 (by omega) (show PTE_W ||| PTE_U < PGSIZE by decide)
        hfree (fill 0)
      rw [Nat.zero_mul] at hmap
      refine wp_seq (wp_mono hmap (fun _ _ hq => hq) fun _ _ => trivial) ?_
      rintro ok t ⟨m, hm, hmapped, -, -⟩
      have hch := h.userChange_mapTaken hx (by omega) hm (by decide) hfree hmapped
      have hspine : ∀ z, spine t D z ≠ some f := by
        intro z hz
        obtain ⟨l, hl, hsp, -⟩ := hmapped.grown.taken
        rcases hsp z f hz with h1 | h1
        · rw [h.spine_take hfree] at h1
          exact h.not_spine_of_free hmem z h1
        · have hnodup := h.excl.nodup
          rw [hfree] at hnodup
          refine (List.nodup_cons.mp hnodup).1 ?_
          have hl' : rest = l ++ t.free := hl
          rw [hl']
          exact List.mem_append_left t.free h1
      rw [wp_modify]
      have hsame := samePtes_setPage hspine ((t.page f).write 0 init)
      refine ⟨hch.owns.setPage hspine _, ?_, ?_⟩
      · intro y e u hy hu hne
        rw [hsame y e u hy hu, hch.ptes y e u hy hu hne]
      · intro e u hx' hu hp
        rw [hsame x e u hx' (by omega)] at hp
        exact hch.present e u hx' hu hp

theorem copyuvmFrom_spec {pgdir sz fuel : ℕ} (h : Owns k s D O) (hx : D x = some d)
    (hsz : sz ≤ KERNBASE) :
    wp (copyuvmFrom pgdir d sz fuel (v * PGSIZE)) s
      (fun _ t => UserChange k D O x (fun u => u < pagesOf sz) s t) (fun _ => True) := by
  have hU := userPages_eq
  induction fuel generalizing s v with
  | zero =>
    rw [copyuvmFrom, wp_pure]
    exact UserChange.refl h
  | succ fuel ih =>
    rw [copyuvmFrom]
    by_cases hlt : v * PGSIZE < sz
    · have hvp := lt_pagesOf.mpr hlt
      have hmax := pagesOf_le_userPages hsz
      have hnext : (v * PGSIZE + PGSIZE) % 2 ^ 32 = (v + 1) * PGSIZE := by
        rw [PGSIZE_eq]
        omega
      rw [if_pos hlt, hnext, wp_bind, walkpgdir_find]
      cases ht : tableAt s pgdir (PDX (v * PGSIZE)) with
      | none =>
        rw [Option.map_none]
        dsimp only
        rw [wp_panic]
        exact trivial
      | some g =>
        rw [Option.map_some]
        dsimp only
        obtain ⟨pte, hpte⟩ : ∃ pte, pte = s.word g (PTX (v * PGSIZE)) := ⟨_, rfl⟩
        rw [wp_bind, wp_wordAt, ← hpte]
        by_cases heven : pte % 2 = 0
        · rw [if_pos heven, wp_panic]
          exact trivial
        · rw [if_neg heven, wp_bind]
          refine wp_kalloc ?_ ?_
          · intro _
            dsimp only
            rw [wp_pure]
            exact UserChange.refl h
          · intro f rest hfree
            have hperm : pte % PGSIZE < PGSIZE := Nat.mod_lt _ (by decide)
            dsimp only
            rw [wp_bind, wp_modify]
            have hmap := h.mapTaken_spec hx v (by omega) hperm hfree (s.page (pte / PGSIZE))
            refine wp_seq (wp_mono hmap (fun _ _ hq => hq) fun _ _ => trivial) ?_
            rintro ok t ⟨m, hm, hmapped, -, -⟩
            have hch : UserChange k D O x (fun u => u < pagesOf sz) s t :=
              (h.userChange_mapTaken hx (by omega) hm hperm hfree hmapped).mono
                fun u _ hu => by omega
            cases ok with
            | true =>
              rw [if_pos rfl]
              exact wp_post (ih hch.owns) fun _ r hr =>
                (hch.trans hr).mono fun u _ hu => hu.elim id id
            | false =>
              rw [if_neg (by simp), wp_pure]
              exact hch
    · rw [if_neg hlt, wp_pure]
      exact UserChange.refl h

/-- An address space whose upper half is the kernel's, and whose user pages lie in `R`. -/
structure Space (k : Image) (d : ℕ) (R : ℕ → Prop) (s : Mem) : Prop where
  kernel : ∀ u, userPages ≤ u → u < 2 ^ 20 → pteAt s d u = kernelPte k u
  user : ∀ u < userPages, pteAt s d u % 2 = 1 → R u

theorem kernelPte_user {u : ℕ} (hu : u < userPages) : kernelPte k u = 0 := by
  refine ptesOf_of_not ?_
  intro m hm hcov
  have := ((kmap_ranges k).2 m hm).upper
  have := hcov.1
  omega

omit [DecidableEq ι] in
theorem Space.change {R R' : ℕ → Prop} (h : Space k d R s) (hx : D x = some d)
    (hch : UserChange k D O x R' s t) : Space k d (fun u => R u ∨ R' u) t := by
  refine ⟨?_, ?_⟩
  · intro u h1 h2
    rw [hch.ptes x d u hx h2 (Or.inr h1), h.kernel u h1 h2]
  · intro u hu hp
    rcases hch.present d u hx hu hp with h1 | h1
    · exact Or.inl (h.user u hu h1)
    · exact Or.inr h1

theorem SetUp.space (h : SetUp k D O x d t) : Space k d (fun _ => False) t := by
  have hU := userPages_eq
  refine ⟨fun u _ hu => h.ptes u hu, ?_⟩
  intro u hu hp
  rw [h.ptes u (by omega), kernelPte_user hu] at hp
  simp at hp

theorem copyuvm_spec [DecidableEq κ] {pgdir sz : ℕ} (h : Owns k s D O) (hx : D x = none)
    (hsz : sz ≤ KERNBASE) :
    wp (copyuvm k pgdir sz) s
      (fun r t => SamePtes D s t ∧ (r = none → Owns k t D O) ∧
        ∀ d, r = some d → Owns k t (Function.update D x (some d)) O ∧
          Space k d (fun u => u < pagesOf sz) t) (fun _ => True) := by
  unfold copyuvm
  refine wp_seq (wp_mono (setupkvm_spec h hx) (fun _ _ hq => hq) fun _ _ => trivial) ?_
  rintro r t ⟨hun, hnone, hsome⟩
  cases r with
  | none =>
    dsimp only
    rw [wp_pure]
    exact ⟨hun.ptes, fun _ => (hnone rfl).1, by simp⟩
  | some d =>
    have hset := (hsome d rfl).1
    have hself : Function.update D x (some d) x = some d := Function.update_self ..
    have hback : Function.update (Function.update D x (some d)) x none = D := by
      rw [Function.update_idem, Function.update_eq_self_iff.mpr hx.symm]
    have hother : ∀ y e, D y = some e → y ≠ x ∧ Function.update D x (some d) y = some e := by
      intro y e hy
      have hyx : y ≠ x := by
        rintro rfl
        rw [hx] at hy
        simp at hy
      exact ⟨hyx, by rw [Function.update_of_ne hyx]; exact hy⟩
    dsimp only
    rw [← Nat.zero_mul PGSIZE]
    refine wp_seq (copyuvmFrom_spec hset.owns hself hsz) ?_
    intro ok r hr
    have hsame : SamePtes D s r := by
      intro y e u hy hu
      obtain ⟨hyx, hy'⟩ := hother y e hy
      rw [hr.ptes y e u hy' hu (Or.inl hyx), hun.ptes y e u hy hu]
    cases ok with
    | true =>
      rw [if_pos rfl, wp_pure]
      refine ⟨hsame, by simp, ?_⟩
      intro d' hd'
      obtain rfl := Option.some.inj hd'
      refine ⟨hr.owns, ?_⟩
      have hspace := hset.space.change hself hr
      exact ⟨hspace.kernel, fun u hu hp => (hspace.user u hu hp).resolve_left id⟩
    | false =>
      rw [if_neg (by simp)]
      refine wp_seq (wp_mono (freevm_spec hr.owns hself) (fun _ _ hq => hq) fun _ _ => trivial) ?_
      rintro _ q ⟨hq, hqsame⟩
      rw [hback] at hq hqsame
      rw [wp_pure]
      refine ⟨?_, fun _ => hq, by simp⟩
      intro y e u hy hu
      rw [hqsame y e u hy hu, hsame y e u hy hu]

end setup

end Vm
end Xv6
