import Xv6.Vm.Kernel

/-! Address spaces that are mapped from 0 up to some page, and how much memory they take. -/
namespace Xv6
namespace Vm
open Prog

section mapped

variable {ι κ : Type} {k : Image} {s t : Mem} {D : ι → Option ℕ} {O : κ → Option ℕ} {x : ι}
  {d i m pa perm v : ℕ}

theorem Mapped.tableAt_of_ne (h : Mapped k D x v m pa perm s t) (hx : D x = some d)
    (hi : i < NPDENTRIES) (hne : ∀ u, v ≤ u → u < v + m → u / NPTENTRIES ≠ i) :
    tableAt t d i = tableAt s d i := by
  obtain ⟨l, -, hsp, hnew⟩ := h.grown.taken
  rw [← spine_table hx hi, ← spine_table (s := s) hx hi]
  cases hz : spine t D (.table x i) with
  | none =>
    cases hz' : spine s D (.table x i) with
    | none => rfl
    | some f =>
      rw [h.grown.kept _ f hz'] at hz
      simp at hz
  | some f =>
    rcases hsp _ f hz with h1 | h1
    · exact h1.symm
    · obtain ⟨j, ⟨u, h2, h3, rfl⟩, -, hj⟩ := hnew f h1
      obtain ⟨-, heq⟩ := Spine.table.inj (h.grown.tables.excl.inj _ _ f hz hj)
      exact absurd heq.symm (hne u h2 h3)

theorem Mapped.free_eq (h : Mapped k D x v 0 pa perm s t) : t.free = s.free := by
  obtain ⟨l, hl, -, hnew⟩ := h.grown.taken
  have hnil : l = [] := by
    refine List.eq_nil_iff_forall_not_mem.mpr ?_
    intro f hf
    obtain ⟨j, ⟨u, h1, h2, -⟩, -⟩ := hnew f hf
    omega
  rw [hl, hnil]
  rfl

theorem Mapped.tableAt_ne_none (h : Mapped k D x v 1 pa perm s t) (hx : D x = some d)
    (hv : v < 2 ^ 20) : tableAt t d (v / NPTENTRIES) ≠ none := by
  intro hnone
  have hpte := (h.ptes x d v hx hv).1 rfl le_rfl (by omega)
  have hodd : mapped pa perm (v - v) % 2 = 1 := or_one_odd _
  rw [← hpte, pteAt, hnone] at hodd
  simp at hodd

/-- Mapping one page takes a page from the free list if its page table is missing. -/
theorem Mapped.free_length (h : Mapped k D x v 1 pa perm s t) (hx : D x = some d)
    (hv : v < 2 ^ 20) (hs : Tables k s D) :
    s.free.length = t.free.length + if tableAt s d (v / NPTENTRIES) = none then 1 else 0 := by
  have hlt : v / NPTENTRIES < NPDENTRIES := by
    rw [NPDENTRIES_eq, NPTENTRIES]
    omega
  have hI : ∀ j, (∃ u, v ≤ u ∧ u < v + 1 ∧ u / NPTENTRIES = j) → j = v / NPTENTRIES := by
    rintro j ⟨u, h1, h2, rfl⟩
    obtain rfl : u = v := by omega
    rfl
  split_ifs with hnone
  · have hlen := h.grown.free_length_eq (F := {v / NPTENTRIES}) hs (by
      intro j hj _
      rw [hI j hj]
      exact Finset.mem_singleton_self _) (by
      intro j hj
      rw [Finset.mem_singleton.mp hj, spine_table hx hlt, spine_table hx hlt]
      exact ⟨hnone, h.tableAt_ne_none hx hv⟩)
    rw [Finset.card_singleton] at hlen
    exact hlen
  · obtain ⟨g, hg⟩ := Option.ne_none_iff_exists'.mp hnone
    obtain ⟨l, hl, -, hnew⟩ := h.grown.taken
    have hnil : l = [] := by
      refine List.eq_nil_iff_forall_not_mem.mpr ?_
      intro f hf
      obtain ⟨j, hj, -, hz⟩ := hnew f hf
      rw [hI j hj] at hz
      have hkept := h.grown.kept (.table x (v / NPTENTRIES)) g (by rw [spine_table hx hlt, hg])
      rw [hz] at hkept
      obtain rfl := Option.some.inj hkept
      refine hs.table_notMem hx hlt hg ?_
      rw [hl]
      exact List.mem_append_left t.free hf
    rw [hl, hnil]
    rfl

end mapped

/-- The pages it takes to have `p` user pages: the pages and their page tables. -/
def need (p : ℕ) : ℕ := p + (p + 1023) / 1024

/-- The directory of `x` has the user pages below `p`, the kernel half and no other page; `n`
pages were free when it was empty, and `lost` of them have been lost. -/
structure Dense {ι κ : Type} (k : Image) (D : ι → Option ℕ) (O : κ → Option ℕ) (x : ι)
    (d n lost p : ℕ) (t : Mem) : Prop where
  dir : D x = some d
  owns : Owns k t D O
  kernel : ∀ u, userPages ≤ u → u < 2 ^ 20 → pteAt t d u = kernelPte k u
  mapped : ∀ u < p, ∃ f, pteAt t d u = entry f (PTE_W ||| PTE_U)
  absent : ∀ u, p ≤ u → u < userPages → pteAt t d u % 2 = 0
  low : ∀ i < 512, tableAt t d i ≠ none ↔ i * 1024 < p
  high : ∀ i, 512 ≤ i → i < 1024 → (tableAt t d i ≠ none ↔ i ∈ kernelTables)
  bound : p ≤ userPages
  free : t.free.length + need p + lost = n

section dense

variable {ι κ : Type} [DecidableEq ι] {k : Image} {s t : Mem} {D : ι → Option ℕ}
  {O : κ → Option ℕ} {x : ι} {d f n p : ℕ}

theorem SetUp.dense (h : SetUp k D O x d t) :
    Dense k (Function.update D x (some d)) O x d t.free.length 0 0 t := by
  have hU := userPages_eq
  refine ⟨Function.update_self .., h.owns, fun u _ hu => h.ptes u hu, by omega, ?_, ?_,
    ?_, by omega,
    rfl⟩
  · intro u _ hu
    rw [h.ptes u (by omega), kernelPte_user hu]
  · intro i hi
    rw [h.tables i (by rw [NPDENTRIES_eq]; omega), kernelTables, Finset.mem_union, Finset.mem_Ico,
      Finset.mem_Ico]
    omega
  · intro i _ hi
    exact h.tables i (by rw [NPDENTRIES_eq]; omega)

omit [DecidableEq ι] in
theorem Dense.step {rest : List ℕ} {m : ℕ} (h : Dense k D O x d n 0 p s) (hp : p < userPages)
    (hm : m ≤ 1) (hfree : s.free = f :: rest)
    (hmap : Mapped k D x p m (f * PGSIZE) (PTE_W ||| PTE_U)
      (({ s with free := rest } : Mem).setPage f (fill 0)) t) :
    (m = 1 → Dense k D O x d n 0 (p + 1) t) ∧ (m = 0 → Dense k D O x d n 1 p t) := by
  have hU := userPages_eq
  have hN : NPTENTRIES = 1024 := rfl
  have hND := NPDENTRIES_eq
  have hfill := h.owns.filled h.dir hp hm hfree hmap
  have htables : ∀ i < 1024, tableAt (({ s with free := rest } : Mem).setPage f (fill 0)) d i =
      tableAt s d i := by
    intro i hi
    rw [← spine_table h.dir hi, h.owns.spine_take hfree, spine_table h.dir hi]
  have hlen : s.free.length = rest.length + 1 := by
    rw [hfree, List.length_cons]
  have hkernel : ∀ u, userPages ≤ u → u < 2 ^ 20 → pteAt t d u = kernelPte k u := by
    intro u h1 h2
    rw [hfill.ptes x d u h.dir h2 (by omega), h.kernel u h1 h2]
  have hold : ∀ u < p, ∃ f, pteAt t d u = entry f (PTE_W ||| PTE_U) := by
    intro u hu
    rw [hfill.ptes x d u h.dir (by omega) (by omega)]
    exact h.mapped u hu
  have hhigh : ∀ i, 512 ≤ i → i < 1024 → (tableAt t d i ≠ none ↔ i ∈ kernelTables) := by
    intro i h1 h2
    rw [hmap.tableAt_of_ne h.dir (by omega) (by rw [hN]; omega), htables i h2]
    exact h.high i h1 h2
  constructor
  · rintro rfl
    refine ⟨h.dir, hfill.owns, hkernel, ?_, ?_, ?_, hhigh, by omega, ?_⟩
    · intro u hu
      by_cases hup : u < p
      · exact hold u hup
      · obtain ⟨g, -, hg, -⟩ := hfill.fresh d u h.dir (by omega) (by omega)
        exact ⟨g, hg⟩
    · intro u h1 h2
      rw [hfill.ptes x d u h.dir (by omega) (by omega)]
      exact h.absent u (by omega) h2
    · intro i hi
      by_cases heq : i = p / NPTENTRIES
      · subst heq
        refine ⟨fun _ => by rw [hN]; omega, fun _ => hmap.tableAt_ne_none h.dir (by omega)⟩
      · rw [hN] at heq
        rw [hmap.tableAt_of_ne h.dir (by omega) (by rw [hN]; omega), htables i (by omega),
          h.low i hi]
        omega
    · have hcount := hmap.free_length h.dir (by omega)
        (h.owns.clearPage hfree (fill 0)).of_give.tables
      have hrest : (({ s with free := rest } : Mem).setPage f (fill 0)).free = rest := rfl
      rw [hrest, htables _ (by rw [hN]; omega)] at hcount
      have hlow := h.low (p / NPTENTRIES) (by rw [hN]; omega)
      have hn := h.free
      rw [need] at hn ⊢
      split_ifs at hcount with hnone
      · have hp0 : ¬ p / NPTENTRIES * 1024 < p := fun hcon => (hlow.mpr hcon) hnone
        rw [hN] at hp0
        omega
      · have hp0 := hlow.mp hnone
        rw [hN] at hp0
        omega
  · rintro rfl
    refine ⟨h.dir, hfill.owns, hkernel, hold, ?_, ?_, hhigh, h.bound, ?_⟩
    · intro u h1 h2
      rw [hfill.ptes x d u h.dir (by omega) (by omega)]
      exact h.absent u h1 h2
    · intro i hi
      rw [hmap.tableAt_of_ne h.dir (by omega) (by omega), htables i (by omega), h.low i hi]
    · have hcount := hmap.free_eq
      have hn := h.free
      rw [hcount]
      show rest.length + need p + 1 = n
      omega

/-- Whether `n` free pages suffice for `p` user pages: for all, for all but the page table of
the last one, or not. -/
inductive Fit where
  | full
  | hole
  | no

def fit (n p : ℕ) : Fit :=
  if need p ≤ n then .full else if need p = n + 1 ∧ p % 1024 = 1 then .hole else .no

def Dense.Alloc (k : Image) (D : ι → Option ℕ) (O : κ → Option ℕ) (x : ι) (d n p : ℕ) (ok : Bool)
    (t : Mem) : Prop :=
  match fit n p with
  | .full => ok = true ∧ Dense k D O x d n 0 p t
  | .hole => ok = true ∧ Dense k D O x d n 1 (p - 1) t
  | .no => ok = false ∧ Owns k t D O

theorem Dense.allocuvmFrom {newsz fuel : ℕ} (h : Dense k D O x d n 0 p s) (hlt : newsz < KERNBASE)
    (hp : p ≤ pagesOf newsz) (hfuel : pagesOf newsz < p + fuel) :
    wp (allocuvmFrom d newsz fuel (p * PGSIZE)) s
      (fun ok t => Dense.Alloc k D O x d n (pagesOf newsz) ok t) (fun _ => False) := by
  have hU := userPages_eq
  have hmax := pagesOf_le_userPages hlt.le
  induction fuel generalizing s p with
  | zero => omega
  | succ fuel ih =>
    rw [Vm.allocuvmFrom]
    by_cases hnext : p * PGSIZE < newsz
    · have hpp := lt_pagesOf.mpr hnext
      have hpnext : (p * PGSIZE + PGSIZE) % 2 ^ 32 = (p + 1) * PGSIZE := by
        rw [PGSIZE_eq]
        omega
      rw [if_pos hnext, hpnext, wp_bind]
      refine wp_kalloc ?_ ?_
      · intro hfree
        have hn := h.free
        rw [hfree, List.length_nil] at hn
        rw [wp_pure, Dense.Alloc, fit]
        rw [need] at hn
        rw [if_neg (by rw [need]; omega), if_neg (by rw [need]; omega)]
        exact ⟨rfl, h.owns⟩
      · intro f rest hfree
        dsimp only
        rw [wp_bind, wp_memset]
        have hmap := h.owns.mapTaken_spec h.dir p (by omega)
          (show PTE_W ||| PTE_U < PGSIZE by decide) hfree (fill 0)
        refine wp_seq (wp_mono hmap (fun _ _ hq => hq) fun _ hq => ?_) ?_
        · have := h.absent p le_rfl (by omega)
          have := hq.2
          omega
        · rintro ok t ⟨m, hm, hmapped, htrue, hfalse⟩
          obtain ⟨hone, hzero⟩ := h.step (by omega) hm hfree hmapped
          cases ok with
          | true => exact ih (hone (htrue rfl)) (by omega) (by omega)
          | false =>
            obtain ⟨rfl, hnil, hmiss⟩ := hfalse rfl
            have hhole := hzero rfl
            have hn := hhole.free
            have hlow := hhole.low (p / 1024) (by omega)
            have hp0 : ¬ p / 1024 * 1024 < p := fun hcon => hlow.mpr hcon hmiss
            rw [hnil, List.length_nil, need] at hn
            refine wp_mono (allocuvmFrom_empty (v := p + 1) hnil (by omega)) ?_
              (fun _ hf => hf.elim)
            rintro ok t' ⟨rfl, hok⟩
            rw [Dense.Alloc, fit, if_neg (by rw [need]; omega)]
            by_cases hlast : pagesOf newsz = p + 1
            · rw [if_pos (by rw [need]; omega)]
              refine ⟨hok.mpr (by omega), ?_⟩
              rw [hlast, Nat.add_sub_cancel]
              exact hhole
            · rw [if_neg (by rw [need]; omega)]
              refine ⟨?_, hhole.owns⟩
              cases ok with
              | false => rfl
              | true =>
                have := hok.mp rfl
                omega
    · have hpp : ¬ p < pagesOf newsz := fun hcon => hnext (lt_pagesOf.mp hcon)
      have heq : p = pagesOf newsz := by omega
      have hn := h.free
      rw [if_neg hnext, wp_pure, Dense.Alloc, fit, ← heq, if_pos (by omega)]
      exact ⟨rfl, h⟩

end dense

end Vm
end Xv6
