import Xv6.Vm.Tables
import Mathlib.Data.Finset.Card

/-! What `kalloc`, `walkpgdir` and `mappages` do to directories. -/
namespace Xv6
namespace Vm
open Prog

section rules

variable {s : Mem} {E : String → Prop}

@[simp] theorem wp_panic {α : Type} {Q : α → Mem → Prop} (msg : String) :
    wp (panic msg : VmM α) s Q E ↔ E msg := wp_stop msg

@[simp] theorem wp_wordAt {Q : ℕ → Mem → Prop} (f i : ℕ) :
    wp (wordAt f i) s Q E ↔ Q (s.word f i) s := by
  unfold wordAt
  simp only [wp_bind, wp_get, wp_pure]

@[simp] theorem wp_setWord {Q : Unit → Mem → Prop} (f i w : ℕ) :
    wp (setWord f i w) s Q E ↔ Q () (s.setWord f i w) := wp_modify

@[simp] theorem wp_memset {Q : Unit → Mem → Prop} (f : ℕ) (c : UInt8) :
    wp (memset f c) s Q E ↔ Q () (s.setPage f (fill c)) := wp_modify

theorem wp_kalloc {Q : Option ℕ → Mem → Prop} (hnone : s.free = [] → Q none s)
    (hsome : ∀ f rest, s.free = f :: rest → Q (some f) { s with free := rest }) :
    wp kalloc s Q E := by
  unfold kalloc
  simp only [wp_bind, wp_get]
  cases hfree : s.free with
  | nil =>
    rw [wp_pure]
    exact hnone hfree
  | cons f rest =>
    simp only [wp_bind, wp_modify, wp_pure]
    exact hsome f rest hfree

end rules

def entry (f perm : ℕ) : ℕ := f * PGSIZE ||| perm ||| PTE_P

theorem entry_eq {f perm : ℕ} (hp : perm < PGSIZE) :
    entry f perm = PGSIZE * f + (perm ||| PTE_P) := by
  have hlt : perm ||| PTE_P < 2 ^ 12 := Nat.or_lt_two_pow hp (by decide)
  rw [entry, Nat.or_assoc, Nat.mul_comm]
  exact (Nat.two_pow_add_eq_or_of_lt hlt f).symm

theorem or_one_odd (n : ℕ) : (n ||| PTE_P) % 2 = 1 := by
  have h := Nat.or_mod_two_eq_one (a := n) (b := 1)
  rw [PTE_P]
  exact h.mpr (Or.inr rfl)

theorem entry_odd {f perm : ℕ} : entry f perm % 2 = 1 := or_one_odd _

theorem entry_div {f perm : ℕ} (hp : perm < PGSIZE) : entry f perm / PGSIZE = f := by
  have hlt : perm ||| PTE_P < 2 ^ 12 := Nat.or_lt_two_pow hp (by decide)
  rw [entry_eq hp, PGSIZE_eq]
  omega

theorem entry_lt {f perm : ℕ} (hf : f < 2 ^ 20) (hp : perm < PGSIZE) : entry f perm < 2 ^ 32 := by
  have hlt : perm ||| PTE_P < 2 ^ 12 := Nat.or_lt_two_pow hp (by decide)
  rw [entry_eq hp, PGSIZE_eq]
  omega

theorem entry_mod {f perm : ℕ} (hp : perm < PGSIZE) :
    entry f perm % PGSIZE = perm ||| PTE_P := by
  have hlt : perm ||| PTE_P < 2 ^ 12 := Nat.or_lt_two_pow hp (by decide)
  rw [entry_eq hp, PGSIZE_eq]
  omega

theorem pde_eq (f : ℕ) : f * PGSIZE ||| PTE_P ||| PTE_W ||| PTE_U = entry f 6 := by
  rw [entry, Nat.or_assoc, Nat.or_assoc, Nat.or_assoc]
  rfl

variable {ι : Type}

/-- The directory of `x` has grown by page tables taken from the free list, at entries in `I`. -/
structure Grown (k : Image) (D : ι → Option ℕ) (x : ι) (I : ℕ → Prop) (s t : Mem) : Prop where
  tables : Tables k t D
  kept : ∀ z f, spine s D z = some f → spine t D z = some f
  taken : ∃ l, s.free = l ++ t.free ∧
    (∀ z f, spine t D z = some f → spine s D z = some f ∨ f ∈ l) ∧
    ∀ f ∈ l, ∃ i, I i ∧ i < NPDENTRIES ∧ spine t D (.table x i) = some f
  pages : ∀ f, f ∉ s.free → (∀ z, spine s D z ≠ some f) → t.page f = s.page f

section grown

variable {k : Image} {D : ι → Option ℕ} {s t u : Mem} {x y : ι} {d e f i j p v w : ℕ}
  {I J : ℕ → Prop}

theorem Grown.refl (h : Tables k s D) : Grown k D x I s s :=
  ⟨h, fun _ _ hz => hz, ⟨[], rfl, fun _ _ hz => Or.inl hz, fun _ hf => absurd hf List.not_mem_nil⟩,
    fun _ _ _ => rfl⟩

theorem Grown.mono (h : Grown k D x I s t) (hI : ∀ i, I i → J i) : Grown k D x J s t := by
  obtain ⟨l, hl, hsp, hnew⟩ := h.taken
  refine ⟨h.tables, h.kept, ⟨l, hl, hsp, ?_⟩, h.pages⟩
  intro f hf
  obtain ⟨i, hi, hlt, hz⟩ := hnew f hf
  exact ⟨i, hI i hi, hlt, hz⟩

theorem Grown.trans (h : Grown k D x I s t) (h' : Grown k D x I t u) : Grown k D x I s u := by
  obtain ⟨l, hl, hsp, hnew⟩ := h.taken
  obtain ⟨l', hl', hsp', hnew'⟩ := h'.taken
  refine ⟨h'.tables, fun z f hz => h'.kept z f (h.kept z f hz),
    ⟨l ++ l', by rw [hl, hl', List.append_assoc], ?_, ?_⟩, ?_⟩
  · intro z f hz
    rcases hsp' z f hz with hz | hz
    · exact (hsp z f hz).imp_right fun hmem => List.mem_append_left l' hmem
    · exact Or.inr (List.mem_append_right l hz)
  · intro f hf
    rcases List.mem_append.mp hf with hf | hf
    · obtain ⟨i, hi, hlt, hz⟩ := hnew f hf
      exact ⟨i, hi, hlt, h'.kept _ f hz⟩
    · exact hnew' f hf
  · intro f hf hz
    have hf' : f ∉ t.free := fun hmem => hf (by rw [hl]; exact List.mem_append_right l hmem)
    have hz' : ∀ z, spine t D z ≠ some f := by
      intro z hzf
      rcases hsp z f hzf with h1 | h1
      · exact hz z h1
      · exact hf (by rw [hl]; exact List.mem_append_left t.free h1)
    rw [h'.pages f hf' hz', h.pages f hf hz]

theorem Grown.free_length {F : Finset ℕ} (h : Grown k D x I s t) (hs : Tables k s D)
    (hF : ∀ i, I i → i < NPDENTRIES → spine s D (.table x i) = none →
      spine t D (.table x i) ≠ none → i ∈ F) :
    s.free.length ≤ t.free.length + F.card := by
  obtain ⟨l, hl, -, hnew⟩ := h.taken
  have hnodup : l.Nodup := by
    have hfree := hs.excl.nodup
    rw [hl] at hfree
    exact hfree.of_append_left
  have hsub : l.toFinset ⊆ F.image fun i => (spine t D (.table x i)).getD 0 := by
    intro f hf
    have hfl := List.mem_toFinset.mp hf
    obtain ⟨i, hi, hlt, hz⟩ := hnew f hfl
    have hnone : spine s D (.table x i) = none := by
      cases hsi : spine s D (.table x i) with
      | none => rfl
      | some g =>
        have hkept := h.kept _ g hsi
        rw [hz] at hkept
        obtain rfl := Option.some.inj hkept
        exact absurd (by rw [hl]; exact List.mem_append_left _ hfl) (hs.excl.apart _ f hsi)
    refine Finset.mem_image.mpr ⟨i, hF i hi hlt hnone (by rw [hz]; simp), ?_⟩
    rw [hz, Option.getD_some]
  have hcard := le_trans (Finset.card_le_card hsub) Finset.card_image_le
  rw [List.toFinset_card_of_nodup hnodup] at hcard
  rw [hl, List.length_append]
  omega

theorem Grown.free_length_eq {F : Finset ℕ} (h : Grown k D x I s t) (hs : Tables k s D)
    (hF : ∀ i, I i → i < NPDENTRIES → i ∈ F)
    (hall : ∀ i ∈ F, spine s D (.table x i) = none ∧ spine t D (.table x i) ≠ none) :
    s.free.length = t.free.length + F.card := by
  refine le_antisymm (h.free_length hs fun i hi hlt _ _ => hF i hi hlt) ?_
  obtain ⟨l, hl, hsp, -⟩ := h.taken
  have hmaps : ∀ i ∈ F, (spine t D (.table x i)).getD 0 ∈ l := by
    intro i hi
    obtain ⟨hold, hnew⟩ := hall i hi
    obtain ⟨f, hf⟩ := Option.ne_none_iff_exists'.mp hnew
    rw [hf, Option.getD_some]
    refine (hsp _ f hf).resolve_left ?_
    rw [hold]
    simp
  have hinj : Set.InjOn (fun i => (spine t D (.table x i)).getD 0) F := by
    intro i hi j hj heq
    obtain ⟨f, hf⟩ := Option.ne_none_iff_exists'.mp (hall i hi).2
    obtain ⟨g, hg⟩ := Option.ne_none_iff_exists'.mp (hall j hj).2
    dsimp only at heq
    rw [hf, hg, Option.getD_some, Option.getD_some] at heq
    have hplace := h.tables.excl.inj _ _ f hf (heq ▸ hg)
    exact (Spine.table.inj hplace).2
  have hcard : F.card ≤ l.length := by
    rw [← Finset.card_image_of_injOn hinj]
    refine le_trans (Finset.card_le_card (t := l.toFinset) ?_) (List.toFinset_card_le l)
    intro f hf
    obtain ⟨i, hi, rfl⟩ := Finset.mem_image.mp hf
    exact List.mem_toFinset.mpr (hmaps i hi)
  rw [hl, List.length_append]
  omega

theorem Tables.grown_setWord (h : Tables k s D) (hx : D x = some d) (hp : p < NPDENTRIES)
    (ht : tableAt s d p = some f) (j w : ℕ) : Grown k D x I s (s.setWord f j w) := by
  have hspine := h.spine_setWord hx hp ht j w
  refine ⟨h.setWord hx hp ht j w, ?_, ⟨[], rfl, ?_, fun _ hf => absurd hf List.not_mem_nil⟩, ?_⟩
  · intro z g hz
    rw [hspine]
    exact hz
  · intro z g hz
    rw [hspine] at hz
    exact Or.inl hz
  · intro g _ hz
    have hne : g ≠ f := by
      rintro rfl
      exact hz (.table x p) (by rw [spine_table hx hp, ht])
    exact Function.update_of_ne hne ..

/-- The memory after `walkpgdir` has added the first free page as a page table. -/
def Mem.addTable (s : Mem) (d p f : ℕ) (rest : List ℕ) : Mem :=
  (({ s with free := rest } : Mem).setPage f (fill 0)).setWord d p (entry f 6)

variable {rest : List ℕ}

theorem word_addTable {g : ℕ} (hgf : g ≠ f) (h : g ≠ d ∨ i ≠ p) :
    (s.addTable d p f rest).word g i = s.word g i := by
  rw [Mem.addTable, word_setWord_of_ne h, word_setPage_of_ne hgf]
  rfl

theorem word_addTable_new (hfd : f ≠ d) : (s.addTable d p f rest).word f i = 0 := by
  rw [Mem.addTable, word_setWord_of_ne (Or.inl hfd)]
  have hz : ((({ s with free := rest } : Mem).setPage f (fill 0)).page f) = Bytes.zero := by
    simp only [Mem.setPage, Function.update_self]
    rfl
  rw [Mem.word, hz, Bytes.word_zero]

theorem word_addTable_dir (hp : p < NPDENTRIES) (hf : f < 2 ^ 20) :
    (s.addTable d p f rest).word d p = entry f 6 := by
  rw [Mem.addTable, word_setWord_same hp, Nat.mod_eq_of_lt (entry_lt hf (by decide))]

namespace Tables

theorem tableAt_addTable_self (h : Tables k s D) (hp : p < NPDENTRIES)
    (hfree : s.free = f :: rest) : tableAt (s.addTable d p f rest) d p = some f := by
  have hf : f < 2 ^ 20 := (h.pool f (by rw [hfree]; exact List.mem_cons_self)).lt
  rw [tableAt, word_addTable_dir hp hf, if_pos entry_odd, entry_div (by decide)]

theorem tableAt_addTable (h : Tables k s D) (hx : D x = some d) (hy : D y = some e)
    (hfree : s.free = f :: rest) (hne : y ≠ x ∨ i ≠ p) :
    tableAt (s.addTable d p f rest) e i = tableAt s e i := by
  have hmem : f ∈ s.free := by rw [hfree]; exact List.mem_cons_self
  have hfe : e ≠ f := fun heq => h.dir_notMem hy (heq ▸ hmem)
  refine tableAt_congr (word_addTable hfe ?_)
  rcases hne with hne | hne
  · left
    rintro rfl
    exact hne (h.dir_inj hx hy)
  · exact Or.inr hne

theorem spine_addTable [DecidableEq ι] (h : Tables k s D) (hx : D x = some d) (hp : p < NPDENTRIES)
    (hfree : s.free = f :: rest) :
    spine (s.addTable d p f rest) D = Function.update (spine s D) (.table x p) (some f) := by
  funext z
  by_cases hz : z = .table x p
  · subst hz
    rw [Function.update_self, spine_table hx hp, h.tableAt_addTable_self hp hfree]
  · rw [Function.update_of_ne hz]
    cases z with
    | dir y => rfl
    | table y i =>
      simp only [spine]
      split_ifs with hi
      · cases hy : D y with
        | none => rw [Option.bind_none, Option.bind_none]
        | some e =>
          rw [Option.bind_some, Option.bind_some, h.tableAt_addTable hx hy hfree]
          by_contra hcon
          rw [not_or, not_not, not_not] at hcon
          exact hz (by rw [hcon.1, hcon.2])
      · rfl

theorem pteAt_addTable (h : Tables k s D) (hx : D x = some d) (hp : p < NPDENTRIES)
    (hnone : tableAt s d p = none) (hfree : s.free = f :: rest) (hy : D y = some e)
    (hv : v < 2 ^ 20) : pteAt (s.addTable d p f rest) e v = pteAt s e v := by
  have hmem : f ∈ s.free := by rw [hfree]; exact List.mem_cons_self
  have hfd : f ≠ d := fun heq => h.dir_notMem hx (heq ▸ hmem)
  have hq : v / NPTENTRIES < NPDENTRIES := by
    rw [NPDENTRIES_eq, NPTENTRIES]
    omega
  unfold pteAt
  by_cases hself : y = x ∧ v / NPTENTRIES = p
  · obtain ⟨rfl, hdiv⟩ := hself
    rw [hx] at hy
    obtain rfl := Option.some.inj hy
    rw [hdiv, h.tableAt_addTable_self hp hfree, hnone]
    exact word_addTable_new hfd
  · rw [h.tableAt_addTable hx hy hfree (by rw [← not_and_or]; exact hself)]
    cases htv : tableAt s e (v / NPTENTRIES) with
    | none => rfl
    | some g =>
      dsimp only
      have hgf : g ≠ f := fun heq => h.table_notMem hy hq htv (heq ▸ hmem)
      have hgd : d ≠ g := h.table_ne_dir hy hq htv hx
      exact word_addTable hgf (Or.inl hgd.symm)

theorem grown_addTable [DecidableEq ι] (h : Tables k s D) (hx : D x = some d)
    (hp : p < NPDENTRIES) (hnone : tableAt s d p = none) (hfree : s.free = f :: rest) :
    Grown k D x (fun i => i = p) s (s.addTable d p f rest) := by
  have hspine := h.spine_addTable hx hp hfree
  have hmem : f ∈ s.free := by rw [hfree]; exact List.mem_cons_self
  have hexcl := h.excl
  rw [hfree] at hexcl
  have hnew : ∀ z g, spine (s.addTable d p f rest) D z = some g →
      spine s D z = some g ∨ (z = .table x p ∧ g = f) := by
    intro z g hz
    rw [hspine] at hz
    by_cases hzx : z = .table x p
    · rw [hzx, Function.update_self, Option.some.injEq] at hz
      exact Or.inr ⟨hzx, hz.symm⟩
    · rw [Function.update_of_ne hzx] at hz
      exact Or.inl hz
  refine ⟨⟨?_, ?_, ?_⟩, ?_, ⟨[f], hfree, ?_, ?_⟩, ?_⟩
  · rw [hspine]
    exact hexcl.take (.table x p)
  · intro g hg
    exact h.pool g (by rw [hfree]; exact List.mem_cons_of_mem f hg)
  · intro z g hz
    rcases hnew z g hz with h1 | ⟨-, rfl⟩
    · exact h.held z g h1
    · exact h.pool g hmem
  · intro z g hz
    have hzx : z ≠ .table x p := by
      rintro rfl
      rw [spine_table hx hp, hnone] at hz
      simp at hz
    rw [hspine, Function.update_of_ne hzx]
    exact hz
  · intro z g hz
    exact (hnew z g hz).imp_right fun hg => List.mem_singleton.mpr hg.2
  · intro g hg
    obtain rfl := List.mem_singleton.mp hg
    exact ⟨p, rfl, hp, by rw [hspine, Function.update_self]⟩
  · intro g hg hz
    have hgf : g ≠ f := fun heq => hg (heq ▸ hmem)
    have hgd : g ≠ d := fun heq => hz (.dir x) (by rw [heq]; exact hx)
    simp only [Mem.addTable, Mem.setWord, Mem.setPage]
    rw [Function.update_of_ne hgd, Function.update_of_ne hgf]

end Tables

theorem walkpgdir_find {E : String → Prop} {va : ℕ} {Q : Option (ℕ × ℕ) → Mem → Prop} :
    wp (walkpgdir d va false) s Q E ↔
      Q ((tableAt s d (PDX va)).map fun f => (f, PTX va)) s := by
  unfold walkpgdir
  simp only [wp_bind, wp_wordAt]
  by_cases hodd : s.word d (PDX va) % 2 = 1
  · rw [if_pos hodd, wp_pure, tableAt, if_pos hodd]
    rfl
  · rw [if_neg hodd, if_pos trivial, wp_pure, tableAt, if_neg hodd]
    rfl

theorem walkpgdir_spec [DecidableEq ι] {E : String → Prop} (h : Tables k s D) (hx : D x = some d)
    (hv : v < 2 ^ 20) :
    wp (walkpgdir d (v * PGSIZE) true) s (fun r t =>
      (r = none → t = s ∧ s.free = [] ∧ tableAt s d (v / NPTENTRIES) = none) ∧
      ∀ f i, r = some (f, i) → i = v % NPTENTRIES ∧ tableAt t d (v / NPTENTRIES) = some f ∧
        Grown k D x (fun i => i = v / NPTENTRIES) s t ∧
        ∀ y e u, D y = some e → u < 2 ^ 20 → pteAt t e u = pteAt s e u) E := by
  have hp : v / NPTENTRIES < NPDENTRIES := by
    rw [NPDENTRIES_eq, NPTENTRIES]
    omega
  unfold walkpgdir
  rw [PDX_page hv, PTX_page]
  simp only [wp_bind, wp_wordAt]
  by_cases hodd : s.word d (v / NPTENTRIES) % 2 = 1
  · rw [if_pos hodd, wp_pure]
    refine ⟨fun hr => by simp at hr, ?_⟩
    intro f i hr
    obtain ⟨rfl, rfl⟩ := Prod.mk.inj (Option.some.inj hr)
    exact ⟨rfl, by rw [tableAt, if_pos hodd], Grown.refl h, fun _ _ _ _ _ => rfl⟩
  · have hnone : tableAt s d (v / NPTENTRIES) = none := by rw [tableAt, if_neg hodd]
    rw [if_neg hodd, if_neg (by decide), wp_bind]
    refine wp_kalloc ?_ ?_
    · intro hfree
      rw [wp_pure]
      exact ⟨fun _ => ⟨rfl, hfree, hnone⟩, fun f i hr => by simp at hr⟩
    · intro f rest hfree
      simp only [wp_bind, wp_memset, wp_setWord, wp_pure, pde_eq]
      refine ⟨fun hr => by simp at hr, ?_⟩
      intro g i hr
      obtain ⟨rfl, rfl⟩ := Prod.mk.inj (Option.some.inj hr)
      exact ⟨rfl, h.tableAt_addTable_self hp hfree, h.grown_addTable hx hp hnone hfree,
        fun y e u hy hu => h.pteAt_addTable hx hp hnone hfree hy hu⟩

def mapped (pa perm i : ℕ) : ℕ := (pa + i * PGSIZE) % 2 ^ 32 ||| perm ||| PTE_P

theorem mapped_lt {pa perm i : ℕ} (hperm : perm < 2 ^ 32) : mapped pa perm i < 2 ^ 32 :=
  Nat.or_lt_two_pow (Nat.or_lt_two_pow (Nat.mod_lt _ (Nat.two_pow_pos 32)) hperm) (by decide)

theorem mapped_succ (pa perm i : ℕ) :
    mapped ((pa + PGSIZE) % 2 ^ 32) perm i = mapped pa perm (i + 1) := by
  have h : ((pa + PGSIZE) % 2 ^ 32 + i * PGSIZE) % 2 ^ 32 = (pa + (i + 1) * PGSIZE) % 2 ^ 32 := by
    rw [PGSIZE_eq]
    omega
  rw [mapped, mapped, h]

theorem pteAt_of_table {v : ℕ} (ht : tableAt s d (v / NPTENTRIES) = some f) :
    pteAt s d v = s.word f (v % NPTENTRIES) := by
  rw [pteAt, ht]

/-- The first `m` of the pages from `v` on have been mapped in the directory of `x`. -/
structure Mapped (k : Image) (D : ι → Option ℕ) (x : ι) (v m pa perm : ℕ) (s t : Mem) : Prop where
  grown : Grown k D x (fun i => ∃ u, v ≤ u ∧ u < v + m ∧ u / NPTENTRIES = i) s t
  ptes : ∀ y e u, D y = some e → u < 2 ^ 20 →
    (y = x → v ≤ u → u < v + m → pteAt t e u = mapped pa perm (u - v)) ∧
    (¬ (y = x ∧ v ≤ u ∧ u < v + m) → pteAt t e u = pteAt s e u)

theorem Mapped.cons {m pa perm : ℕ} (h : Mapped k D x v 1 pa perm s t)
    (h' : Mapped k D x (v + 1) m ((pa + PGSIZE) % 2 ^ 32) perm t u) :
    Mapped k D x v (m + 1) pa perm s u := by
  have hg := h.grown.mono (J := fun i => ∃ u, v ≤ u ∧ u < v + (m + 1) ∧ u / NPTENTRIES = i) (by
    rintro i ⟨q, h1, h2, h3⟩
    exact ⟨q, h1, by omega, h3⟩)
  have hg' := h'.grown.mono (J := fun i => ∃ u, v ≤ u ∧ u < v + (m + 1) ∧ u / NPTENTRIES = i) (by
    rintro i ⟨q, h1, h2, h3⟩
    exact ⟨q, by omega, by omega, h3⟩)
  refine ⟨hg.trans hg', ?_⟩
  intro y e q hy hq
  obtain ⟨h1, h2⟩ := h.ptes y e q hy hq
  obtain ⟨h1', h2'⟩ := h'.ptes y e q hy hq
  constructor
  · intro hyx hlo hhi
    by_cases hqv : q = v
    · subst hqv
      rw [h2' (by omega), h1 hyx le_rfl (by omega)]
    · rw [h1' hyx (by omega) (by omega), mapped_succ]
      congr 1
      omega
  · intro hout
    rw [h2' fun hin => hout ⟨hin.1, by omega, by omega⟩,
      h2 fun hin => hout ⟨hin.1, by omega, by omega⟩]

/-- `mappages` maps its pages one by one, until memory runs out. -/
theorem mappagesFrom_spec [DecidableEq ι] (h : Tables k s D) (hx : D x = some d)
    {n pa perm fuel : ℕ} (hn : 0 < n) (hv : v + n ≤ 2 ^ 20) (hpa : pa < 2 ^ 32)
    (hperm : perm < 2 ^ 32) (hfuel : n ≤ fuel) :
    wp (mappagesFrom d ((v + n - 1) * PGSIZE) perm fuel (v * PGSIZE) pa) s
      (fun ok t => ∃ m ≤ n, Mapped k D x v m pa perm s t ∧ (ok = true → m = n) ∧
        (ok = false → m < n ∧ t.free = [] ∧ tableAt t d ((v + m) / NPTENTRIES) = none))
      (fun msg => msg = "remap" ∧ ∃ u, v ≤ u ∧ u < v + n ∧ pteAt s d u % 2 = 1) := by
  induction fuel generalizing s v n pa with
  | zero => omega
  | succ fuel ih =>
    rw [mappagesFrom]
    refine wp_seq (walkpgdir_spec h hx (by omega)) ?_
    rintro r t ⟨hnone, hsome⟩
    cases r with
    | none =>
      obtain ⟨rfl, hfree, htab⟩ := hnone rfl
      rw [wp_pure]
      refine ⟨0, by omega, ⟨Grown.refl h, ?_⟩, by simp, fun _ => ⟨hn, hfree, htab⟩⟩
      exact fun y e u _ _ => ⟨fun _ h1 h2 => by omega, fun _ => rfl⟩
    | some ti =>
      obtain ⟨f, i⟩ := ti
      obtain ⟨rfl, htab, hgrown, hptes⟩ := hsome f i rfl
      have hp : v / NPTENTRIES < NPDENTRIES := by
        rw [NPDENTRIES_eq, NPTENTRIES]
        omega
      have hpte : t.word f (v % NPTENTRIES) = pteAt s d v := by
        rw [← pteAt_of_table htab, hptes x d v hx (by omega)]
      simp only [wp_bind, wp_wordAt]
      by_cases hodd : t.word f (v % NPTENTRIES) % 2 = 1
      · rw [if_pos hodd, wp_panic]
        exact ⟨rfl, v, le_rfl, by omega, by rw [← hpte]; exact hodd⟩
      · rw [if_neg hodd, wp_bind, wp_setWord]
        have hval : pa ||| perm ||| PTE_P = mapped pa perm 0 := by
          rw [mapped, Nat.zero_mul, Nat.add_zero, Nat.mod_eq_of_lt hpa]
        rw [hval]
        have hone : Mapped k D x v 1 pa perm s
            (t.setWord f (v % NPTENTRIES) (mapped pa perm 0)) := by
          have hgrown' := hgrown.mono (J := fun i => ∃ u, v ≤ u ∧ u < v + 1 ∧ u / NPTENTRIES = i)
            fun i hi => ⟨v, le_rfl, by omega, hi.symm⟩
          refine ⟨hgrown'.trans (hgrown.tables.grown_setWord hx hp htab _ _), ?_⟩
          intro y e q hy hq
          rw [hgrown.tables.pteAt_setWord hx htab (by omega) (mapped_lt hperm) hy hq]
          constructor
          · intro hyx hlo hhi
            have hqv : q = v := by omega
            rw [if_pos ⟨hyx, hqv⟩, hqv, Nat.sub_self]
          · intro hout
            rw [if_neg (by rintro ⟨rfl, rfl⟩; exact hout ⟨rfl, le_rfl, by omega⟩),
              hptes y e q hy hq]
        by_cases hlast : n = 1
        · subst hlast
          rw [if_pos (by rw [Nat.add_sub_cancel]), wp_pure]
          exact ⟨1, le_rfl, hone, fun _ => rfl, by simp⟩
        · have hne : v * PGSIZE ≠ (v + n - 1) * PGSIZE := by
            rw [PGSIZE_eq]
            omega
          have hnext : (v * PGSIZE + PGSIZE) % 2 ^ 32 = (v + 1) * PGSIZE := by
            rw [PGSIZE_eq]
            omega
          have hlast' : v + n - 1 = v + 1 + (n - 1) - 1 := by omega
          rw [if_neg hne, hnext, hlast']
          refine wp_mono (ih hone.grown.tables (n := n - 1) (by omega) (by omega)
            (Nat.mod_lt _ (Nat.two_pow_pos 32)) (by omega)) ?_ ?_
          · rintro ok t' ⟨m, hm, hmap, htrue, hfalse⟩
            refine ⟨m + 1, by omega, hone.cons hmap, ?_, ?_⟩
            · intro hok
              have := htrue hok
              omega
            · intro hok
              obtain ⟨h1, h2, h3⟩ := hfalse hok
              refine ⟨by omega, h2, ?_⟩
              rw [show v + (m + 1) = v + 1 + m by omega]
              exact h3
          · rintro msg ⟨rfl, q, hlo, hhi, hq⟩
            refine ⟨rfl, q, by omega, by omega, ?_⟩
            rw [(hone.ptes x d q hx (by omega)).2 (by omega)] at hq
            exact hq

theorem mappages_spec [DecidableEq ι] (h : Tables k s D) (hx : D x = some d) {n : ℕ} (pa perm : ℕ)
    (hn : 0 < n) (hv : v + n ≤ 2 ^ 20) (hpa : pa < 2 ^ 32) (hperm : perm < 2 ^ 32) :
    wp (mappages d (v * PGSIZE) (n * PGSIZE) pa perm) s
      (fun ok t => ∃ m ≤ n, Mapped k D x v m pa perm s t ∧ (ok = true → m = n) ∧
        (ok = false → m < n ∧ t.free = [] ∧ tableAt t d ((v + m) / NPTENTRIES) = none))
      (fun msg => msg = "remap" ∧ ∃ u, v ≤ u ∧ u < v + n ∧ pteAt s d u % 2 = 1) := by
  have hfirst : PGROUNDDOWN (v * PGSIZE) = v * PGSIZE := by
    rw [PGROUNDDOWN, PGSIZE_eq]
    omega
  have hlast : PGROUNDDOWN ((v * PGSIZE + n * PGSIZE + (2 ^ 32 - 1)) % 2 ^ 32) =
      (v + n - 1) * PGSIZE := by
    rw [PGROUNDDOWN, PGSIZE_eq]
    omega
  rw [mappages, hfirst, hlast]
  exact mappagesFrom_spec h hx hn hv hpa hperm (by omega)

end grown

end Vm
end Xv6
