import Xv6.Vm.Dense

/-! Where the pages go: what `mappages`, `deallocuvm` and `freevm` take from the free list and give
back to it. -/
namespace Xv6
namespace Vm
open Prog

/-- The page is a page table of `d`, or a user page that `d` maps. -/
def HeldBy (s : Mem) (d f : ℕ) : Prop :=
  (∃ i < NPDENTRIES, tableAt s d i = some f) ∨ ∃ u < userPages, frameOf (pteAt s d u) = some f

/-- The free pages and those of `d` are the same. -/
def Conserves (d : ℕ) (s t : Mem) : Prop :=
  ∀ f, (f ∈ t.free ∨ HeldBy t d f) ↔ (f ∈ s.free ∨ HeldBy s d f)

theorem Conserves.refl (d : ℕ) (s : Mem) : Conserves d s s := fun _ => Iff.rfl

theorem Conserves.trans {d : ℕ} {s t r : Mem} (h : Conserves d s t) (h' : Conserves d t r) :
    Conserves d s r := fun f => (h' f).trans (h f)

section account

variable {ι κ : Type} {k : Image} {s t r : Mem} {D : ι → Option ℕ} {O : κ → Option ℕ} {x : ι}
  {d f g m perm v : ℕ} {rest : List ℕ}

theorem frameOf_even {pte : ℕ} (h : pte % 2 = 0) : frameOf pte = none := by
  rw [frameOf, if_neg (by omega)]

/-- A page that was taken off the free list is mapped by `d`, or lost. -/
theorem Owns.account_mapTaken {p : Page} (h : Owns k s D O) (hx : D x = some d) (hv : v < userPages)
    (hm : m ≤ 1) (hperm : perm < PGSIZE) (hfree : s.free = f :: rest)
    (habsent : pteAt s d v % 2 = 0)
    (hmap : Mapped k D x v m (f * PGSIZE) perm (({ s with free := rest } : Mem).setPage f p) t)
    (g : ℕ) :
    (g ∈ t.free ∨ HeldBy t d g) ↔ (g ∈ rest ∨ HeldBy s d g ∨ (m = 1 ∧ g = f)) := by
  have hU := userPages_eq
  have hmem : f ∈ s.free := by rw [hfree]; exact List.mem_cons_self
  have hspine := h.spine_take hfree p
  have hptes := h.samePtes_take hfree p
  obtain ⟨l, hl, hsp, hnew⟩ := hmap.grown.taken
  have hl : rest = l ++ t.free := hl
  have hnewpte : m = 1 → frameOf (pteAt t d v) = some f := by
    rintro rfl
    rw [(hmap.ptes x d v hx (by omega)).1 rfl le_rfl (by omega), Nat.sub_self,
      mapped_zero (h.pool f hmem).lt, frameOf, if_pos entry_odd, entry_div hperm]
  have hold : ∀ u < userPages, ¬(m = 1 ∧ u = v) → pteAt t d u = pteAt s d u := by
    intro u hu hne
    rw [(hmap.ptes x d u hx (by omega)).2 (by omega), hptes x d u hx (by omega)]
  constructor
  · rintro (hg | ⟨i, hi, hg⟩ | ⟨u, hu, hg⟩)
    · rw [hl]
      exact Or.inl (List.mem_append_right l hg)
    · rcases hsp (.table x i) g (by rw [spine_table hx hi]; exact hg) with hz | hz
      · rw [hspine, spine_table hx hi] at hz
        exact Or.inr (Or.inl (Or.inl ⟨i, hi, hz⟩))
      · rw [hl]
        exact Or.inl (List.mem_append_left _ hz)
    · by_cases hone : m = 1 ∧ u = v
      · rw [hone.2, hnewpte hone.1] at hg
        exact Or.inr (Or.inr ⟨hone.1, (Option.some.inj hg).symm⟩)
      · rw [hold u hu hone] at hg
        exact Or.inr (Or.inl (Or.inr ⟨u, hu, hg⟩))
  · rintro (hg | (⟨i, hi, hg⟩ | ⟨u, hu, hg⟩) | ⟨hone, rfl⟩)
    · rw [hl] at hg
      rcases List.mem_append.mp hg with hg | hg
      · obtain ⟨i, -, hi, hz⟩ := hnew g hg
        rw [spine_table hx hi] at hz
        exact Or.inr (Or.inl ⟨i, hi, hz⟩)
      · exact Or.inl hg
    · have hz := hmap.grown.kept (.table x i) g (by rw [hspine, spine_table hx hi]; exact hg)
      rw [spine_table hx hi] at hz
      exact Or.inr (Or.inl ⟨i, hi, hz⟩)
    · refine Or.inr (Or.inr ⟨u, hu, ?_⟩)
      rw [hold u hu ?_]
      · exact hg
      · rintro ⟨-, rfl⟩
        rw [frameOf_even habsent] at hg
        cases hg
    · exact Or.inr (Or.inr ⟨v, hv, hnewpte hone⟩)

/-- The pages `u` of `x` in `R` have been given back, if they were there. -/
structure Freed (k : Image) (D : ι → Option ℕ) (O : κ → Option ℕ) (x : ι) (d : ℕ) (R : ℕ → Prop)
    (s t : Mem) : Prop where
  owns : Owns k t D O
  spine : spine t D = spine s D
  others : ∀ y e u, D y = some e → u < 2 ^ 20 → ¬(y = x ∧ R u) → pteAt t e u = pteAt s e u
  gone : ∀ u < 2 ^ 20, R u → pteAt t d u % 2 = 0
  absent : ∀ u < 2 ^ 20, pteAt s d u % 2 = 0 → pteAt t d u = pteAt s d u
  conserves : Conserves d s t
  free : ∀ f ∈ s.free, f ∈ t.free
  pages : ∀ f, f ∉ t.free → (∀ z, Vm.spine s D z ≠ some f) → t.page f = s.page f

namespace Freed

variable {R R' : ℕ → Prop}

theorem of_absent (h : Owns k s D O) (hR : ∀ u < 2 ^ 20, R u → pteAt s d u % 2 = 0) :
    Freed k D O x d R s s :=
  ⟨h, rfl, fun _ _ _ _ _ _ => rfl, hR, fun _ _ _ => rfl, Conserves.refl d s, fun _ hf => hf,
    fun _ _ _ => rfl⟩

theorem trans (h : Freed k D O x d R s t) (h' : Freed k D O x d R' t r) (hx : D x = some d) :
    Freed k D O x d (fun u => R u ∨ R' u) s r := by
  refine ⟨h'.owns, h'.spine.trans h.spine, ?_, ?_, ?_, h.conserves.trans h'.conserves,
    fun f hf => h'.free f (h.free f hf), ?_⟩
  · intro y e u hy hu hne
    rw [h'.others y e u hy hu fun hc => hne ⟨hc.1, Or.inr hc.2⟩,
      h.others y e u hy hu fun hc => hne ⟨hc.1, Or.inl hc.2⟩]
  · intro u hu hR
    by_cases hR' : R' u
    · exact h'.gone u hu hR'
    · rw [h'.others x d u hx hu fun hc => hR' hc.2]
      exact h.gone u hu (hR.resolve_right hR')
  · intro u hu ha
    have hsame := h.absent u hu ha
    rw [h'.absent u hu (by rw [hsame]; exact ha), hsame]
  · intro f hf hz
    rw [h'.pages f hf (by rw [h.spine]; exact hz), h.pages f (fun hc => hf (h'.free f hc)) hz]

theorem congr (h : Freed k D O x d R s t) (hR : ∀ u < 2 ^ 20, R u ↔ R' u) :
    Freed k D O x d R' s t where
  owns := h.owns
  spine := h.spine
  others y e u hy hu hne := h.others y e u hy hu fun hc => hne ⟨hc.1, (hR u hu).mp hc.2⟩
  gone u hu hr := h.gone u hu ((hR u hu).mpr hr)
  absent := h.absent
  conserves := h.conserves
  free := h.free
  pages := h.pages

end Freed

theorem page_setPage_of_ne (h : g ≠ f) (p : Page) : (s.setPage f p).page g = s.page g :=
  Function.update_of_ne h ..

theorem page_setWord_of_ne (h : g ≠ f) (i w : ℕ) : (s.setWord f i w).page g = s.page g :=
  page_setPage_of_ne h _

theorem tableAt_of_spine (hspine : spine t D = spine s D) (hx : D x = some d) {i : ℕ}
    (hi : i < NPDENTRIES) : tableAt t d i = tableAt s d i := by
  rw [← spine_table hx hi, hspine, spine_table hx hi]

def Pushed (s t : Mem) : Prop := ∃ l, t.free = l ++ s.free

theorem Pushed.refl (s : Mem) : Pushed s s := ⟨[], rfl⟩

theorem Pushed.trans (h : Pushed s t) (h' : Pushed t r) : Pushed s r := by
  obtain ⟨l, hl⟩ := h
  obtain ⟨l', hl'⟩ := h'
  exact ⟨l' ++ l, by rw [hl', hl, List.append_assoc]⟩

def Dropped (s t : Mem) : Prop := Pushed s t ∧ ∀ f, f ∉ t.free → t.page f = s.page f

theorem Dropped.trans (h : Dropped s t) (h' : Dropped t r) : Dropped s r := by
  refine ⟨h.1.trans h'.1, fun f hf => ?_⟩
  obtain ⟨l, hl⟩ := h'.1
  rw [h'.2 f hf, h.2 f fun hc => hf (by rw [hl]; exact List.mem_append_right l hc)]

/-- The loop of `deallocuvm` from `v` on does not see the page `u`: there is no page table up to
that of `u`, and the jump over the last of them ends behind `u`. -/
def JumpedOver (s : Mem) (d v u : ℕ) : Prop :=
  v / NPTENTRIES < u / NPTENTRIES ∧ u % NPTENTRIES < v % NPTENTRIES ∧
    ∀ i, v / NPTENTRIES ≤ i → i < u / NPTENTRIES → tableAt s d i = none

theorem not_jumpedOver_of_some (ht : tableAt s d (v / NPTENTRIES) = some g) (u : ℕ) :
    ¬JumpedOver s d v u := by
  intro hjump
  rw [hjump.2.2 _ le_rfl hjump.1] at ht
  cases ht

theorem not_jumpedOver_succ (ht : tableAt s d (v / NPTENTRIES) = some g) (u : ℕ) :
    ¬JumpedOver s d (v + 1) u := by
  intro hjump
  have hN : NPTENTRIES = 1024 := rfl
  obtain ⟨h1, h2, h3⟩ := hjump
  by_cases hdiv : (v + 1) / NPTENTRIES = v / NPTENTRIES
  · rw [h3 _ hdiv.le (by rw [← hdiv]; exact h1)] at ht
    cases ht
  · rw [hN] at hdiv h2
    omega

theorem jumpedOver_add (ht : tableAt s d (v / NPTENTRIES) = none) {u : ℕ}
    (hu : v + NPTENTRIES ≤ u) :
    JumpedOver s d (v + NPTENTRIES) u ↔ JumpedOver s d v u := by
  have hN : NPTENTRIES = 1024 := rfl
  have hdiv : (v + NPTENTRIES) / NPTENTRIES = v / NPTENTRIES + 1 := Nat.add_div_right v (by decide)
  rw [JumpedOver, JumpedOver, hdiv, Nat.add_mod_right]
  constructor
  · rintro ⟨h1, h2, h3⟩
    refine ⟨by omega, h2, fun i hi hlt => ?_⟩
    by_cases hiv : i = v / NPTENTRIES
    · rw [hiv, ht]
    · exact h3 i (by omega) hlt
  · rintro ⟨h1, h2, h3⟩
    refine ⟨?_, h2, fun i hi hlt => h3 i (by omega) hlt⟩
    rw [hN] at h1 h2 hu ⊢
    omega

theorem seen_of_none (ht : tableAt s d (v / NPTENTRIES) = none) (u : ℕ) (P : Prop) :
    (v ≤ u ∧ P ∧ ¬JumpedOver s d v u) ↔ (v ≤ u ∧ P ∧ u / NPTENTRIES = v / NPTENTRIES) ∨
      (v + NPTENTRIES ≤ u ∧ P ∧ ¬JumpedOver s d (v + NPTENTRIES) u) := by
  have hN : NPTENTRIES = 1024 := rfl
  by_cases hsame : u / NPTENTRIES = v / NPTENTRIES
  · have hlow : ¬ v + NPTENTRIES ≤ u := by
      rw [hN] at *
      omega
    have hnot : ¬JumpedOver s d v u := fun hc => hc.1.ne hsame.symm
    rw [or_iff_left fun hc => hlow hc.1, and_iff_left hnot, and_iff_left hsame]
  · rw [or_iff_right fun hc => hsame hc.2.2]
    by_cases hge : v + NPTENTRIES ≤ u
    · rw [jumpedOver_add ht hge, and_iff_right hge, and_iff_right (by omega)]
    · refine iff_of_false (fun hc => hc.2.2 ⟨?_, ?_, fun i hi hlt => ?_⟩) fun hc => hge hc.1
      · rw [hN] at *
        omega
      · rw [hN] at *
        omega
      · obtain rfl : i = v / NPTENTRIES := by
          rw [hN] at *
          omega
        exact ht

section dec

variable [DecidableEq ι] [DecidableEq κ]

theorem Owns.freed (h : Owns k s D O) (hx : D x = some d)
    (ht : tableAt s d (v / NPTENTRIES) = some g) (hv : v < userPages)
    (hf : frameOf (pteAt s d v) = some f) :
    Freed k D O x d (fun u => u = v) s
      (((s.setPage f (fill 1)).give f).setWord g (v % NPTENTRIES) 0) := by
  have hU := userPages_eq
  have hnot := h.not_spine_of_user hx hv hf
  have hp : v / NPTENTRIES < NPDENTRIES := by
    rw [NPDENTRIES_eq, NPTENTRIES]
    omega
  have hspine0 := spine_setPage hnot (fill 1)
  have ht' : tableAt (s.setPage f (fill 1)) d (v / NPTENTRIES) = some g := by
    rw [tableAt_of_spine hspine0 hx hp, ht]
  have htables := (h.setPage hnot (fill 1)).tables
  have hspine : spine (((s.setPage f (fill 1)).give f).setWord g (v % NPTENTRIES) 0) D =
      spine s D := by
    rw [setWord_give, ← hspine0, ← htables.spine_setWord hx hp ht' (v % NPTENTRIES) 0]
    exact funext (spine_free _)
  have hpte : ∀ y e u, D y = some e → u < 2 ^ 20 →
      pteAt (((s.setPage f (fill 1)).give f).setWord g (v % NPTENTRIES) 0) e u =
        if y = x ∧ u = v then 0 else pteAt s e u := by
    intro y e u hy hu
    rw [setWord_give, pteAt_give, htables.pteAt_setWord hx ht' (by omega) (by omega) hy hu,
      samePtes_setPage hnot _ y e u hy hu]
  have hmem : f ∉ s.free := h.excl.apart (.user x v) f (by rw [owned_user hx hv, hf])
  refine ⟨h.freeUser hx ht hv hf _, hspine, ?_, ?_, ?_, ?_, ?_, ?_⟩
  · intro y e u hy hu hne
    rw [hpte y e u hy hu, if_neg hne]
  · intro u hu huv
    rw [hpte x d u hx hu, if_pos ⟨rfl, huv⟩]
  · intro u hu ha
    rw [hpte x d u hx hu, if_neg]
    rintro ⟨-, rfl⟩
    rw [frameOf_even ha] at hf
    cases hf
  · intro c
    have hfree : c ∈ (((s.setPage f (fill 1)).give f).setWord g (v % NPTENTRIES) 0).free ↔
        c = f ∨ c ∈ s.free := List.mem_cons
    rw [hfree]
    constructor
    · rintro ((rfl | hc) | ⟨i, hi, hc⟩ | ⟨u, hu, hc⟩)
      · exact Or.inr (Or.inr ⟨v, hv, hf⟩)
      · exact Or.inl hc
      · rw [tableAt_of_spine hspine hx hi] at hc
        exact Or.inr (Or.inl ⟨i, hi, hc⟩)
      · rw [hpte x d u hx (by omega)] at hc
        by_cases huv : u = v
        · rw [if_pos ⟨rfl, huv⟩] at hc
          cases hc
        · rw [if_neg fun hcon => huv hcon.2] at hc
          exact Or.inr (Or.inr ⟨u, hu, hc⟩)
    · rintro (hc | ⟨i, hi, hc⟩ | ⟨u, hu, hc⟩)
      · exact Or.inl (Or.inr hc)
      · rw [← tableAt_of_spine hspine hx hi] at hc
        exact Or.inr (Or.inl ⟨i, hi, hc⟩)
      · by_cases huv : u = v
        · rw [huv, hf] at hc
          exact Or.inl (Or.inl (Option.some.inj hc).symm)
        · refine Or.inr (Or.inr ⟨u, hu, ?_⟩)
          rw [hpte x d u hx (by omega), if_neg fun hcon => huv hcon.2]
          exact hc
  · exact fun c hc => List.mem_cons_of_mem f hc
  · intro c hc hz
    have hcf : c ≠ f := fun heq => hc (heq ▸ List.mem_cons_self)
    have hcg : c ≠ g := by
      rintro rfl
      exact hz (.table x (v / NPTENTRIES)) (by rw [spine_table hx hp, ht])
    have hgive : ∀ m : Mem, (m.give f).page c = m.page c := fun _ => rfl
    rw [page_setWord_of_ne hcg, hgive, page_setPage_of_ne hcf]

/-- The loop of `deallocuvm`, whichever page tables are there: it gives back the pages that it does
not jump over. -/
theorem deallocuvmFrom_freed {oldsz fuel : ℕ} (h : Owns k s D O) (hx : D x = some d)
    (hle : oldsz ≤ KERNBASE) (hfuel : pagesOf oldsz < v + fuel) :
    wp (deallocuvmFrom k d oldsz fuel (v * PGSIZE)) s
      (fun _ t => Freed k D O x d
        (fun u => v ≤ u ∧ u * PGSIZE < oldsz ∧ ¬JumpedOver s d v u) s t ∧ Pushed s t)
      (fun _ => False) := by
  have hU := userPages_eq
  have hmax := pagesOf_le_userPages hle
  have hdone : ∀ {s : Mem} {v : ℕ}, Owns k s D O → ¬ v * PGSIZE < oldsz →
      Freed k D O x d (fun u => v ≤ u ∧ u * PGSIZE < oldsz ∧ ¬JumpedOver s d v u) s s := by
    intro s v h hge
    refine Freed.of_absent h fun u _ hu => absurd hu.2.1 ?_
    have hmul := Nat.mul_le_mul_right PGSIZE hu.1
    omega
  induction fuel generalizing s v with
  | zero =>
    rw [deallocuvmFrom, wp_pure]
    exact ⟨hdone h fun hlt => by have := lt_pagesOf.mpr hlt; omega, Pushed.refl s⟩
  | succ fuel ih =>
    rw [deallocuvmFrom]
    by_cases hlt : v * PGSIZE < oldsz
    · have hvp := lt_pagesOf.mpr hlt
      rw [if_pos hlt, wp_bind]
      unfold deallocPage
      rw [wp_bind, walkpgdir_find, PDX_page (by omega), PTX_page]
      cases ht : tableAt s d (v / NPTENTRIES) with
      | none =>
        have hnext : ((v * PGSIZE + (NPTENTRIES - 1) * PGSIZE) % 2 ^ 32 + PGSIZE) % 2 ^ 32 =
            (v + NPTENTRIES) * PGSIZE := by
          rw [PGSIZE_eq, NPTENTRIES]
          omega
        rw [Option.map_none, wp_pure, hnext]
        refine wp_post (ih h (by rw [NPTENTRIES]; omega)) ?_
        rintro _ t ⟨hfr, hpush⟩
        refine ⟨?_, hpush⟩
        have hsame : ∀ u, u / NPTENTRIES = v / NPTENTRIES → pteAt s d u % 2 = 0 := by
          intro u hu
          simp only [pteAt, hu, ht]
        have hall := (Freed.of_absent (R := fun u => v ≤ u ∧ u * PGSIZE < oldsz ∧
          u / NPTENTRIES = v / NPTENTRIES) h fun u _ hin => hsame u hin.2.2).trans hfr hx
        exact hall.congr fun u _ => (seen_of_none ht u _).symm
      | some g =>
        have hnext : (v * PGSIZE + PGSIZE) % 2 ^ 32 = (v + 1) * PGSIZE := by
          rw [PGSIZE_eq]
          omega
        have hone : ∀ {t : Mem}, Freed k D O x d (fun u => u = v) s t → Pushed s t →
            wp (deallocuvmFrom k d oldsz fuel ((v + 1) * PGSIZE)) t
              (fun _ r => Freed k D O x d
                (fun u => v ≤ u ∧ u * PGSIZE < oldsz ∧ ¬JumpedOver s d v u) s r ∧ Pushed s r)
              (fun _ => False) := by
          intro t hfr hpush
          have htables : ∀ i < NPDENTRIES, tableAt t d i = tableAt s d i := fun i hi =>
            tableAt_of_spine hfr.spine hx hi
          refine wp_post (ih hfr.owns (by omega)) ?_
          rintro _ r ⟨hfr', hpush'⟩
          refine ⟨(hfr.trans hfr' hx).congr fun u _ => ?_, hpush.trans hpush'⟩
          have hnone := not_jumpedOver_of_some ht u
          have hnone' : ¬JumpedOver t d (v + 1) u :=
            not_jumpedOver_succ (by rw [htables _ (by rw [NPDENTRIES_eq, NPTENTRIES]; omega), ht]) u
          constructor
          · rintro (rfl | hin)
            · exact ⟨le_rfl, hlt, hnone⟩
            · exact ⟨by omega, hin.2.1, hnone⟩
          · rintro ⟨h1, h2, -⟩
            by_cases huv : u = v
            · exact Or.inl huv
            · exact Or.inr ⟨by omega, h2, hnone'⟩
        rw [Option.map_some]
        dsimp only
        rw [wp_bind, wp_wordAt, ← pteAt_of_table ht, wp_bind]
        unfold freePte
        by_cases hodd : pteAt s d v % 2 = 1
        · have hf : frameOf (pteAt s d v) = some (pteAt s d v / PGSIZE) := by
            rw [frameOf, if_pos hodd]
          have hpool : k.Pool (pteAt s d v / PGSIZE) :=
            h.held (.user x v) _ (by rw [owned_user hx (by omega), hf])
          rw [if_pos hodd, if_neg hpool.ne_zero, wp_bind, wp_kfree hpool, wp_setWord,
            wp_pure, hnext]
          exact hone (h.freed hx ht (by omega) hf) ⟨[_], rfl⟩
        · rw [if_neg hodd, wp_pure, wp_pure, hnext]
          refine hone (Freed.of_absent h ?_) (Pushed.refl s)
          rintro u - rfl
          omega
    · rw [if_neg hlt, wp_pure]
      exact ⟨hdone h hlt, Pushed.refl s⟩

theorem deallocuvm_visits {oldsz newsz : ℕ} (h : Owns k s D O) (hx : D x = some d)
    (hle : oldsz ≤ KERNBASE) (hlt : newsz < oldsz) :
    wp (deallocuvm k d oldsz newsz) s
      (fun n t => n = newsz ∧ Freed k D O x d (fun u => pagesOf newsz ≤ u ∧ u < pagesOf oldsz ∧
        ¬JumpedOver s d (pagesOf newsz) u) s t ∧ Pushed s t) (fun _ => False) := by
  have hU := userPages_eq
  have hmax := pagesOf_le_userPages hle
  unfold deallocuvm
  rw [if_neg (by omega), PGROUNDUP_eq (by omega)]
  refine wp_seq (deallocuvmFrom_freed h hx hle (by omega)) ?_
  rintro _ t ⟨hfr, hpush⟩
  rw [wp_pure]
  refine ⟨rfl, hfr.congr fun u _ => and_congr_right fun _ => ?_, hpush⟩
  rw [lt_pagesOf]

theorem deallocuvm_freed {oldsz newsz w : ℕ} (h : Owns k s D O) (hx : D x = some d)
    (hle : oldsz ≤ KERNBASE) (hlt : newsz < oldsz)
    (hpresent : ∀ u, pagesOf newsz ≤ u → u < pagesOf oldsz → (pteAt s d u % 2 = 1 ↔ u < w)) :
    wp (deallocuvm k d oldsz newsz) s
      (fun n t => n = newsz ∧
        Freed k D O x d (fun u => pagesOf newsz ≤ u ∧ u < pagesOf oldsz) s t) (fun _ => False) := by
  refine wp_post (deallocuvm_visits h hx hle hlt) ?_
  rintro n t ⟨hn, hfr, -⟩
  have hall := (Freed.of_absent (R := fun u => pagesOf newsz ≤ u ∧ u < pagesOf oldsz ∧
    JumpedOver s d (pagesOf newsz) u) h ?_).trans hfr hx
  · refine ⟨hn, hall.congr fun u _ => ?_⟩
    rw [← and_assoc, ← and_assoc, ← and_or_left, and_iff_left (em _)]
  · rintro u - ⟨h1, h2, hjump⟩
    have hw : w ≤ pagesOf newsz := by
      by_contra hc
      have hodd := (hpresent _ le_rfl (by omega)).mpr (not_le.mp hc)
      have hstart := hjump.2.2 _ le_rfl hjump.1
      simp only [pteAt, hstart] at hodd
      omega
    have := (hpresent u h1 h2).not.mpr (by omega)
    omega

omit [DecidableEq ι] [DecidableEq κ] in
theorem mem_tablesFrom_zero : f ∈ tablesFrom s d 0 ↔ ∃ i < NPDENTRIES, tableAt s d i = some f := by
  refine ⟨mem_tablesFrom, ?_⟩
  rintro ⟨i, hi, htab⟩
  refine List.mem_filterMap.mpr ⟨i, ?_, htab⟩
  rw [List.mem_range'_1]
  omega

omit [DecidableEq ι] [DecidableEq κ] in
theorem kfree_dropped (k : Image) (f : ℕ) (s : Mem) :
    wp (kfree k f) s (fun _ t => Dropped s t) (fun _ => True) := by
  unfold kfree
  split
  · exact (wp_stop _).mpr trivial
  · rw [wp_bind, wp_memset, wp_modify]
    refine ⟨⟨[f], rfl⟩, fun g hg => page_setPage_of_ne ?_ _⟩
    rintro rfl
    exact hg List.mem_cons_self

omit [DecidableEq ι] [DecidableEq κ] in
theorem freeTables_dropped (k : Image) (d : ℕ) (s : Mem) :
    wp (freeTables k d) s (fun _ t => Dropped s t) (fun _ => True) := by
  unfold freeTables
  refine wp_seq (wp_forM (I := fun _ u => Dropped s u) ?_ ⟨.refl s, fun _ _ => rfl⟩) ?_
  · intro _ i _ u _ hu
    rw [wp_bind, wp_wordAt]
    split
    · exact wp_post (kfree_dropped k _ u) fun _ t ht => hu.trans ht
    · rw [wp_pure]
      exact hu
  · exact fun _ u hu => wp_post (kfree_dropped k d u) fun _ t ht => hu.trans ht

theorem freevm_account (h : Owns k s D O) (hx : D x = some d) :
    wp (freevm k d) s
      (fun _ t => Owns k t (Function.update D x none) O ∧
        SamePtes (Function.update D x none) s t ∧
        (∀ f, f ∈ t.free ↔ f ∈ s.free ∨ f = d ∨ HeldBy s d f) ∧ Pushed s t) (fun _ => False) := by
  have hU := userPages_eq
  have hzero : pagesOf 0 = 0 := rfl
  have hall : pagesOf KERNBASE = userPages := by
    rw [pagesOf, userPages, KERNBASE_eq, PGSIZE_eq]
    omega
  rw [freevm_eq]
  refine wp_seq (deallocuvm_visits h hx le_rfl (by rw [KERNBASE_eq]; omega)) ?_
  rintro _ t ⟨-, hfr, hpush⟩
  refine wp_post (wp_and (freeTables_spec hfr.owns hx) (freeTables_dropped k d t)) ?_
  rintro _ r ⟨⟨howns, hsame, hmem⟩, hdrop⟩
  refine ⟨howns, ?_, ?_, hpush.trans hdrop.1⟩
  · intro y e u hy hu
    rw [hsame y e u hy hu]
    by_cases hyx : y = x
    · rw [hyx, Function.update_self] at hy
      cases hy
    · rw [Function.update_of_ne hyx] at hy
      exact hfr.others y e u hy hu fun hcon => hyx hcon.1
  · intro f
    have htables : HeldBy t d f ↔ f ∈ tablesFrom t d 0 := by
      rw [mem_tablesFrom_zero]
      refine or_iff_left ?_
      rintro ⟨u, hu, hf⟩
      have hgone := hfr.gone u (by omega)
        ⟨by omega, by rw [hall]; exact hu, fun hjump => absurd hjump.2.1 (by rw [hzero]; simp)⟩
      rw [frameOf_even hgone] at hf
      cases hf
    rw [hmem f, ← htables, or_left_comm, hfr.conserves f, or_left_comm]

end dec

end account

end Vm
end Xv6
