import Xv6.Vm.Owns

/-! What `allocuvm`, `deallocuvm`, `freevm` and `clearpteu` do to address spaces. -/
namespace Xv6
namespace Vm
open Prog

variable {ι κ : Type}

/-- Only user entries of `x` may have changed, and only pages in `R` may have become present. -/
structure UserChange (k : Image) (D : ι → Option ℕ) (O : κ → Option ℕ) (x : ι) (R : ℕ → Prop)
    (s t : Mem) : Prop where
  owns : Owns k t D O
  ptes : ∀ y e u, D y = some e → u < 2 ^ 20 → y ≠ x ∨ userPages ≤ u → pteAt t e u = pteAt s e u
  present : ∀ e u, D x = some e → u < userPages → pteAt t e u % 2 = 1 →
    pteAt s e u % 2 = 1 ∨ R u

section spaces

variable {k : Image} {s t r : Mem} {D : ι → Option ℕ} {O : κ → Option ℕ} {x : ι} {d f g v : ℕ}
  {R R' : ℕ → Prop}

namespace UserChange

theorem refl (h : Owns k s D O) : UserChange k D O x R s s :=
  ⟨h, fun _ _ _ _ _ _ => rfl, fun _ _ _ _ hp => Or.inl hp⟩

theorem trans (h : UserChange k D O x R s t) (h' : UserChange k D O x R' t r) :
    UserChange k D O x (fun u => R u ∨ R' u) s r := by
  refine ⟨h'.owns, ?_, ?_⟩
  · intro y e u hy hu hne
    rw [h'.ptes y e u hy hu hne, h.ptes y e u hy hu hne]
  · intro e u hx hu hp
    rcases h'.present e u hx hu hp with hp | hr
    · exact (h.present e u hx hu hp).imp_right Or.inl
    · exact Or.inr (Or.inr hr)

theorem mono (h : UserChange k D O x R s t) (hR : ∀ u, u < userPages → R u → R' u) :
    UserChange k D O x R' s t :=
  ⟨h.owns, h.ptes, fun e u hx hu hp => (h.present e u hx hu hp).imp_right (hR u hu)⟩

end UserChange

theorem Image.Pool.v2p_p2v (hp : k.Pool f) : v2p (p2v (f * PGSIZE)) = f * PGSIZE := by
  have hlt := hp.2
  rw [PGSIZE_eq, PHYSTOP] at hlt
  rw [v2p, p2v, KERNBASE_eq, PGSIZE_eq]
  omega

theorem wp_kfree {Q : Unit → Mem → Prop} {E : String → Prop} (hp : k.Pool f) :
    wp (kfree k f) s Q E ↔ Q () ((s.setPage f (fill 1)).give f) := by
  have hok : ¬ (p2v (f * PGSIZE) % PGSIZE ≠ 0 ∨ p2v (f * PGSIZE) < k.kend ∨
      v2p (p2v (f * PGSIZE)) ≥ PHYSTOP) := by
    have hend := hp.1
    have hlt := hp.2
    rw [hp.v2p_p2v]
    have hmod : p2v (f * PGSIZE) % PGSIZE = 0 := by
      rw [p2v, KERNBASE_eq, PGSIZE_eq]
      omega
    omega
  unfold kfree
  rw [if_neg hok, wp_bind, wp_memset, wp_modify]
  exact Iff.rfl

/-- Pages from `v` on below `oldsz` may have been freed. -/
structure Cleared (k : Image) (D : ι → Option ℕ) (O : κ → Option ℕ) (x : ι) (v oldsz : ℕ)
    (s t : Mem) : Prop where
  owns : Owns k t D O
  ptes : ∀ y e u, D y = some e → u < 2 ^ 20 → pteAt t e u = pteAt s e u ∨
    (y = x ∧ v ≤ u ∧ u * PGSIZE < oldsz ∧ pteAt t e u = 0)

theorem Cleared.refl (h : Owns k s D O) (v oldsz : ℕ) : Cleared k D O x v oldsz s s :=
  ⟨h, fun _ _ _ _ _ => Or.inl rfl⟩

theorem Cleared.trans {v' oldsz : ℕ} (h : Cleared k D O x v oldsz s t)
    (h' : Cleared k D O x v' oldsz t r) (hv : v ≤ v') : Cleared k D O x v oldsz s r := by
  refine ⟨h'.owns, ?_⟩
  intro y e u hy hu
  rcases h'.ptes y e u hy hu with h1 | ⟨h1, h2, h3, h4⟩
  · rw [h1]
    exact h.ptes y e u hy hu
  · exact Or.inr ⟨h1, by omega, h3, h4⟩

theorem Cleared.userChange {oldsz : ℕ} (h : Cleared k D O x v oldsz s t) (hle : oldsz ≤ KERNBASE) :
    UserChange k D O x R s t := by
  refine ⟨h.owns, ?_, ?_⟩
  · intro y e u hy hu hne
    rcases h.ptes y e u hy hu with h1 | ⟨rfl, h2, h3, h4⟩
    · exact h1
    · have hge : userPages ≤ u := hne.resolve_left fun hne => hne rfl
      rw [userPages_eq] at hge
      rw [KERNBASE_eq] at hle
      rw [PGSIZE_eq] at h3
      omega
  · intro e u hx hu hp
    rw [userPages_eq] at hu
    rcases h.ptes x e u hx (by omega) with h1 | ⟨-, -, -, h4⟩
    · rw [h1] at hp
      exact Or.inl hp
    · rw [h4] at hp
      simp at hp

theorem Owns.kfree (h : Owns k (s.give f) D O) (p : Page) :
    Owns k ((s.setPage f p).give f) D O ∧ SamePtes D s ((s.setPage f p).give f) := by
  have hspine := h.not_spine_of_free (f := f) List.mem_cons_self
  refine ⟨h.setPage hspine p, ?_⟩
  intro y e u hy hu
  have hsame := samePtes_setPage hspine p y e u hy hu
  rw [setPage_give, pteAt_give, pteAt_give] at hsame
  rw [pteAt_give, hsame]

theorem tablesFrom_end : tablesFrom s d NPDENTRIES = [] := by
  rw [tablesFrom, Nat.sub_self]
  rfl

/-- The state of the loop of `freevm` at the entry `i`: the directory and the rest of its page
tables are in hand. -/
structure Freeing (k : Image) (D : ι → Option ℕ) (O : κ → Option ℕ) (d : ℕ) (s : Mem) (i : ℕ)
    (t : Mem) : Prop where
  owns : Owns k { t with free := d :: tablesFrom s d i ++ t.free } D O
  page : t.page d = s.page d
  ptes : SamePtes D s t

theorem Freeing.step {i : ℕ} (h : Freeing k D O d s i t) (hi : i < NPDENTRIES)
    (ht : tableAt s d i = some g) :
    Freeing k D O d s (i + 1) ((t.setPage g (fill 1)).give g) := by
  have howns := h.owns
  rw [tablesFrom_of_lt hi, ht] at howns
  have hmem : g ∈ d :: ((some g).toList ++ tablesFrom s d (i + 1)) ++ t.free := by simp
  have hne : g ≠ d := by
    have hnodup := howns.excl.nodup
    simp only [Option.toList_some, List.cons_append, List.nil_append, List.nodup_cons,
      List.mem_cons, not_or] at hnodup
    exact fun heq => hnodup.1.1 heq.symm
  have hspine := howns.not_spine_of_free hmem
  have hset := howns.setPage hspine (fill 1)
  refine ⟨?_, ?_, ?_⟩
  · refine hset.perm ?_
    show List.Perm (d :: (g :: tablesFrom s d (i + 1)) ++ t.free)
      (d :: tablesFrom s d (i + 1) ++ g :: t.free)
    simp only [List.cons_append]
    exact List.Perm.cons d List.perm_middle.symm
  · show Function.update t.page g (fill 1) d = s.page d
    rw [Function.update_of_ne hne.symm]
    exact h.page
  · intro y e u hy hu
    have hspine' : ∀ z, spine t D z ≠ some g := by
      intro z
      rw [← spine_free (d :: ((some g).toList ++ tablesFrom s d (i + 1)) ++ t.free) z]
      exact hspine z
    rw [pteAt_give, samePtes_setPage hspine' (fill 1) y e u hy hu, h.ptes y e u hy hu]

section dec

variable [DecidableEq ι] [DecidableEq κ]

theorem Owns.cleared {oldsz : ℕ} (h : Owns k s D O) (hx : D x = some d)
    (ht : tableAt s d (v / NPTENTRIES) = some g) (hv : v < userPages)
    (hf : frameOf (pteAt s d v) = some f) (hsz : v * PGSIZE < oldsz) :
    Cleared k D O x v oldsz s
      (((s.setPage f (fill 1)).give f).setWord g (v % NPTENTRIES) 0) := by
  refine ⟨h.freeUser hx ht hv hf _, ?_⟩
  intro y e u hy hu
  have hspine := h.not_spine_of_user hx hv hf
  have hU := userPages_eq
  have hp : v / NPTENTRIES < NPDENTRIES := by
    rw [NPDENTRIES_eq, NPTENTRIES]
    omega
  have ht' : tableAt (s.setPage f (fill 1)) d (v / NPTENTRIES) = some g := by
    rw [← spine_table hx hp, spine_setPage hspine, spine_table hx hp]
    exact ht
  have hset := (h.setPage hspine (fill 1)).tables.pteAt_setWord (v := v) (w := 0) hx ht' (by omega)
    (by omega) hy hu
  rw [setWord_give, pteAt_give, hset]
  by_cases hyu : y = x ∧ u = v
  · rw [if_pos hyu]
    exact Or.inr ⟨hyu.1, by omega, by rw [hyu.2]; exact hsz, rfl⟩
  · rw [if_neg hyu]
    exact Or.inl (samePtes_setPage hspine _ y e u hy hu)

theorem freePte_spec {oldsz : ℕ} (h : Owns k s D O) (hx : D x = some d)
    (ht : tableAt s d (v / NPTENTRIES) = some g) (hv : v < userPages) (hlt : v * PGSIZE < oldsz) :
    wp (freePte k g (v % NPTENTRIES) (pteAt s d v)) s
      (fun _ t => Cleared k D O x v oldsz s t) (fun _ => False) := by
  unfold freePte
  by_cases hodd : pteAt s d v % 2 = 1
  · have hf : frameOf (pteAt s d v) = some (pteAt s d v / PGSIZE) := by
      rw [frameOf, if_pos hodd]
    have hpool : k.Pool (pteAt s d v / PGSIZE) :=
      h.held (.user x v) _ (by rw [owned_user hx hv, hf])
    rw [if_pos hodd, if_neg hpool.ne_zero, wp_bind, wp_kfree hpool, wp_setWord]
    exact h.cleared hx ht hv hf hlt
  · rw [if_neg hodd, wp_pure]
    exact Cleared.refl h v oldsz

/-- The body of the loop frees at most the page it is at, and skips over missing tables. -/
theorem deallocPage_spec {oldsz : ℕ} (h : Owns k s D O) (hx : D x = some d) (hle : oldsz ≤ KERNBASE)
    (hlt : v * PGSIZE < oldsz) :
    wp (deallocPage k d (v * PGSIZE)) s
      (fun a t => Cleared k D O x v oldsz s t ∧
        ∃ v' ≥ v, (a + PGSIZE) % 2 ^ 32 = (v' + 1) * PGSIZE) (fun _ => False) := by
  have hU := userPages_eq
  rw [KERNBASE_eq] at hle
  have hv : v < userPages := by
    rw [PGSIZE_eq] at hlt
    omega
  unfold deallocPage
  rw [wp_bind, walkpgdir_find, PDX_page (by omega), PTX_page]
  cases ht : tableAt s d (v / NPTENTRIES) with
  | none =>
    rw [Option.map_none, wp_pure]
    refine ⟨Cleared.refl h v oldsz, v + (NPTENTRIES - 1), by omega, ?_⟩
    rw [PGSIZE_eq, NPTENTRIES]
    omega
  | some g =>
    rw [Option.map_some]
    dsimp only
    have hnext : (v * PGSIZE + PGSIZE) % 2 ^ 32 = (v + 1) * PGSIZE := by
      rw [PGSIZE_eq]
      omega
    rw [wp_bind, wp_wordAt, ← pteAt_of_table ht]
    refine wp_seq (freePte_spec h hx ht hv hlt) ?_
    intro _ t hcl
    rw [wp_pure]
    exact ⟨hcl, v, le_rfl, hnext⟩

theorem deallocuvmFrom_spec {oldsz fuel : ℕ} (h : Owns k s D O) (hx : D x = some d)
    (hle : oldsz ≤ KERNBASE) :
    wp (deallocuvmFrom k d oldsz fuel (v * PGSIZE)) s
      (fun _ t => Cleared k D O x v oldsz s t) (fun _ => False) := by
  induction fuel generalizing s v with
  | zero =>
    rw [deallocuvmFrom, wp_pure]
    exact Cleared.refl h v oldsz
  | succ fuel ih =>
    rw [deallocuvmFrom]
    by_cases hlt : v * PGSIZE < oldsz
    · rw [if_pos hlt]
      refine wp_seq (deallocPage_spec h hx hle hlt) ?_
      rintro a t ⟨hcl, v', hv', ha⟩
      rw [ha]
      exact wp_post (ih hcl.owns) fun _ u hcl' => hcl.trans hcl' (by omega)
    · rw [if_neg hlt, wp_pure]
      exact Cleared.refl h v oldsz

theorem deallocuvm_spec {oldsz newsz : ℕ} (h : Owns k s D O) (hx : D x = some d)
    (hle : oldsz ≤ KERNBASE) :
    wp (deallocuvm k d oldsz newsz) s
      (fun n t => n = min oldsz newsz ∧ Cleared k D O x ((newsz + PGSIZE - 1) / PGSIZE) oldsz s t)
      (fun _ => False) := by
  unfold deallocuvm
  by_cases hge : newsz ≥ oldsz
  · rw [if_pos hge, wp_pure]
    exact ⟨by omega, Cleared.refl h _ oldsz⟩
  · have hround : PGROUNDUP newsz = (newsz + PGSIZE - 1) / PGSIZE * PGSIZE := by
      rw [KERNBASE_eq] at hle
      rw [PGROUNDUP, PGSIZE_eq]
      omega
    rw [if_neg hge, hround]
    refine wp_seq (deallocuvmFrom_spec h hx hle) ?_
    intro _ t hcl
    rw [wp_pure]
    exact ⟨by omega, hcl⟩

def freeTables (k : Image) (pgdir : ℕ) : VmM Unit := do
  (List.range NPDENTRIES).forM fun i => do
    let pde ← wordAt pgdir i
    if pde % 2 = 1 then kfree k (pde / PGSIZE) else pure ()
  kfree k pgdir

omit [DecidableEq ι] [DecidableEq κ] in
theorem freevm_eq (k : Image) (pgdir : ℕ) :
    freevm k pgdir = deallocuvm k pgdir KERNBASE 0 >>= fun _ => freeTables k pgdir := by
  unfold freevm freeTables
  rfl

omit [DecidableEq κ] in
theorem freeTables_spec (h : Owns k s D O) (hx : D x = some d) :
    wp (freeTables k d) s
      (fun _ t => Owns k t (Function.update D x none) O ∧
        SamePtes (Function.update D x none) s t ∧
        ∀ f, f ∈ t.free ↔ f ∈ s.free ∨ f = d ∨ f ∈ tablesFrom s d 0) (fun _ => False) := by
  have hstart : Freeing k (Function.update D x none) O d s 0 s :=
    ⟨h.takeDir hx, rfl, fun _ _ _ _ _ => rfl⟩
  unfold freeTables
  refine wp_seq (wp_forM (I := fun done u =>
    Freeing k (Function.update D x none) O d s done.length u ∧
      ∀ f, (f ∈ tablesFrom s d done.length ∨ f ∈ u.free) ↔ (f ∈ tablesFrom s d 0 ∨ f ∈ s.free)) ?_
    ⟨hstart, fun _ => Iff.rfl⟩) ?_
  · rintro done i rest u hl ⟨hu, hacc⟩
    have hlen : i = done.length ∧ done.length < NPDENTRIES := by
      have hget : (List.range NPDENTRIES)[done.length]? = some i := by
        rw [hl, List.getElem?_append_right le_rfl, Nat.sub_self]
        rfl
      obtain ⟨hlt, heq⟩ := List.getElem?_eq_some_iff.mp hget
      rw [List.getElem_range] at heq
      rw [List.length_range] at hlt
      exact ⟨heq.symm, hlt⟩
    have hword : u.word d i = s.word d i := by
      rw [Mem.word, Mem.word, hu.page]
    rw [wp_bind, wp_wordAt, hword, List.length_append, List.length_singleton]
    by_cases hodd : s.word d i % 2 = 1
    · have htab : tableAt s d done.length = some (s.word d i / PGSIZE) := by
        rw [← hlen.1, tableAt, if_pos hodd]
      have hpool : k.Pool (s.word d i / PGSIZE) := by
        refine hu.owns.pool _ ?_
        rw [tablesFrom_of_lt hlen.2, htab]
        simp
      rw [if_pos hodd, wp_kfree hpool]
      refine ⟨hu.step hlen.2 htab, fun f => Iff.trans ?_ (hacc f)⟩
      rw [tablesFrom_of_lt hlen.2, htab, Option.toList_some, List.mem_append, List.mem_singleton,
        or_assoc, or_left_comm]
      exact or_congr_right List.mem_cons
    · have htab : tableAt s d done.length = none := by
        rw [← hlen.1, tableAt, if_neg hodd]
      rw [if_neg hodd, wp_pure]
      rw [tablesFrom_of_lt hlen.2, htab] at hacc
      refine ⟨⟨?_, hu.page, hu.ptes⟩, hacc⟩
      have howns := hu.owns
      rw [tablesFrom_of_lt hlen.2, htab] at howns
      exact howns
  · rintro _ u ⟨hu, hacc⟩
    have howns := hu.owns
    rw [List.length_range, tablesFrom_end] at howns hacc
    have hgive : Owns k (u.give d) (Function.update D x none) O := howns
    obtain ⟨hfreed, hsame⟩ := hgive.kfree (fill 1)
    rw [wp_kfree (hgive.pool d List.mem_cons_self)]
    refine ⟨hfreed, ?_, ?_⟩
    · intro y e w hy hw
      rw [hsame y e w hy hw, hu.ptes y e w hy hw]
    · intro f
      have hmem : f ∈ ((u.setPage d (fill 1)).give d).free ↔ f = d ∨ f ∈ u.free := List.mem_cons
      have hrest : f ∈ u.free ↔ f ∈ tablesFrom s d 0 ∨ f ∈ s.free := by
        rw [← hacc f, or_iff_right List.not_mem_nil]
      rw [hmem, hrest, or_comm (a := f ∈ tablesFrom s d 0), or_left_comm]

theorem freevm_spec (h : Owns k s D O) (hx : D x = some d) :
    wp (freevm k d) s
      (fun _ t => Owns k t (Function.update D x none) O ∧
        SamePtes (Function.update D x none) s t) (fun _ => False) := by
  rw [freevm_eq]
  refine wp_seq (deallocuvm_spec h hx le_rfl) ?_
  rintro _ t ⟨-, hcl⟩
  have hcl' : SamePtes (Function.update D x none) s t := by
    intro y e u hy hu
    by_cases hyx : y = x
    · rw [hyx, Function.update_self] at hy
      simp at hy
    · rw [Function.update_of_ne hyx] at hy
      exact (hcl.ptes y e u hy hu).resolve_right fun hcon => hyx hcon.1
  refine wp_post (freeTables_spec hcl.owns hx) ?_
  rintro _ u ⟨howns, hsame, -⟩
  refine ⟨howns, ?_⟩
  intro y e w hy hw
  rw [hsame y e w hy hw, hcl' y e w hy hw]

end dec

def pagesOf (sz : ℕ) : ℕ := (sz + PGSIZE - 1) / PGSIZE

theorem lt_pagesOf {sz : ℕ} : v < pagesOf sz ↔ v * PGSIZE < sz := by
  rw [pagesOf, PGSIZE_eq]
  omega

theorem PGROUNDUP_eq {sz : ℕ} (h : sz ≤ KERNBASE) : PGROUNDUP sz = pagesOf sz * PGSIZE := by
  rw [KERNBASE_eq] at h
  rw [PGROUNDUP, pagesOf, PGSIZE_eq]
  omega

/-- The `m` pages from `v` on of `x` have been mapped to fresh pages. -/
structure Filled (k : Image) (D : ι → Option ℕ) (O : κ → Option ℕ) (x : ι) (v m : ℕ)
    (s t : Mem) : Prop where
  owns : Owns k t D O
  ptes : ∀ y e u, D y = some e → u < 2 ^ 20 → ¬ (y = x ∧ v ≤ u ∧ u < v + m) →
    pteAt t e u = pteAt s e u
  fresh : ∀ e u, D x = some e → v ≤ u → u < v + m →
    ∃ f ∈ s.free, pteAt t e u = entry f (PTE_W ||| PTE_U) ∧ t.page f = fill 0
  free : ∃ l, s.free = l ++ t.free
  pages : ∀ f, f ∉ s.free → (∀ z, spine s D z ≠ some f) → t.page f = s.page f
  kept : ∀ z f, spine s D z = some f → spine t D z = some f
  taken : ∀ z f, spine t D z = some f → spine s D z = some f ∨ f ∈ s.free

theorem Filled.refl (h : Owns k s D O) (v : ℕ) : Filled k D O x v 0 s s :=
  ⟨h, fun _ _ _ _ _ _ => rfl, fun _ _ _ h1 h2 => by omega, ⟨[], rfl⟩, fun _ _ _ => rfl,
    fun _ _ hz => hz, fun _ _ hz => Or.inl hz⟩

theorem Filled.userChange {m : ℕ} (h : Filled k D O x v m s t) (hv : v + m ≤ userPages) :
    UserChange k D O x (fun u => v ≤ u ∧ u < v + m) s t := by
  have hU := userPages_eq
  refine ⟨h.owns, ?_, ?_⟩
  · intro y e u hy hu hne
    refine h.ptes y e u hy hu ?_
    rintro ⟨rfl, -, h2⟩
    have := hne.resolve_left fun hne => hne rfl
    omega
  · intro e u hx hu hp
    by_cases hin : v ≤ u ∧ u < v + m
    · exact Or.inr hin
    · rw [h.ptes x e u hx (by omega) fun hcon => hin hcon.2] at hp
      exact Or.inl hp

theorem Filled.trans {m m' : ℕ} (h : Filled k D O x v m s t) (h' : Filled k D O x (v + m) m' t r)
    (hv : v + m ≤ userPages) : Filled k D O x v (m + m') s r := by
  have hU := userPages_eq
  obtain ⟨l, hl⟩ := h.free
  obtain ⟨l', hl'⟩ := h'.free
  have hsub : ∀ f, f ∈ t.free → f ∈ s.free := by
    intro f hf
    rw [hl]
    exact List.mem_append_right l hf
  refine ⟨h'.owns, ?_, ?_, ⟨l ++ l', by rw [hl, hl', List.append_assoc]⟩, ?_, ?_, ?_⟩
  · intro y e u hy hu hout
    rw [h'.ptes y e u hy hu fun hin => hout ⟨hin.1, by omega, by omega⟩,
      h.ptes y e u hy hu fun hin => hout ⟨hin.1, by omega, by omega⟩]
  · intro e u hx h1 h2
    by_cases hu : u < v + m
    · obtain ⟨f, hf, hpte, hpage⟩ := h.fresh e u hx h1 hu
      have hframe : frameOf (pteAt t e u) = some f := by
        rw [hpte, frameOf, if_pos entry_odd, entry_div (by decide)]
      have hheld : owned t D O (.user x u) = some f := by
        rw [owned_user hx (by omega)]
        exact hframe
      refine ⟨f, hf, ?_, ?_⟩
      · rw [h'.ptes x e u hx (by omega) (by omega)]
        exact hpte
      · rw [h'.pages f (h.owns.excl.apart _ f hheld)
          (h.owns.not_spine_of_user hx (by omega) hframe)]
        exact hpage
    · obtain ⟨f, hf, hpte, hpage⟩ := h'.fresh e u hx (by omega) (by omega)
      exact ⟨f, hsub f hf, hpte, hpage⟩
  · intro f hf hz
    have hz' : ∀ z, spine t D z ≠ some f := by
      intro z hzf
      rcases h.taken z f hzf with h1 | h1
      · exact hz z h1
      · exact hf h1
    rw [h'.pages f (fun hmem => hf (hsub f hmem)) hz', h.pages f hf hz]
  · exact fun z f hz => h'.kept z f (h.kept z f hz)
  · intro z f hz
    rcases h'.taken z f hz with h1 | h1
    · exact h.taken z f h1
    · exact Or.inr (hsub f h1)

theorem give_tail {rest : List ℕ} (hfree : s.free = f :: rest) :
    ({ s with free := rest } : Mem).give f = s := by
  rw [Mem.give, ← hfree]

theorem Owns.clearPage {rest : List ℕ} (h : Owns k s D O) (hfree : s.free = f :: rest) (p : Page) :
    Owns k ((({ s with free := rest } : Mem).setPage f p).give f) D O := by
  have hmem : f ∈ s.free := by rw [hfree]; exact List.mem_cons_self
  rw [← setPage_give, give_tail hfree]
  exact h.setPage (h.not_spine_of_free hmem) p

theorem Owns.spine_take {rest : List ℕ} (h : Owns k s D O) (hfree : s.free = f :: rest) (p : Page)
    (z : Spine ι) : spine (({ s with free := rest } : Mem).setPage f p) D z = spine s D z := by
  have hmem : f ∈ s.free := by rw [hfree]; exact List.mem_cons_self
  rw [spine_setPage, spine_free]
  intro z
  rw [spine_free]
  exact h.not_spine_of_free hmem z

theorem Owns.samePtes_take {rest : List ℕ} (h : Owns k s D O) (hfree : s.free = f :: rest)
    (p : Page) : SamePtes D s (({ s with free := rest } : Mem).setPage f p) := by
  intro y e u hy hu
  have hmem : f ∈ s.free := by rw [hfree]; exact List.mem_cons_self
  rw [samePtes_setPage (by intro z; rw [spine_free]; exact h.not_spine_of_free hmem z)
    p y e u hy hu,
    pteAt_free]

/-- A page taken off the free list, with any contents, has been mapped, or lost. -/
theorem Owns.mapTaken {rest : List ℕ} {m perm : ℕ} {p : Page} (h : Owns k s D O) (hx : D x = some d)
    (hv : v < userPages) (hm : m ≤ 1) (hperm : perm < PGSIZE) (hfree : s.free = f :: rest)
    (hmap : Mapped k D x v m (f * PGSIZE) perm (({ s with free := rest } : Mem).setPage f p) t) :
    Owns k t D O := by
  have hclear := h.clearPage hfree p
  by_cases hm1 : m = 1
  · subst hm1
    exact hclear.mapUser hx hv hperm hmap
  · refine hclear.of_give.grow hmap.grown ?_
    intro y e u hy hu
    rw [userPages_eq] at hu
    exact (hmap.ptes y e u hy (by omega)).2 (by omega)

theorem Owns.filled {rest : List ℕ} {m : ℕ} (h : Owns k s D O) (hx : D x = some d)
    (hv : v < userPages) (hm : m ≤ 1) (hfree : s.free = f :: rest)
    (hmap : Mapped k D x v m (f * PGSIZE) (PTE_W ||| PTE_U)
      (({ s with free := rest } : Mem).setPage f (fill 0)) t) : Filled k D O x v m s t := by
  have hmem : f ∈ s.free := by rw [hfree]; exact List.mem_cons_self
  have hspine := h.not_spine_of_free hmem
  have hrest : f ∉ rest := by
    have hnodup := h.excl.nodup
    rw [hfree] at hnodup
    exact (List.nodup_cons.mp hnodup).1
  have hspine' := h.spine_take hfree (fill 0)
  obtain ⟨l, hl, hsp, -⟩ := hmap.grown.taken
  have hl' : rest = l ++ t.free := hl
  refine ⟨h.mapTaken hx hv hm (by decide) hfree hmap, ?_, ?_, ⟨f :: l, by rw [hfree, hl']; rfl⟩,
    ?_, ?_, ?_⟩
  · intro y e u hy hu hout
    rw [(hmap.ptes y e u hy hu).2 hout, h.samePtes_take hfree (fill 0) y e u hy hu]
  · intro e u hx' h1 h2
    rw [userPages_eq] at hv
    have hpage : t.page f = fill 0 := by
      rw [hmap.grown.pages f hrest fun z => by rw [hspine']; exact hspine z]
      exact Function.update_self ..
    refine ⟨f, hmem, ?_, hpage⟩
    rw [(hmap.ptes x e u hx' (by omega)).1 rfl h1 h2]
    obtain rfl : u = v := by omega
    rw [Nat.sub_self, mapped_zero (h.pool f hmem).lt]
  · intro g hg hz
    have hgf : g ≠ f := fun heq => hg (heq ▸ hmem)
    rw [hmap.grown.pages g (fun hgr => hg (by rw [hfree]; exact List.mem_cons_of_mem f hgr))
      fun z => by rw [hspine']; exact hz z]
    exact Function.update_of_ne hgf ..
  · intro z g hz
    exact hmap.grown.kept z g (by rw [hspine']; exact hz)
  · intro z g hz
    rcases hsp z g hz with h1 | h1
    · rw [hspine'] at h1
      exact Or.inl h1
    · refine Or.inr ?_
      rw [hfree, hl']
      exact List.mem_cons_of_mem f (List.mem_append_left t.free h1)

theorem allocuvmFrom_empty {newsz fuel : ℕ} (hfree : s.free = [])
    (hfuel : pagesOf newsz < v + fuel) :
    wp (allocuvmFrom d newsz fuel (v * PGSIZE)) s
      (fun ok t => t = s ∧ (ok = true ↔ pagesOf newsz ≤ v)) (fun _ => False) := by
  cases fuel with
  | zero =>
    rw [allocuvmFrom, wp_pure]
    exact ⟨rfl, fun _ => by omega, fun _ => rfl⟩
  | succ fuel =>
    rw [allocuvmFrom]
    by_cases hlt : v * PGSIZE < newsz
    · have hv := lt_pagesOf.mpr hlt
      rw [if_pos hlt, wp_bind]
      refine wp_kalloc ?_ ?_
      · intro _
        rw [wp_pure]
        exact ⟨rfl, by simp, fun _ => by omega⟩
      · intro f rest hcons
        rw [hfree] at hcons
        simp at hcons
    · have hv : ¬ v < pagesOf newsz := fun hcon => hlt (lt_pagesOf.mp hcon)
      rw [if_neg hlt, wp_pure]
      exact ⟨rfl, fun _ => by omega, fun _ => rfl⟩

section dec'

variable [DecidableEq ι]

/-- A page taken off the free list is mapped, unless there is no page for its page table. -/
theorem Owns.mapTaken_spec {rest : List ℕ} (h : Owns k s D O) (hx : D x = some d) (v : ℕ)
    {perm : ℕ} (hv : v < userPages) (hperm : perm < PGSIZE) (hfree : s.free = f :: rest)
    (p : Page) :
    wp (mappages d (v * PGSIZE) PGSIZE (f * PGSIZE) perm)
      (({ s with free := rest } : Mem).setPage f p)
      (fun ok t => ∃ m ≤ 1,
        Mapped k D x v m (f * PGSIZE) perm (({ s with free := rest } : Mem).setPage f p) t ∧
        (ok = true → m = 1) ∧
        (ok = false → m = 0 ∧ t.free = [] ∧ tableAt t d (v / NPTENTRIES) = none))
      (fun msg => msg = "remap" ∧ pteAt s d v % 2 = 1) := by
  have hflt := (h.pool f (by rw [hfree]; exact List.mem_cons_self)).lt
  rw [userPages_eq] at hv
  have hmap := mappages_spec (n := 1) (v := v) (h.clearPage hfree p).of_give.tables hx
    (f * PGSIZE) perm one_pos (by omega) (by rw [PGSIZE_eq]; omega)
    (hperm.trans (by rw [PGSIZE_eq]; norm_num))
  rw [Nat.one_mul] at hmap
  refine wp_mono hmap ?_ ?_
  · rintro ok t ⟨m, hm, hmapped, htrue, hfalse⟩
    refine ⟨m, hm, hmapped, htrue, fun hok => ?_⟩
    obtain ⟨hlt, hnil, hmiss⟩ := hfalse hok
    obtain rfl : m = 0 := by omega
    exact ⟨rfl, hnil, hmiss⟩
  · rintro msg ⟨hmsg, u, h1, h2, h3⟩
    obtain rfl : u = v := by omega
    rw [h.samePtes_take hfree p x d u hx (by omega)] at h3
    exact ⟨hmsg, h3⟩

/-- `allocuvm` maps its pages one by one until memory runs out; it does not notice that the page
table for the last one is missing. -/
theorem allocuvmFrom_spec {newsz fuel : ℕ} (h : Owns k s D O) (hx : D x = some d)
    (hlt : newsz < KERNBASE) (hv : v ≤ pagesOf newsz) (hfuel : pagesOf newsz < v + fuel) :
    wp (allocuvmFrom d newsz fuel (v * PGSIZE)) s
      (fun ok t => ∃ m, v + m ≤ pagesOf newsz ∧ Filled k D O x v m s t ∧
        (v + m < pagesOf newsz → t.free = []) ∧
        (ok = true → pagesOf newsz = v + m ∨
          (pagesOf newsz = v + m + 1 ∧ tableAt t d ((v + m) / NPTENTRIES) = none)) ∧
        (ok = false → v + m < pagesOf newsz))
      (fun msg => msg = "remap" ∧ ∃ u, v ≤ u ∧ u < pagesOf newsz ∧ pteAt s d u % 2 = 1) := by
  have hU := userPages_eq
  have hpages : pagesOf newsz ≤ userPages := by
    rw [KERNBASE_eq] at hlt
    rw [pagesOf, PGSIZE_eq]
    omega
  induction fuel generalizing s v with
  | zero => omega
  | succ fuel ih =>
    rw [allocuvmFrom]
    by_cases hnext : v * PGSIZE < newsz
    · have hvp := lt_pagesOf.mpr hnext
      have hvnext : (v * PGSIZE + PGSIZE) % 2 ^ 32 = (v + 1) * PGSIZE := by
        rw [PGSIZE_eq]
        omega
      rw [if_pos hnext, hvnext, wp_bind]
      refine wp_kalloc ?_ ?_
      · intro hfree
        rw [wp_pure]
        exact ⟨0, by omega, Filled.refl h v, fun _ => hfree, by simp, fun _ => by omega⟩
      · intro f rest hfree
        dsimp only
        rw [wp_bind, wp_memset]
        have hmap := h.mapTaken_spec hx v (by omega) (show PTE_W ||| PTE_U < PGSIZE by decide)
          hfree (fill 0)
        refine wp_seq (wp_mono hmap (fun _ _ hq => hq) ?_) ?_
        · rintro msg ⟨rfl, hpresent⟩
          exact ⟨rfl, v, le_rfl, hvp, hpresent⟩
        · rintro ok t ⟨m, hm, hmapped, htrue, hfalse⟩
          have hfill := h.filled hx (by omega) hm hfree hmapped
          cases ok with
          | true =>
            obtain rfl := htrue rfl
            refine wp_mono (ih hfill.owns (by omega) (by omega)) ?_ ?_
            · rintro ok t' ⟨m', hm', hfill', hfree', htrue', hfalse'⟩
              refine ⟨1 + m', by omega, hfill.trans hfill' (by omega), ?_, ?_, ?_⟩
              · intro hlt'
                exact hfree' (by omega)
              · intro hok
                rw [← Nat.add_assoc]
                exact htrue' hok
              · intro hok
                have := hfalse' hok
                omega
            · rintro msg ⟨rfl, u, h1, h2, h3⟩
              refine ⟨rfl, u, by omega, h2, ?_⟩
              rw [hfill.ptes x d u hx (by omega) (by omega)] at h3
              exact h3
          | false =>
            obtain ⟨rfl, hnil, hmiss⟩ := hfalse rfl
            refine wp_mono (allocuvmFrom_empty (v := v + 1) hnil (by omega)) ?_
              (fun _ hf => hf.elim)
            rintro ok t' ⟨rfl, hok⟩
            refine ⟨0, by omega, hfill, fun _ => hnil, ?_, ?_⟩
            · intro hoktrue
              have hge := hok.mp hoktrue
              exact Or.inr ⟨by omega, hmiss⟩
            · intro _
              omega
    · have hvp : ¬ v < pagesOf newsz := fun hcon => hnext (lt_pagesOf.mp hcon)
      rw [if_neg hnext, wp_pure]
      exact ⟨0, by omega, Filled.refl h v, fun _ => by omega, fun _ => Or.inl (by omega), by simp⟩

inductive Alloc (k : Image) (D : ι → Option ℕ) (O : κ → Option ℕ) (x : ι) (oldsz newsz : ℕ)
    (s : Mem) : ℕ → Mem → Prop where
  | refused (h : KERNBASE ≤ newsz) : Alloc k D O x oldsz newsz s 0 s
  | smaller (hlt : newsz < KERNBASE) (h : newsz < oldsz) : Alloc k D O x oldsz newsz s oldsz s
  | grown {m : ℕ} {t : Mem} (hlt : newsz < KERNBASE) (hle : oldsz ≤ newsz)
      (hfill : Filled k D O x (pagesOf oldsz) m s t)
      (hm : pagesOf oldsz + m = pagesOf newsz ∨
        (pagesOf oldsz + m + 1 = pagesOf newsz ∧ t.free = [] ∧
          ∀ d, D x = some d → tableAt t d ((pagesOf oldsz + m) / NPTENTRIES) = none)) :
      Alloc k D O x oldsz newsz s newsz t
  | failed {m : ℕ} {r t : Mem} (hlt : newsz < KERNBASE) (hle : oldsz ≤ newsz)
      (hm : pagesOf oldsz + m < pagesOf newsz)
      (hfill : Filled k D O x (pagesOf oldsz) m s r) (hfree : r.free = [])
      (hclear : Cleared k D O x (pagesOf oldsz) newsz r t) : Alloc k D O x oldsz newsz s 0 t

theorem pagesOf_mono {a b : ℕ} (h : a ≤ b) : pagesOf a ≤ pagesOf b := by
  rw [pagesOf, pagesOf, PGSIZE_eq]
  omega

theorem pagesOf_le_userPages {sz : ℕ} (h : sz ≤ KERNBASE) : pagesOf sz ≤ userPages := by
  rw [KERNBASE_eq] at h
  rw [pagesOf, userPages_eq, PGSIZE_eq]
  omega

theorem allocuvm_spec [DecidableEq κ] {oldsz newsz : ℕ} (h : Owns k s D O) (hx : D x = some d) :
    wp (allocuvm k d oldsz newsz) s (fun n t => Alloc k D O x oldsz newsz s n t)
      (fun msg => msg = "remap" ∧ newsz < KERNBASE ∧
        ∃ u, pagesOf oldsz ≤ u ∧ u < pagesOf newsz ∧ pteAt s d u % 2 = 1) := by
  unfold allocuvm
  by_cases hge : newsz ≥ KERNBASE
  · rw [if_pos hge, wp_pure]
    exact .refused hge
  · have hlt : newsz < KERNBASE := by omega
    rw [if_neg hge]
    by_cases hsmall : newsz < oldsz
    · rw [if_pos hsmall, wp_pure]
      exact .smaller hlt hsmall
    · have hle : oldsz ≤ newsz := by omega
      have hmono := pagesOf_mono hle
      have hmax := pagesOf_le_userPages hlt.le
      rw [userPages_eq] at hmax
      rw [if_neg hsmall, PGROUNDUP_eq (by omega)]
      refine wp_seq (wp_mono (allocuvmFrom_spec h hx hlt hmono (by omega)) (fun _ _ hq => hq) ?_) ?_
      · rintro msg ⟨rfl, hpres⟩
        exact ⟨rfl, hlt, hpres⟩
      · rintro ok t ⟨m, -, hfill, hnil, htrue, hfalse⟩
        cases ok with
        | true =>
          rw [if_pos rfl, wp_pure]
          refine .grown hlt hle hfill ?_
          rcases htrue rfl with hall | ⟨hlast, hmiss⟩
          · exact Or.inl hall.symm
          · refine Or.inr ⟨hlast.symm, hnil (by omega), ?_⟩
            intro d' hd'
            rw [hx] at hd'
            obtain rfl := Option.some.inj hd'
            exact hmiss
        | false =>
          have hpart := hfalse rfl
          rw [if_neg (by simp)]
          refine wp_seq (wp_mono (deallocuvm_spec hfill.owns hx hlt.le) (fun _ _ hq => hq)
            fun _ hf => hf.elim) ?_
          rintro n r ⟨-, hclear⟩
          rw [wp_pure]
          exact .failed hlt hle hpart hfill (hnil hpart) hclear

omit [DecidableEq ι] in
theorem Alloc.userChange {oldsz newsz n : ℕ} (h : Owns k s D O)
    (ha : Alloc k D O x oldsz newsz s n t) :
    UserChange k D O x (fun u => newsz < KERNBASE ∧ pagesOf oldsz ≤ u ∧ u < pagesOf newsz) s t := by
  cases ha with
  | refused hge => exact UserChange.refl h
  | smaller hlt hsmall => exact UserChange.refl h
  | grown hlt hle hfill hm =>
    have hmax := pagesOf_le_userPages hlt.le
    exact (hfill.userChange (by omega)).mono fun u _ hu => ⟨hlt, hu.1, by omega⟩
  | failed hlt hle hm hfill hfree hclear =>
    have hmax := pagesOf_le_userPages hlt.le
    have hch := (hfill.userChange (by omega)).trans
      (hclear.userChange (R := fun _ => False) hlt.le)
    refine hch.mono ?_
    rintro u - (hu | hu)
    · exact ⟨hlt, hu.1, by omega⟩
    · exact hu.elim

end dec'

theorem frameOf_clearU (pte : ℕ) : frameOf (clearU pte) = frameOf pte := by
  unfold clearU
  split_ifs with hU
  · have hodd : (pte - PTE_U) % 2 = pte % 2 := by
      rw [PTE_U] at *
      omega
    have hdiv : (pte - PTE_U) / PGSIZE = pte / PGSIZE := by
      rw [PTE_U, PGSIZE_eq] at *
      omega
    rw [frameOf, frameOf, hodd, hdiv]
  · rfl

theorem clearU_odd {pte : ℕ} : clearU pte % 2 = pte % 2 := by
  unfold clearU
  split_ifs with hU
  · rw [PTE_U] at *
    omega
  · rfl

theorem clearU_le (pte : ℕ) : clearU pte ≤ pte := by
  unfold clearU
  split_ifs <;> omega

theorem clearpteu_spec [DecidableEq ι] [DecidableEq κ] {uva : ℕ} (h : Owns k s D O)
    (hx : D x = some d) (hv : v < 2 ^ 20) (huva : uva / PGSIZE = v) :
    wp (clearpteu d uva) s
      (fun _ t => Owns k t D O ∧ (∀ z, spine t D z = spine s D z) ∧ t.free = s.free ∧
        ∀ y e u, D y = some e → u < 2 ^ 20 →
          pteAt t e u = if y = x ∧ u = v then clearU (pteAt s e u) else pteAt s e u)
      (fun msg => msg = "clearpteu" ∧ tableAt s d (v / NPTENTRIES) = none) := by
  have hpdx : PDX uva = v / NPTENTRIES := by
    rw [← huva] at hv ⊢
    rw [PDX, PGSIZE_eq, NPTENTRIES] at *
    omega
  have hptx : PTX uva = v % NPTENTRIES := by
    rw [← huva, PTX, PGSIZE_eq, NPTENTRIES]
    omega
  have hp : v / NPTENTRIES < NPDENTRIES := by
    rw [NPDENTRIES_eq, NPTENTRIES]
    omega
  unfold clearpteu
  rw [wp_bind, walkpgdir_find, hpdx, hptx]
  cases ht : tableAt s d (v / NPTENTRIES) with
  | none =>
    rw [Option.map_none]
    dsimp only
    rw [wp_panic]
    exact ⟨rfl, rfl⟩
  | some g =>
    have hw : clearU (pteAt s d v) < 2 ^ 32 := by
      refine lt_of_le_of_lt (clearU_le _) ?_
      rw [pteAt_of_table ht]
      exact word_lt s g _
    rw [Option.map_some]
    dsimp only
    rw [wp_bind, wp_wordAt, wp_setWord, ← pteAt_of_table ht]
    refine ⟨h.setPte hx ht hv hw (frameOf_clearU _), ?_, rfl, ?_⟩
    · exact congrFun (h.tables.spine_setWord hx hp ht _ _)
    · intro y e u hy hu
      rw [h.tables.pteAt_setWord hx ht hv hw hy hu]
      by_cases hyu : y = x ∧ u = v
      · obtain ⟨rfl, rfl⟩ := hyu
        rw [hx, Option.some.injEq] at hy
        rw [if_pos ⟨rfl, rfl⟩, if_pos ⟨rfl, rfl⟩, hy]
      · rw [if_neg hyu, if_neg hyu]

end spaces

end Vm
end Xv6
