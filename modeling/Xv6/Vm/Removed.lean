import Xv6.Vm.Shortage

/-! What `deallocuvm` removes and `freevm` gives back, for any pattern of page tables and pages. -/
namespace Xv6
namespace Vm
open Prog

/-- The pages `l` have been put on the free list, each once. -/
def Returned (l : ℕ → Prop) (s t : Mem) : Prop :=
  ∃ fs, t.free = fs ++ s.free ∧ fs.Nodup ∧ ∀ f, f ∈ fs ↔ l f

/-- `deallocuvm` removes the pages from `PGROUNDUP(newsz)` to `oldsz` of `x` and nothing else, and
frees each of them once. -/
structure RemovesRange {ι : Type} (D : ι → Option ℕ) (x : ι) (d oldsz newsz : ℕ) (s t : Mem) :
    Prop where
  gone : ∀ u, PGROUNDUP newsz ≤ u * PGSIZE → u * PGSIZE < oldsz → pteAt t d u % 2 = 0
  freed : Returned (fun f => ∃ u, PGROUNDUP newsz ≤ u * PGSIZE ∧ u * PGSIZE < oldsz ∧
    frameOf (pteAt s d u) = some f) s t
  others : ∀ y e u, D y = some e → u < 2 ^ 20 →
    ¬(y = x ∧ PGROUNDUP newsz ≤ u * PGSIZE ∧ u * PGSIZE < oldsz) → pteAt t e u = pteAt s e u

def mapUserPages (pgdir : ℕ) : List (ℕ × ℕ) → VmM Bool
  | [] => return true
  | (v, perm) :: l => do
    match ← kalloc with
    | none => return false
    | some mem => do
      memset mem 0
      let ok ← mappages pgdir (v * PGSIZE) PGSIZE (mem * PGSIZE) perm
      if ok then mapUserPages pgdir l else return false

def buildSpace (k : Image) (l : List (ℕ × ℕ)) : VmM (Option ℕ) := do
  match ← setupkvm k with
  | none => return none
  | some pgdir => do
    let ok ← mapUserPages pgdir l
    return if ok then some pgdir else none

section removed

variable {ι κ : Type} {k : Image} {s t : Mem} {D : ι → Option ℕ} {O : κ → Option ℕ} {x : ι}
  {d f oldsz newsz : ℕ} {R : ℕ → Prop}

theorem Pushed.returned {l : ℕ → Prop} (h : Pushed s t) (hnodup : t.free.Nodup)
    (hl : ∀ f, l f ↔ f ∈ t.free ∧ f ∉ s.free) : Returned l s t := by
  obtain ⟨fs, hfs⟩ := h
  rw [hfs] at hnodup
  obtain ⟨h1, -, hdisj⟩ := List.nodup_append'.mp hnodup
  refine ⟨fs, hfs, h1, fun f => ?_⟩
  rw [hl f, hfs, List.mem_append]
  constructor
  · exact fun hf => ⟨Or.inl hf, hdisj hf⟩
  · rintro ⟨hf, hne⟩
    exact hf.resolve_right hne

theorem Owns.user_inj (h : Owns k s D O) (hx : D x = some d) {u v : ℕ} (hu : u < userPages)
    (hv : v < userPages) (hf : frameOf (pteAt s d u) = some f)
    (hf' : frameOf (pteAt s d v) = some f) :
    u = v := by
  have hsame := h.excl.inj (.user x u) (.user x v) f (by rw [owned_user hx hu, hf])
    (by rw [owned_user hx hv, hf'])
  cases hsame
  rfl

theorem Freed.pushes (h : Owns k s D O) (hfr : Freed k D O x d R s t) (hx : D x = some d)
    (hR : ∀ u, R u → u < userPages) (f : ℕ) :
    (∃ u, R u ∧ frameOf (pteAt s d u) = some f) ↔ f ∈ t.free ∧ f ∉ s.free := by
  have hU := userPages_eq
  constructor
  · rintro ⟨u, hu, hf⟩
    have hsf : f ∉ s.free := h.excl.apart (.user x u) f (by rw [owned_user hx (hR u hu), hf])
    refine ⟨?_, hsf⟩
    rcases (hfr.conserves f).mpr (Or.inr (Or.inr ⟨u, hR u hu, hf⟩)) with
      hc | ⟨i, hi, hc⟩ | ⟨v, hv, hc⟩
    · exact hc
    · rw [tableAt_of_spine hfr.spine hx hi] at hc
      exact absurd (by rw [spine_table hx hi, hc])
        (h.not_spine_of_user hx (hR u hu) hf (.table x i))
    · by_cases hRv : R v
      · rw [frameOf_even (hfr.gone v (by omega) hRv)] at hc
        cases hc
      · rw [hfr.others x d v hx (by omega) fun hcon => hRv hcon.2] at hc
        exact absurd (h.user_inj hx hv (hR u hu) hc hf ▸ hu) hRv
  · rintro ⟨hf, hsf⟩
    rcases (hfr.conserves f).mp (Or.inl hf) with hc | ⟨i, hi, hc⟩ | ⟨u, hu, hc⟩
    · exact absurd hc hsf
    · have hspine : Vm.spine t D (.table x i) = some f := by
        rw [hfr.spine, spine_table hx hi, hc]
      exact absurd hspine (hfr.owns.not_spine_of_free hf (.table x i))
    · by_cases hRu : R u
      · exact ⟨u, hRu, hc⟩
      · rw [← hfr.others x d u hx (by omega) fun hcon => hRu hcon.2] at hc
        exact absurd hf (hfr.owns.excl.apart (.user x u) f (by rw [owned_user hx hu, hc]))

variable [DecidableEq ι] [DecidableEq κ]

/-- `deallocuvm` removes the range exactly if and only if the loop does not jump over a page that is
there. -/
theorem deallocuvm_removes_range_iff (h : Owns k s D O) (hx : D x = some d) (hlt : newsz < oldsz)
    (hle : oldsz ≤ KERNBASE) :
    wp (deallocuvm k d oldsz newsz) s (fun _ t => RemovesRange D x d oldsz newsz s t)
        (fun _ => False) ↔
      ∀ u, pagesOf newsz ≤ u → u < pagesOf oldsz → JumpedOver s d (pagesOf newsz) u →
        pteAt s d u % 2 = 0 := by
  have hU := userPages_eq
  have hmax := pagesOf_le_userPages hle
  have hspec := deallocuvm_visits h hx hle hlt
  have hrange : ∀ u, PGROUNDUP newsz ≤ u * PGSIZE ∧ u * PGSIZE < oldsz ↔
      pagesOf newsz ≤ u ∧ u < pagesOf oldsz := by
    intro u
    rw [PGROUNDUP_eq (by omega), lt_pagesOf, Nat.mul_le_mul_right_iff (by decide)]
  constructor
  · intro hall u h1 h2 hjump
    by_contra hodd
    refine wp_absurd hall (wp_post hspec ?_)
    rintro n t ⟨-, hfr, -⟩ hrem
    obtain ⟨h3, h4⟩ := (hrange u).mpr ⟨h1, h2⟩
    have hgone := hrem.gone u h3 h4
    rw [hfr.others x d u hx (by omega) fun hc => hc.2.2.2 hjump] at hgone
    exact hodd hgone
  · intro hnone
    refine wp_post hspec ?_
    rintro n t ⟨-, hfr, hpush⟩
    have hall : Freed k D O x d (fun u => pagesOf newsz ≤ u ∧ u < pagesOf oldsz) s t := by
      have habs := (Freed.of_absent (R := fun u => pagesOf newsz ≤ u ∧ u < pagesOf oldsz ∧
        JumpedOver s d (pagesOf newsz) u) h fun u _ hu => hnone u hu.1 hu.2.1 hu.2.2).trans hfr hx
      refine habs.congr fun u _ => ?_
      rw [← and_assoc, ← and_assoc, ← and_or_left, and_iff_left (em _)]
    refine ⟨fun u h3 h4 => ?_, ?_, fun y e u hy hu hne => ?_⟩
    · have hin := (hrange u).mp ⟨h3, h4⟩
      exact hall.gone u (by omega) hin
    · refine hpush.returned hall.owns.excl.nodup fun f => ?_
      rw [← hall.pushes h hx (fun u hu => by omega) f]
      refine exists_congr fun u => ?_
      rw [← and_assoc, hrange u]
    · exact hall.others y e u hy hu fun hc => hne ⟨hc.1, (hrange u).mpr hc.2⟩

/-- `freevm` puts on the free list the directory, its page tables and the user pages that it maps,
each once. -/
theorem freevm_returns (h : Owns k s D O) (hx : D x = some d) :
    wp (freevm k d) s (fun _ t => Returned (fun f => f = d ∨ HeldBy s d f) s t)
      (fun _ => False) := by
  refine wp_post (freevm_account h hx) ?_
  rintro _ t ⟨howns, -, hmem, hpush⟩
  refine hpush.returned howns.excl.nodup fun f => ?_
  have hout : f = d ∨ HeldBy s d f → f ∉ s.free := by
    rintro (rfl | ⟨i, hi, hc⟩ | ⟨u, hu, hc⟩)
    · exact h.excl.apart (.spine (.dir x)) f hx
    · exact h.excl.apart (.spine (.table x i)) f (by rw [← hc]; exact spine_table hx hi)
    · exact h.excl.apart (.user x u) f (by rw [owned_user hx hu, hc])
  rw [hmem f]
  constructor
  · exact fun hf => ⟨Or.inr hf, hout hf⟩
  · rintro ⟨hf, hne⟩
    exact hf.resolve_left hne

omit [DecidableEq κ] in
theorem mapUserPages_spec {l : List (ℕ × ℕ)} (h : Owns k s D O) (hx : D x = some d)
    (hl : ∀ q ∈ l, q.1 < userPages ∧ q.2 < PGSIZE ∧ pteAt s d q.1 % 2 = 0)
    (hnodup : (l.map Prod.fst).Nodup) :
    wp (mapUserPages d l) s
      (fun ok t => Owns k t D O ∧ (ok = false → s.free.length < 2 * l.length) ∧
        (ok = true → ∀ q ∈ l, pteAt t d q.1 % 2 = 1) ∧
        ∀ u < 2 ^ 20, u ∉ l.map Prod.fst → pteAt t d u = pteAt s d u) (fun _ => False) := by
  have hU := userPages_eq
  induction l generalizing s with
  | nil =>
    rw [mapUserPages, wp_pure]
    exact ⟨h, nofun, fun _ q hq => absurd hq List.not_mem_nil, fun _ _ _ => rfl⟩
  | cons q l ih =>
    obtain ⟨v, perm⟩ := q
    obtain ⟨hv, hperm, habsent⟩ := hl (v, perm) List.mem_cons_self
    dsimp only at hv hperm habsent
    rw [List.map_cons, List.nodup_cons] at hnodup
    rw [mapUserPages, wp_bind]
    refine wp_kalloc (fun hfree => ?_) fun f rest hfree => ?_
    · rw [wp_pure]
      exact ⟨h, fun _ => by simp [hfree], nofun, fun _ _ _ => rfl⟩
    · dsimp only
      rw [wp_bind, wp_memset]
      have hmap := h.mapTaken_spec hx v hv hperm hfree (fill 0)
      refine wp_seq (wp_mono hmap (fun _ _ hq => hq) fun _ hq => ?_) ?_
      · have := hq.2
        omega
      · rintro ok t ⟨m, hm, hmapped, htrue, hfalse⟩
        have hsup := h.supplied hx hv hm hperm hfree habsent hmapped
        have hsame : ∀ u < 2 ^ 20, u ≠ v → pteAt t d u = pteAt s d u :=
          fun u hu hne => hsup.ptes x d u hx hu (by omega)
        have hlen : s.free.length = rest.length + 1 := by rw [hfree, List.length_cons]
        cases ok with
        | false =>
          rw [if_neg (by simp), wp_pure]
          refine ⟨hsup.owns, fun _ => ?_, nofun, fun u hu hne => hsame u hu ?_⟩
          · obtain ⟨rfl, hnil, -⟩ := hfalse rfl
            have hrest : rest.length = 0 := by
              rw [← List.length_eq_zero_iff.mpr (hmapped.free_eq.symm.trans hnil)]
              rfl
            rw [List.length_cons]
            omega
          rw [List.map_cons, List.mem_cons, not_or] at hne
          exact hne.1
        | true =>
          obtain rfl := htrue rfl
          rw [if_pos rfl]
          refine wp_post (ih hsup.owns (fun q hq => ?_) hnodup.2) ?_
          · obtain ⟨h1, h2, h3⟩ := hl q (List.mem_cons_of_mem _ hq)
            have hqv : q.1 ≠ v := fun hc => hnodup.1 (List.mem_map.mpr ⟨q, hq, hc⟩)
            exact ⟨h1, h2, by rw [hsame q.1 (by omega) hqv]; exact h3⟩
          · rintro ok r ⟨howns, hshort, hall, hother⟩
            refine ⟨howns, fun hok => ?_, fun hok q hq => ?_, fun u hu hne => ?_⟩
            · have hused := hmapped.free_length hx (by omega)
                (h.clearPage hfree (fill 0)).of_give.tables
              have hless := hshort hok
              rw [show (({ s with free := rest } : Mem).setPage f (fill 0)).free = rest from rfl]
                at hused
              rw [List.length_cons]
              split_ifs at hused <;> omega
            · rcases List.mem_cons.mp hq with rfl | hq
              · rw [hother v (by omega) hnodup.1]
                exact hsup.mapped v le_rfl (by omega)
              · exact hall hok q hq
            · rw [List.map_cons, List.mem_cons, not_or] at hne
              rw [hother u hu hne.2, hsame u hu hne.1]

/-- A directory with any user pages can be made if there is memory for it, and `freevm` returns it,
its page tables and the user pages, each once, and of what the kernel half maps only what is one of
these. -/
theorem freevm_returns_built {l : List (ℕ × ℕ)} (h : Owns k s D O) (hx : D x = none)
    (hl : ∀ q ∈ l, q.1 < userPages ∧ q.2 < PGSIZE) (hnodup : (l.map Prod.fst).Nodup) :
    wp (buildSpace k l) s
      (fun r t => (r = none → s.free.length < 65 + 2 * l.length) ∧ ∀ d, r = some d →
        (∀ u < 2 ^ 20, pteAt t d u % 2 = 1 ↔ u ∈ l.map Prod.fst ∨ kernelPte k u % 2 = 1) ∧
          wp (freevm k d) t (fun _ t' => Returned (fun f => f = d ∨ HeldBy t d f) t t')
            (fun _ => False)) (fun _ => False) := by
  have hU := userPages_eq
  unfold buildSpace
  refine wp_seq (setupkvm_spec h hx) ?_
  rintro r t ⟨-, hnone, hsome⟩
  cases r with
  | none =>
    dsimp only
    rw [wp_pure]
    have hless := (hnone rfl).2.2
    exact ⟨fun _ => by omega, nofun⟩
  | some d =>
    obtain ⟨hset, hlen⟩ := hsome d rfl
    have hself : Function.update D x (some d) x = some d := Function.update_self ..
    have hzero : ∀ u < userPages, pteAt t d u = 0 := by
      intro u hu
      rw [hset.ptes u (by omega), kernelPte_user hu]
    dsimp only
    refine wp_seq (mapUserPages_spec hset.owns hself (fun q hq => ?_) hnodup) ?_
    · rw [hzero q.1 (hl q hq).1]
      exact ⟨(hl q hq).1, (hl q hq).2, rfl⟩
    · rintro ok t' ⟨howns, hshort, hall, hother⟩
      rw [wp_pure]
      cases ok with
      | false =>
        have hless := hshort rfl
        exact ⟨fun _ => by omega, nofun⟩
      | true =>
        refine ⟨nofun, fun e he => ?_⟩
        cases he
        refine ⟨fun u hu => ?_, freevm_returns howns hself⟩
        by_cases hmem : u ∈ l.map Prod.fst
        · obtain ⟨q, hq, rfl⟩ := List.mem_map.mp hmem
          exact iff_of_true (hall rfl q hq) (Or.inl hmem)
        · rw [or_iff_right hmem, hother u hu hmem, hset.ptes u hu]

end removed

theorem exists_onePage {ι κ : Type} [DecidableEq ι] {D : ι → Option ℕ} {O : κ → Option ℕ} {x : ι}
    (hx : D x = some 1024) (hD : ∀ y e, D y = some e → y = x ∧ e = 1024) (hO : ∀ y, O y = none)
    (rest : List ℕ) (hrest : rest ≠ []) (hfree : (1024 :: 1025 :: rest).Nodup)
    (hpool : ∀ f ∈ 1024 :: 1025 :: rest, Spaces.sampleImage.Pool f) {v : ℕ} (hv : v < userPages) :
    ∃ t, Owns Spaces.sampleImage t D O ∧ pteAt t 1024 v % 2 = 1 ∧
      (∀ u < 2 ^ 20, u ≠ v → pteAt t 1024 u = 0) ∧
      (∀ i < NPDENTRIES, i ≠ v / NPTENTRIES → tableAt t 1024 i = none) ∧
      rest.length = t.free.length + 1 := by
  have hU := userPages_eq
  have howns : Owns Spaces.sampleImage (blank (1025 :: rest)) D O := owns_blank hD hO hfree hpool
  have htables := (howns.clearPage rfl (fill 0)).of_give.tables
  have hmap := howns.mapTaken_spec hx v hv (show PTE_W ||| PTE_U < PGSIZE by decide) rfl (fill 0)
  obtain ⟨ok, t, m, hm, hmapped, htrue, hfalse⟩ := exists_of_wp (wp_mono hmap (fun _ _ hq => hq) (by
    rintro msg ⟨-, hpresent⟩
    rw [pteAt_fill rfl] at hpresent
    cases hpresent))
  cases ok with
  | false =>
    obtain ⟨rfl, hnil, -⟩ := hfalse rfl
    exact absurd (hmapped.free_eq.symm.trans hnil) hrest
  | true =>
    obtain rfl := htrue rfl
    have hsup := howns.supplied hx hv le_rfl (by decide) rfl (by rw [pteAt_fill rfl]) hmapped
    have hp : v / NPTENTRIES < NPDENTRIES := by
      rw [NPDENTRIES_eq, NPTENTRIES]
      omega
    have hlen := hmapped.free_length hx (by omega) htables
    rw [tableAt_take howns hx rfl hp, tableAt_fill rfl, if_pos rfl] at hlen
    refine ⟨t, hsup.owns, hsup.mapped v le_rfl (by omega), fun u hu hne => ?_,
      fun i hi hne => ?_, hlen⟩
    · rw [hsup.ptes x 1024 u hx hu (by omega), pteAt_fill rfl]
    · rw [hmapped.tableAt_of_ne hx hi fun u h1 h2 => by rw [show u = v by omega]; exact hne.symm,
        tableAt_take howns hx rfl hi, tableAt_fill rfl]

/-- The first page of a process is removed. -/
theorem deallocuvm_removes_range_first : ∃ t, pteAt t 1024 0 % 2 = 1 ∧
    wp (deallocuvm Spaces.sampleImage 1024 4096 0) t
      (fun _ r => RemovesRange (fun _ : Unit => some 1024) () 1024 4096 0 t r)
      (fun _ => False) := by
  obtain ⟨t, howns, hodd, -, -⟩ := exists_onePage (D := fun _ : Unit => some 1024)
    (O := fun _ : Unit => none) (x := ()) rfl (fun _ _ he => ⟨rfl, (Option.some.inj he).symm⟩)
    (fun _ => rfl) [1026] (by decide) (by decide) (by decide) (v := 0) (by decide)
  refine ⟨t, hodd, (deallocuvm_removes_range_iff howns rfl (by decide) (by decide)).mpr ?_⟩
  intro u _ _ hjump
  exact absurd hjump.2.1 (Nat.not_lt_zero _)

/-- From the second page of an absent page table the loop jumps over the first page of the next. -/
theorem deallocuvm_jumps_over : ∃ t,
    Owns Spaces.sampleImage t (fun _ : Unit => some 1024) (fun _ : Unit => none) ∧
      ¬wp (deallocuvm Spaces.sampleImage 1024 (1025 * 4096) 4096) t
        (fun _ r => RemovesRange (fun _ : Unit => some 1024) () 1024 (1025 * 4096) 4096 t r)
        (fun _ => False) := by
  obtain ⟨t, howns, hodd, -, htab, -⟩ := exists_onePage (D := fun _ : Unit => some 1024)
    (O := fun _ : Unit => none) (x := ()) rfl (fun _ _ he => ⟨rfl, (Option.some.inj he).symm⟩)
    (fun _ => rfl) [1026] (by decide) (by decide) (by decide) (v := 1024) (by decide)
  refine ⟨t, howns, fun hall => ?_⟩
  have hspec := deallocuvm_visits (x := ()) howns rfl (show 1025 * 4096 ≤ KERNBASE by decide)
    (show 4096 < 1025 * 4096 by decide)
  refine wp_absurd hall (wp_post hspec ?_)
  rintro n r ⟨-, hfr, -⟩ hrem
  have hjump : JumpedOver t 1024 (pagesOf 4096) 1024 := by
    refine ⟨by decide, by decide, fun i _ hi => htab i ?_ ?_⟩
    · exact hi.trans (by decide)
    · exact hi.ne
  have hgone := hrem.gone 1024 (by decide) (by decide)
  rw [hfr.others () 1024 1024 rfl (by decide) fun hc => hc.2.2.2 hjump, hodd] at hgone
  cases hgone

/-- A directory with two user pages far apart is made, and freed again. -/
theorem freevm_returns_built_two : ∃ d t,
    buildSpace Spaces.sampleImage [(0, PTE_U), (2048, PTE_W)] (blank (List.range' 1025 80)) =
        .ok (some d) t ∧
      (∀ u < 2 ^ 20, pteAt t d u % 2 = 1 ↔
        u ∈ [0, 2048] ∨ kernelPte Spaces.sampleImage u % 2 = 1) ∧
      wp (freevm Spaces.sampleImage d) t
        (fun _ t' => Returned (fun f => f = d ∨ HeldBy t d f) t t') (fun _ => False) := by
  have howns : Owns Spaces.sampleImage (blank (List.range' 1025 80)) (fun _ : Unit => none)
      (fun _ : Unit => none) :=
    owns_blank (x := ()) (d := 1024) (fun _ _ he => by cases he) (fun _ => rfl) (by decide)
      (by decide)
  obtain ⟨r, t, hrun, hnone, hsome⟩ := wp_total (freevm_returns_built
    (l := [(0, PTE_U), (2048, PTE_W)]) (x := ()) howns rfl (by decide) (by decide))
  cases r with
  | none => exact absurd (hnone rfl) (by decide)
  | some d => exact ⟨d, t, hrun, hsome d rfl⟩

end Vm
end Xv6
