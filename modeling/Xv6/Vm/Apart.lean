import Xv6.Vm.Copyout

/-! What is done to one address space does not show in the others. -/
namespace Xv6
namespace Vm
open Prog

/-- The address spaces other than that of `x` are as before, with what is on their pages. -/
structure SameUser {ι : Type} (D : ι → Option ℕ) (x : ι) (s t : Mem) : Prop where
  ptes : ∀ y e u, y ≠ x → D y = some e → u < 2 ^ 20 → pteAt t e u = pteAt s e u
  tables : ∀ y e i g, y ≠ x → D y = some e → i < NPDENTRIES → tableAt s e i = some g →
    tableAt t e i = some g
  pages : ∀ y e u f, y ≠ x → D y = some e → u < userPages → frameOf (pteAt s e u) = some f →
    t.page f = s.page f

/-- Only the address space of `x` has changed, and not its kernel half. -/
structure Inside {ι κ : Type} (k : Image) (D : ι → Option ℕ) (O : κ → Option ℕ) (x : ι) (d : ℕ)
    (s t : Mem) : Prop where
  same : SameUser D x s t
  held : Held k D O x d t

section apart

variable {ι κ : Type} {k : Image} {s t r : Mem} {D : ι → Option ℕ} {O : κ → Option ℕ} {x y : ι}
  {d e f u v : ℕ}

theorem SameUser.refl (D : ι → Option ℕ) (x : ι) (s : Mem) : SameUser D x s s :=
  ⟨fun _ _ _ _ _ _ => rfl, fun _ _ _ _ _ _ _ h => h, fun _ _ _ _ _ _ _ _ => rfl⟩

theorem SameUser.trans (h : SameUser D x s t) (h' : SameUser D x t r) : SameUser D x s r := by
  have hU := userPages_eq
  refine ⟨fun y e u hy he hu => (h'.ptes y e u hy he hu).trans (h.ptes y e u hy he hu),
    fun y e i g hy he hi hg => h'.tables y e i g hy he hi (h.tables y e i g hy he hi hg), ?_⟩
  intro y e u f hy he hu hf
  have hf' : frameOf (pteAt t e u) = some f := by rw [h.ptes y e u hy he (by omega), hf]
  exact (h'.pages y e u f hy he hu hf').trans (h.pages y e u f hy he hu hf)

theorem Inside.refl (h : Held k D O x d s) : Inside k D O x d s s := ⟨.refl D x s, h⟩

theorem Inside.trans (h : Inside k D O x d s t) (h' : Inside k D O x d t r) :
    Inside k D O x d s r :=
  ⟨h.same.trans h'.same, h'.held⟩

theorem SameUser.heldBy (h : SameUser D x s t) (hy : D y = some d) (hyx : y ≠ x)
    (hf : HeldBy s d f) : HeldBy t d f := by
  have hU := userPages_eq
  rcases hf with ⟨i, hi, hf⟩ | ⟨u, hu, hf⟩
  · exact Or.inl ⟨i, hi, h.tables y d i f hyx hy hi hf⟩
  · exact Or.inr ⟨u, hu, by rw [h.ptes y d u hyx hy (by omega), hf]⟩

theorem Owns.sameUser_setPage (h : Owns k s D O) (hx : D x = some d) (hv : v < userPages)
    (hf : frameOf (pteAt s d v) = some f) (p : Page) : SameUser D x s (s.setPage f p) := by
  have hspine := h.not_spine_of_user hx hv hf
  refine ⟨fun y e u _ he hu => samePtes_setPage hspine p y e u he hu,
    fun y e i g _ he hi hg => ?_, ?_⟩
  · rw [← spine_table he hi, spine_setPage hspine, spine_table he hi, hg]
  intro y e u g hy he hu hg
  refine page_setPage_of_ne ?_ p
  rintro rfl
  have hplace := h.excl.inj (.user y u) (.user x v) g (by rw [owned_user he hu, hg])
    (by rw [owned_user hx hv, hf])
  exact hy (Place.user.inj hplace).1

theorem Owns.sameUser_take {rest : List ℕ} {m pa perm : ℕ} {p : Page} (h : Owns k s D O)
    (hfree : s.free = f :: rest)
    (hmap : Mapped k D x v m pa perm (({ s with free := rest } : Mem).setPage f p) t) :
    SameUser D x s t := by
  have hptes : ∀ y e u, y ≠ x → D y = some e → u < 2 ^ 20 → pteAt t e u = pteAt s e u := by
    intro y e u hy he hu
    rw [(hmap.ptes y e u he hu).2 fun hc => hy hc.1, h.samePtes_take hfree p y e u he hu]
  refine ⟨hptes, fun y e i g _ he hi hg => ?_, ?_⟩
  · rw [← spine_table he hi]
    refine hmap.grown.kept _ g ?_
    rw [h.spine_take hfree p, spine_table he hi, hg]
  intro y e u g _ he hu hg
  have hout : g ∉ s.free := h.excl.apart (.user y u) g (by rw [owned_user he hu, hg])
  rw [hfree, List.mem_cons, not_or] at hout
  rw [hmap.grown.pages g hout.2, page_setPage_of_ne hout.1]
  intro z hz
  rw [h.spine_take hfree p z] at hz
  exact h.not_spine_of_user he hu hg z hz

theorem Freed.sameUser {R : ℕ → Prop} (h : Owns k s D O) (hfr : Freed k D O x d R s t) :
    SameUser D x s t := by
  have hU := userPages_eq
  have hptes : ∀ y e u, y ≠ x → D y = some e → u < 2 ^ 20 → pteAt t e u = pteAt s e u :=
    fun y e u hy he hu => hfr.others y e u he hu fun hc => hy hc.1
  refine ⟨hptes, fun y e i g _ he hi hg => ?_, ?_⟩
  · rw [tableAt_of_spine hfr.spine he hi, hg]
  intro y e u g hy he hu hg
  refine hfr.pages g (hfr.owns.excl.apart (.user y u) g ?_) (h.not_spine_of_user he hu hg)
  rw [owned_user he hu, hptes y e u hy he (by omega), hg]

variable [DecidableEq ι] [DecidableEq κ]

omit [DecidableEq κ] in
theorem Untouched.sameUser (hun : Untouched D s t) (h : Owns k s D O) (d : ℕ) :
    SameUser (Function.update D x (some d)) x s t := by
  have hdir : ∀ y e, y ≠ x → Function.update D x (some d) y = some e → D y = some e :=
    fun y e hy he => by rwa [Function.update_of_ne hy] at he
  refine ⟨fun y e u hy he hu => hun.ptes y e u (hdir y e hy he) hu, fun y e i g hy he hi hg =>
    hun.tables y e i g (hdir y e hy he) hi hg, fun y e u f hy he hu hf => hun.pages f ?_ ?_⟩
  · exact h.excl.apart (.user y u) f (by rw [owned_user (hdir y e hy he) hu, hf])
  · exact h.not_spine_of_user (hdir y e hy he) hu hf

omit [DecidableEq κ] in
theorem allocuvmFrom_sameUser {newsz fuel : ℕ} (h : Owns k s D O) (hx : D x = some d)
    (hlt : newsz < KERNBASE) :
    wp (allocuvmFrom d newsz fuel (v * PGSIZE)) s (fun _ t => SameUser D x s t ∧ Owns k t D O)
      (fun _ => True) := by
  have hK := KERNBASE_eq
  have hU := userPages_eq
  induction fuel generalizing s v with
  | zero =>
    rw [allocuvmFrom, wp_pure]
    exact ⟨.refl D x s, h⟩
  | succ fuel ih =>
    rw [allocuvmFrom]
    by_cases hnext : v * PGSIZE < newsz
    · have hv : v < userPages := by
        rw [PGSIZE_eq] at hnext
        omega
      have hvnext : (v * PGSIZE + PGSIZE) % 2 ^ 32 = (v + 1) * PGSIZE := by
        rw [PGSIZE_eq] at *
        omega
      rw [if_pos hnext, hvnext, wp_bind]
      refine wp_kalloc ?_ ?_
      · intro _
        rw [wp_pure]
        exact ⟨.refl D x s, h⟩
      · intro f rest hfree
        dsimp only
        rw [wp_bind, wp_memset]
        have hmap := h.mapTaken_spec hx v hv (show PTE_W ||| PTE_U < PGSIZE by decide) hfree
          (fill 0)
        refine wp_seq (wp_mono hmap (fun _ _ hq => hq) fun _ _ => trivial) ?_
        rintro _ t ⟨m, hm, hmapped, -⟩
        have hsame := h.sameUser_take hfree hmapped
        refine wp_post (ih (h.mapTaken hx hv hm (by decide) hfree hmapped)) ?_
        exact fun _ r hr => ⟨hsame.trans hr.1, hr.2⟩
    · rw [if_neg hnext, wp_pure]
      exact ⟨.refl D x s, h⟩

theorem deallocuvm_sameUser {oldsz newsz : ℕ} (h : Owns k s D O) (hx : D x = some d)
    (hle : oldsz ≤ KERNBASE) :
    wp (deallocuvm k d oldsz newsz) s (fun _ t => SameUser D x s t ∧ Owns k t D O)
      (fun _ => True) := by
  by_cases hlt : newsz < oldsz
  · refine wp_mono (deallocuvm_visits h hx hle hlt) ?_ fun _ _ => trivial
    rintro _ t ⟨-, hfr, -⟩
    exact ⟨hfr.sameUser h, hfr.owns⟩
  · rw [deallocuvm, if_pos (by omega), wp_pure]
    exact ⟨.refl D x s, h⟩

theorem Held.allocuvm {oldsz newsz : ℕ} (h : Held k D O x d s) :
    wp (allocuvm k d oldsz newsz) s (fun _ t => Inside k D O x d s t)
      (fun _ => True) := by
  have hsame : wp (Vm.allocuvm k d oldsz newsz) s (fun _ t => SameUser D x s t)
      (fun _ => True) := by
    unfold Vm.allocuvm
    by_cases hge : newsz ≥ KERNBASE
    · rw [if_pos hge, wp_pure]
      exact .refl D x s
    · rw [if_neg hge]
      by_cases hsmall : newsz < oldsz
      · rw [if_pos hsmall, wp_pure]
        exact .refl D x s
      · rw [if_neg hsmall, PGROUNDUP_eq (by omega)]
        refine wp_seq (allocuvmFrom_sameUser h.owns h.dir (by omega)) ?_
        rintro ok t ⟨h1, howns⟩
        split
        · rw [wp_pure]
          exact h1
        · refine wp_seq (deallocuvm_sameUser howns h.dir (by omega)) ?_
          rintro _ r ⟨h2, -⟩
          rw [wp_pure]
          exact h1.trans h2
  refine wp_post (wp_and hsame (allocuvm_spec h.owns h.dir)) ?_
  rintro n t ⟨h1, halloc⟩
  have hch := halloc.userChange h.owns
  exact ⟨h1, h.dir, hch.owns, fun u h2 h3 => by
    rw [hch.ptes x d u h.dir h3 (Or.inr h2), h.kernel u h2 h3]⟩

theorem clearU_kernel (k : Image) (u : ℕ) : clearU (kernelPte k u) = kernelPte k u :=
  if_neg (by rw [kernelPte_closed]; simp)

theorem Held.clearpteu {uva : ℕ} (h : Held k D O x d s) (huva : uva < 2 ^ 32) :
    wp (clearpteu d uva) s (fun _ t => Inside k D O x d s t) (fun _ => True) := by
  have hv : uva / PGSIZE < 2 ^ 20 := by
    rw [PGSIZE_eq]
    omega
  have hpages : wp (Vm.clearpteu d uva) s
      (fun _ t => ∀ f, (∀ z, spine s D z ≠ some f) → t.page f = s.page f) (fun _ => True) := by
    unfold Vm.clearpteu
    rw [wp_bind, walkpgdir_find]
    cases ht : tableAt s d (PDX uva) with
    | none =>
      rw [Option.map_none]
      dsimp only
      rw [wp_panic]
      trivial
    | some g =>
      rw [Option.map_some]
      dsimp only
      rw [wp_bind, wp_wordAt, wp_setWord]
      intro f hf
      refine page_setWord_of_ne ?_ _ _
      rintro rfl
      have hp : PDX uva < NPDENTRIES := by
        rw [PDX, NPDENTRIES_eq]
        omega
      exact hf (.table x (PDX uva)) (by rw [spine_table h.dir hp, ht])
  refine wp_post (wp_and hpages (clearpteu_spec h.owns h.dir hv rfl)) ?_
  rintro _ t ⟨h1, howns, hspine, -, hptes⟩
  refine ⟨⟨fun y e u hy he hu => ?_, fun y e i g _ he hi hg => ?_, fun y e u f _ he hu hf => ?_⟩,
    h.dir,
    howns, fun u h2 h3 => ?_⟩
  · rw [hptes y e u he hu, if_neg fun hc => hy hc.1]
  · rw [tableAt_of_spine (funext hspine) he hi, hg]
  · exact h1 f (h.owns.not_spine_of_user he hu hf)
  · rw [hptes x d u h.dir h3, h.kernel u h2 h3]
    split
    · exact clearU_kernel k u
    · rfl

theorem freevm_apart (h : Owns k s D O) (hx : D x = some d) :
    wp (freevm k d) s (fun _ t => SameUser D x s t ∧ Owns k t (Function.update D x none) O ∧
      ∀ f, f ∈ t.free ↔ f ∈ s.free ∨ f = d ∨ HeldBy s d f) (fun _ => False) := by
  have hU := userPages_eq
  have hsame : wp (freevm k d) s (fun _ t => ∃ r, SameUser D x s r ∧ Dropped r t)
      (fun _ => True) := by
    rw [freevm_eq]
    refine wp_seq (deallocuvm_sameUser h hx le_rfl) ?_
    rintro _ r ⟨h1, -⟩
    exact wp_post (freeTables_dropped k d r) fun _ t ht => ⟨r, h1, ht⟩
  refine wp_post (wp_and (freevm_account h hx) hsame) ?_
  rintro _ t ⟨⟨howns, hptes, hfree, -⟩, r, hr, hdrop⟩
  have hdir : ∀ y e, y ≠ x → D y = some e → Function.update D x none y = some e :=
    fun y e hy he => by rw [Function.update_of_ne hy, he]
  refine ⟨⟨fun y e u hy he hu => hptes y e u (hdir y e hy he) hu,
    fun y e i g hy he hi hg => ?_, ?_⟩,
    howns, hfree⟩
  · rw [← hr.tables y e i g hy he hi hg]
    have hout : e ∉ t.free := howns.excl.apart (.spine (.dir y)) e (hdir y e hy he)
    exact tableAt_congr (by rw [Mem.word, hdrop.2 e hout, Mem.word])
  intro y e u f hy he hu hf
  rw [← hr.pages y e u f hy he hu hf]
  refine hdrop.2 f (howns.excl.apart (.user y u) f ?_)
  rw [owned_user (hdir y e hy he) hu, hptes y e u (hdir y e hy he) (by omega), hf]

omit [DecidableEq ι] [DecidableEq κ] in
theorem Charted.poke {c : ℕ → ℕ} {N : ℕ → Prop} {bytes : List UInt8} {va : ℕ}
    (h : Charted k D O x d c N t) (hva : va < 2 ^ 32)
    (hP : ∀ i < bytes.length, UserPte (c (pageOf va i))) :
    SameUser D x t (poke c va bytes t) ∧ Charted k D O x d c N (poke c va bytes t) := by
  have hU := userPages_eq
  induction bytes generalizing t va with
  | nil => exact ⟨.refl D x t, h⟩
  | cons b bytes ih =>
    have hu : va / PGSIZE < 2 ^ 20 := by
      rw [PGSIZE_eq]
      omega
    have huser : UserPte (c (va / PGSIZE)) := by
      have hfirst := hP 0 (Nat.succ_pos _)
      rwa [pageOf, Nat.add_zero, Nat.mod_eq_of_lt hva] at hfirst
    have hlow := h.user_lt hu huser
    have hnext : va + 1 < 2 ^ 32 := by
      rw [PGSIZE_eq] at hlow
      omega
    have hframe : frameOf (pteAt t d (va / PGSIZE)) = some (c (va / PGSIZE) / PGSIZE) := by
      rw [h.ptes _ hu]
      exact if_pos huser.1
    have hrest : ∀ i < bytes.length, UserPte (c (pageOf (va + 1) i)) := by
      intro i hi
      rw [pageOf_add, Nat.add_comm 1]
      exact hP (i + 1) (Nat.succ_lt_succ hi)
    rw [Vm.poke]
    obtain ⟨h1, h2⟩ := ih (h.setPage hu huser
      ((t.page (c (va / PGSIZE) / PGSIZE)).write (va % PGSIZE) [b])) hnext hrest
    exact ⟨(h.owns.sameUser_setPage h.dir hlow hframe _).trans h1, h2⟩

omit [DecidableEq ι] [DecidableEq κ] in
theorem Held.copyout {va : ℕ} {bytes : List UInt8} (h : Held k D O x d t) (hva : va < 2 ^ 32) :
    wp (copyout k d va bytes) t (fun _ r => Inside k D O x d t r) (fun _ => True) := by
  refine wp_mono (copyout_copies h.charted hva bytes) ?_ fun _ _ => trivial
  rintro ok r ⟨hc, hch, -⟩
  obtain ⟨m, hm, hP, -, -, rfl⟩ := hc.stored
  refine ⟨(h.charted.poke hva fun i hi => hP i ?_).1, hch.toHeld⟩
  rw [List.length_take] at hi
  omega

omit [DecidableEq ι] [DecidableEq κ] in
theorem Held.pushStrings {argv : List (List UInt8)} {argc sp : ℕ} {ps : List ℕ}
    (h : Held k D O x d t) :
    wp (pushStrings k d argv argc sp ps) t (fun _ r => Inside k D O x d t r) (fun _ => True) := by
  induction argv generalizing t argc sp ps with
  | nil =>
    rw [Vm.pushStrings, wp_pure]
    exact .refl h
  | cons a as ih =>
    rw [Vm.pushStrings]
    split
    · rw [wp_pure]
      exact .refl h
    · refine wp_seq (h.copyout (by omega)) ?_
      intro ok r hr
      split
      · exact wp_post (ih hr.held) fun _ _ hq => hr.trans hq
      · rw [wp_pure]
        exact hr

omit [DecidableEq ι] [DecidableEq κ] in
theorem Held.pushArgs {sz : ℕ} {argv : List (List UInt8)} (h : Held k D O x d t) :
    wp (pushArgs k d sz argv) t (fun _ r => Inside k D O x d t r) (fun _ => True) := by
  unfold Vm.pushArgs
  refine wp_seq h.pushStrings ?_
  intro r t1 h1
  cases r with
  | none =>
    dsimp only
    rw [wp_pure]
    exact h1
  | some p =>
    obtain ⟨sp, ps⟩ := p
    have hlt : (sp + 2 ^ 32 - (3 + ps.length + 1) * 4) % 2 ^ 32 < 2 ^ 32 :=
      Nat.mod_lt _ (Nat.two_pow_pos 32)
    dsimp only
    refine wp_seq (h1.held.copyout hlt) ?_
    intro ok t2 h2
    rw [wp_pure]
    exact h1.trans h2

theorem Held.makeStack {sz : ℕ} {argv : List (List UInt8)} (h : Held k D O x d t) :
    wp (makeStack k d sz argv) t (fun _ r => Inside k D O x d t r) (fun _ => True) := by
  unfold Vm.makeStack
  refine wp_seq h.allocuvm ?_
  intro sz' t1 h1
  split
  · rw [wp_pure]
    exact h1
  · have hlt : (sz' + 2 ^ 32 - 2 * PGSIZE) % 2 ^ 32 < 2 ^ 32 := Nat.mod_lt _ (Nat.two_pow_pos 32)
    refine wp_seq (h1.held.clearpteu hlt) ?_
    intro _ t2 h2
    refine wp_seq h2.held.pushArgs ?_
    intro r t3 h3
    cases r with
    | none =>
      dsimp only
      rw [wp_pure]
      exact (h1.trans h2).trans h3
    | some sp =>
      dsimp only
      rw [wp_pure]
      exact (h1.trans h2).trans h3

variable {file : ProgFile} {log : List Store}

omit [DecidableEq ι] [DecidableEq κ] in
theorem Held.loadPages {sz fuel i : ℕ} {ph : ProgHeader} (h : Held k D O x d t) :
    wp (loadPages k file d sz ph fuel i) (t, log)
      (fun _ t' => Inside k D O x d t t'.1 ∨ Strayed t'.2) (fun _ => True) := by
  induction fuel generalizing t i log with
  | zero =>
    rw [Vm.loadPages, wp_pure]
    exact Or.inl (.refl h)
  | succ fuel ih =>
    rw [Vm.loadPages]
    split
    · obtain ⟨va, hva⟩ : ∃ va, va = (ph.vaddr + i) % 2 ^ 32 := ⟨_, rfl⟩
      have hpdx : PDX va = va / PGSIZE / NPTENTRIES := by
        rw [PDX, PGSIZE_eq, NPTENTRIES]
        omega
      have hptx : PTX va = va / PGSIZE % NPTENTRIES := by
        rw [PTX, PGSIZE_eq, NPTENTRIES]
        omega
      rw [← hva, wp_bind, wp_beside, walkpgdir_find, hpdx, hptx]
      cases ht : tableAt t d (va / PGSIZE / NPTENTRIES) with
      | none =>
        rw [Option.map_none]
        dsimp only
        unfold ExecM.panic
        rw [wp_beside, wp_panic]
        trivial
      | some g =>
        rw [Option.map_some]
        dsimp only
        rw [wp_bind, wp_beside, wp_wordAt, ← pteAt_of_table ht]
        split
        · rw [wp_pure]
          exact Or.inl (.refl h)
        · rename_i bytes _
          rw [wp_bind, record, wp_modify]
          dsimp only
          by_cases hgood : (⟨va, bytes.length, pteAt t d (va / PGSIZE), sz⟩ : Store).Good
          · have hstore : wp (Vm.storeBytes k (pteAt t d (va / PGSIZE) / PGSIZE) 0 bytes) t
                (fun _ r => Inside k D O x d t r) (fun _ => True) := by
              by_cases hnil : bytes = []
              · rw [Vm.storeBytes, if_pos hnil, wp_pure]
                exact .refl h
              · have hpos := List.length_pos_iff.mpr hnil
                obtain hzero | ⟨h1, h2, h3, h4⟩ := hgood
                · dsimp only at hzero
                  omega
                · dsimp only at h1 h2 h3 h4
                  have hu : va / PGSIZE < 2 ^ 20 := by
                    rw [PGSIZE_eq]
                    omega
                  have hchart := h.charted
                  have huser : UserPte (pteAt t d (va / PGSIZE)) := ⟨h3, h4⟩
                  have hpool := h.owns.held _ _ (hchart.owned_user hu huser)
                  rw [Vm.storeBytes, if_neg hnil, if_pos hpool.not_text, wp_modify]
                  exact ⟨h.owns.sameUser_setPage h.dir (hchart.user_lt hu huser) (if_pos h3) _,
                    (hchart.setPage hu huser _).toHeld⟩
            rw [wp_bind, wp_beside]
            refine wp_post hstore ?_
            intro _ r hr
            split
            · refine wp_post (ih hr.held) ?_
              exact fun _ t' ht' => ht'.imp hr.trans id
            · rw [wp_pure]
              exact Or.inl hr
          · refine wp_mono (Grows.strayed
              (s := (t, ⟨va, bytes.length, pteAt t d (va / PGSIZE), sz⟩ ::
              log)) ?_ ⟨_, List.mem_cons_self, hgood⟩) (fun _ _ hs => Or.inr hs) fun _ _ => trivial
            refine .bind (.beside _) fun _ => ?_
            split_ifs
            · exact .loadPages k file d sz ph _ _
            · exact .pure _
    · rw [wp_pure]
      exact Or.inl (.refl h)

theorem Held.loadSegments {c off sz : ℕ} (h : Held k D O x d t) :
    wp (loadSegments k file d c off sz) (t, log)
      (fun _ t' => Inside k D O x d t t'.1 ∨ Strayed t'.2) (fun _ => True) := by
  induction c generalizing t off sz log with
  | zero =>
    rw [Vm.loadSegments, wp_pure]
    exact Or.inl (.refl h)
  | succ c ih =>
    rw [loadSegments_succ]
    cases file.header off with
    | none =>
      dsimp only
      rw [wp_pure]
      exact Or.inl (.refl h)
    | some ph =>
      dsimp only
      split_ifs
      · exact ih h
      · rw [wp_pure]
        exact Or.inl (.refl h)
      · rw [wp_bind, wp_beside]
        refine wp_post h.allocuvm ?_
        intro sz' t1 h1
        split_ifs
        · rw [wp_pure]
          exact Or.inl h1
        · have hload : wp (loaduvm k file d sz' ph) (t1, log)
              (fun _ t' => Inside k D O x d t1 t'.1 ∨ Strayed t'.2) (fun _ => True) := by
            unfold loaduvm
            split_ifs
            · unfold ExecM.panic
              rw [wp_beside, wp_panic]
              trivial
            · exact h1.held.loadPages
          refine wp_seq hload ?_
          rintro ok ⟨t2, log2⟩ (h2 | hs)
          · split_ifs
            · refine wp_post (ih h2.held) ?_
              exact fun _ t' ht' => ht'.imp (h1.trans h2).trans id
            · rw [wp_pure]
              exact Or.inl (h1.trans h2)
          · refine wp_mono (Grows.strayed (s := (t2, log2)) ?_ hs) (fun _ _ hs => Or.inr hs)
              fun _ _ => trivial
            split_ifs
            · exact .loadSegments k file d c _ _
            · exact .pure _

end apart

end Vm
end Xv6
