import Xv6.Vm.Shortage

/-! What is left when memory runs out in `copyuvm`. -/
namespace Xv6
namespace Vm
open Prog

/-- The calls of `kalloc` for `n` user pages of a new directory. -/
def userRequests (n : ℕ) : List Request :=
  (List.range n).flatMap fun u => if u % NPTENTRIES = 0 then [.page, .table] else [.page]

/-- The calls of `kalloc` by `copyuvm`: the directory, the page tables of the kernel half, and the
user pages. -/
def copyRequests (n : ℕ) : List Request := .page :: List.replicate 64 .table ++ userRequests n

/-- How many of the `n` pages from `v` on are there, up to the first that is not. -/
def leading (s : Mem) (d v : ℕ) : ℕ → ℕ
  | 0 => 0
  | n + 1 => if pteAt s d v % 2 = 1 then leading s d (v + 1) n + 1 else 0

section copied

variable {ι κ : Type} {k : Image} {s t r : Mem} {D : ι → Option ℕ} {O : κ → Option ℕ} {x y : ι}
  {d e f g m n v : ℕ} {lost : Option ℕ} {rest : List ℕ}

theorem leading_spec (s : Mem) (d v n : ℕ) :
    leading s d v n ≤ n ∧ (∀ u, v ≤ u → u < v + leading s d v n → pteAt s d u % 2 = 1) ∧
      (leading s d v n < n → pteAt s d (v + leading s d v n) % 2 = 0) := by
  induction n generalizing v with
  | zero => exact ⟨le_rfl, fun u h1 h2 => absurd h2 (by rw [leading]; omega), fun hc => by omega⟩
  | succ n ih =>
    obtain ⟨hle, hodd, heven⟩ := ih (v + 1)
    rw [leading]
    by_cases hv : pteAt s d v % 2 = 1
    · rw [if_pos hv]
      refine ⟨by omega, fun u h1 h2 => ?_, fun hlt => ?_⟩
      · by_cases huv : u = v
        · rw [huv]
          exact hv
        · exact hodd u (by omega) (by omega)
      · rw [show v + (leading s d (v + 1) n + 1) = v + 1 + leading s d (v + 1) n by omega]
        exact heven (by omega)
    · rw [if_neg hv]
      exact ⟨by omega, fun u h1 h2 => by omega, fun _ => by rw [Nat.add_zero]; omega⟩

theorem requests_new (hnone : ∀ i < 512, tableAt s d i = none) (hn : n ≤ userPages) :
    requests s d 0 n = userRequests n := by
  have hU := userPages_eq
  have hN : NPTENTRIES = 1024 := rfl
  rw [requests, userRequests, List.range_eq_range']
  refine List.flatMap_congr fun u hu => ?_
  rw [List.mem_range'_1] at hu
  have hiff : (tableAt s d (u / NPTENTRIES) = none ∧ (u = 0 ∨ u % NPTENTRIES = 0)) ↔
      u % NPTENTRIES = 0 := by
    rw [and_iff_right (hnone _ (by rw [hN]; omega))]
    exact or_iff_right_of_imp fun hz => by rw [hz, Nat.zero_mod]
  simp only [hiff]

variable [DecidableEq ι]

theorem setupkvm_account (h : Owns k s D O) (x : ι) :
    wp (setupkvm k) s
      (fun r t => ∀ e, r = some e → ∀ g, g ∈ s.free ↔ g ∈ t.free ∨ g = e ∨ HeldBy t e g)
      (fun _ => False) := by
  have hU := userPages_eq
  unfold setupkvm
  rw [wp_bind]
  refine wp_kalloc ?_ ?_
  · intro _
    rw [wp_pure]
    exact nofun
  · intro f rest hfree
    dsimp only
    have hclear := h.clearPage hfree (fill 0)
    obtain ⟨r, hr⟩ : ∃ r, r = ({ s with free := rest } : Mem).setPage f (fill 0) := ⟨_, rfl⟩
    rw [wp_bind, wp_memset, if_neg (by decide), ← hr]
    rw [← hr] at hclear
    have hzero : r.page f = fill 0 := by
      rw [hr]
      exact Function.update_self ..
    have hself : Function.update D x (some f) x = some f := Function.update_self ..
    refine wp_seq
      (mapAll_spec (hclear.setDir hzero x) hself (kmap_ranges k).2 (kmap_disjoint k) ?_) ?_
    · intro m _ u _
      rw [pteAt_fill hzero]
    · intro ok t hall
      rw [wp_pure]
      intro e he g
      obtain rfl : f = e := by
        cases ok with
        | false => cases he
        | true => exact Option.some.inj he
      obtain ⟨l, hl, hsp, hnew⟩ := hall.grown.taken
      have hrest : rest = l ++ t.free := by
        rw [← hl, hr]
        rfl
      rw [hfree, hrest, List.mem_cons, List.mem_append]
      constructor
      · rintro (hg | hg | hg)
        · exact Or.inr (Or.inl hg)
        · obtain ⟨i, -, hi, hz⟩ := hnew g hg
          rw [spine_table hself hi] at hz
          exact Or.inr (Or.inr (Or.inl ⟨i, hi, hz⟩))
        · exact Or.inl hg
      · rintro (hg | hg | ⟨i, hi, hg⟩ | ⟨u, hu, hg⟩)
        · exact Or.inr (Or.inr hg)
        · exact Or.inl hg
        · rcases hsp (.table x i) g (by rw [spine_table hself hi]; exact hg) with hz | hz
          · rw [spine_table hself hi, tableAt_fill hzero] at hz
            cases hz
          · exact Or.inr (Or.inl hz)
        · have hpte : pteAt t f u = 0 := by
            rw [hall.ptes x f u hself (by omega) (Or.inr fun m hm hc => ?_), pteAt_fill hzero]
            have := ((kmap_ranges k).2 m hm).upper
            have := hc.1
            omega
          rw [hpte] at hg
          cases hg

/-- The loop of `copyuvm`, for a parent of which the pages from `v` to `v + n` are there, and no
other one if it has more. -/
theorem copyuvmFrom_supplied {pgdir sz fuel : ℕ} (h : Owns k s D O) (hx : D x = some d)
    (hy : D y = some pgdir) (hyx : y ≠ x) (hsz : sz ≤ KERNBASE) (hn : v + n ≤ pagesOf sz)
    (hfuel : pagesOf sz < v + fuel) (habsent : ∀ u, v ≤ u → u < pagesOf sz → pteAt s d u % 2 = 0)
    (hpresent : ∀ u, v ≤ u → u < v + n → pteAt s pgdir u % 2 = 1)
    (hend : v + n < pagesOf sz → pteAt s pgdir (v + n) % 2 = 0) :
    wp (copyuvmFrom pgdir d sz fuel (v * PGSIZE)) s
      (fun ok t => ∃ m lost, Supplied k D O x d v m lost s t ∧
        Ended (requests s d v n) s.free.length n m lost t ∧
        (ok = true ↔ (requests s d v n)[s.free.length]? = none))
      (fun _ => (requests s d v n)[s.free.length]? = none) := by
  have hU := userPages_eq
  have hmax := pagesOf_le_userPages hsz
  induction fuel generalizing s v n with
  | zero => omega
  | succ fuel ih =>
    rw [copyuvmFrom]
    by_cases hlt : v * PGSIZE < sz
    · have hvp := lt_pagesOf.mpr hlt
      have hnext : (v * PGSIZE + PGSIZE) % 2 ^ 32 = (v + 1) * PGSIZE := by
        rw [PGSIZE_eq]
        omega
      rw [if_pos hlt, hnext, wp_bind, walkpgdir_find, PDX_page (by omega), PTX_page]
      cases n with
      | zero =>
        have hgone := hend (by omega)
        rw [Nat.add_zero] at hgone
        cases ht : tableAt s pgdir (v / NPTENTRIES) with
        | none =>
          rw [Option.map_none]
          dsimp only
          rw [wp_panic]
          rfl
        | some g =>
          rw [Option.map_some]
          dsimp only
          rw [wp_bind, wp_wordAt, ← pteAt_of_table ht, if_pos hgone, wp_panic]
          rfl
      | succ n =>
        have hthere := hpresent v le_rfl (by omega)
        cases ht : tableAt s pgdir (v / NPTENTRIES) with
        | none =>
          simp only [pteAt, ht] at hthere
          cases hthere
        | some g =>
          rw [Option.map_some]
          dsimp only
          rw [wp_bind, wp_wordAt, ← pteAt_of_table ht, if_neg (by omega), wp_bind]
          refine wp_kalloc ?_ ?_
          · intro hfree
            have hempty := Ended.empty hfree d v n
            dsimp only
            rw [wp_pure]
            refine ⟨0, none, Supplied.refl h v, hempty, (by rintro ⟨⟩), fun hnone => ?_⟩
            rw [Ended, hnone] at hempty
            exact absurd hempty.1 (by omega)
          · intro f rest hfree
            have hperm : pteAt s pgdir v % PGSIZE < PGSIZE := Nat.mod_lt _ (by decide)
            have hold := habsent v le_rfl (by omega)
            dsimp only
            rw [wp_bind, wp_modify]
            have hmap := h.mapTaken_spec hx v (by omega) hperm hfree
              (s.page (pteAt s pgdir v / PGSIZE))
            refine wp_seq (wp_mono hmap (fun _ _ hq => hq) fun _ hq => ?_) ?_
            · have := hq.2
              omega
            · rintro ok t ⟨m, hm, hmapped, htrue, hfalse⟩
              have hsup := h.supplied hx (by omega) hm hperm hfree hold hmapped
              cases ok with
              | true =>
                obtain rfl := htrue rfl
                rw [if_pos rfl]
                have hget : (requests s d v (n + 1))[s.free.length]? =
                    (requests t d (v + 1) n)[t.free.length]? := by
                  obtain ⟨rs, hrs, hlen⟩ := hmapped.requests_eq (n := n) h hx (by omega) hfree
                  rw [hrs, hlen, List.getElem?_append_right (Nat.le_add_right _ _),
                    Nat.add_sub_cancel_left]
                have hparent : ∀ u < 2 ^ 20, pteAt t pgdir u = pteAt s pgdir u :=
                  fun u hu => hsup.ptes y pgdir u hy hu fun hc => hyx hc.1
                rw [hget]
                refine wp_post
                  (ih (v := v + 1) (n := n) hsup.owns (by omega) (by omega) ?_ ?_ ?_) ?_
                · intro u h1 h2
                  rw [hsup.ptes x d u hx (by omega) (by omega)]
                  exact habsent u (by omega) h2
                · intro u h1 h2
                  rw [hparent u (by omega)]
                  exact hpresent u (by omega) (by omega)
                · intro hlt'
                  rw [hparent _ (by omega), Nat.add_assoc, Nat.add_comm 1 n]
                  exact hend (by omega)
                · rintro ok r ⟨m', lost, hsup', hend', hok⟩
                  obtain ⟨h1, h2⟩ := Supplied.step h hx (by omega) hperm hfree hold hmapped
                    hsup' hend'
                  exact ⟨m' + 1, lost, h1, h2, hok⟩
              | false =>
                obtain ⟨rfl, hnil, hmiss⟩ := hfalse rfl
                obtain ⟨h1, h2⟩ := Supplied.noTable h hx (by omega) hperm hfree hold hmapped
                  hnil hmiss n
                rw [if_neg (by simp), wp_pure]
                refine ⟨0, some f, h1, h2, (by rintro ⟨⟩), fun hnone => ?_⟩
                rw [Ended, hnone] at h2
                exact absurd h2.1 (by omega)
    · have hvp : ¬ v < pagesOf sz := fun hc => hlt (lt_pagesOf.mp hc)
      obtain rfl : n = 0 := by omega
      rw [if_neg hlt, wp_pure]
      exact ⟨0, none, Supplied.refl h v, Ended.zero s d v _, fun _ => rfl, fun _ => rfl⟩

omit [DecidableEq ι] in
theorem leading_congr (h : ∀ u, v ≤ u → u < v + n → pteAt t d u = pteAt s d u) :
    leading t d v n = leading s d v n := by
  induction n generalizing v with
  | zero => rfl
  | succ n ih =>
    rw [leading, leading, h v le_rfl (by omega), ih fun u h1 h2 => h u (by omega) (by omega)]

theorem copyRequests_get (n i : ℕ) :
    (copyRequests n)[0]? = some .page ∧ (i < 64 → (copyRequests n)[i + 1]? = some .table) ∧
      (copyRequests n)[i + 65]? = (userRequests n)[i]? := by
  refine ⟨rfl, fun hi => ?_, ?_⟩
  · change (List.replicate 64 .table ++ userRequests n)[i]? = some .table
    rw [List.getElem?_append_left (by simpa using hi), List.getElem?_replicate_of_lt hi]
  · change (List.replicate 64 .table ++ userRequests n)[i + 64]? = _
    rw [List.getElem?_append_right (by simp)]
    simp

inductive CopyFails (rs : List Request) (s t : Mem) : Prop where
  | page (hrs : rs[s.free.length]? = some .page) (hall : ∀ g, g ∈ t.free ↔ g ∈ s.free)
  | table (hrs : rs[s.free.length]? = some .table) (hlost : ∃ g ∈ s.free, g ∉ t.free)

/-- `copyuvm` returns a directory if memory suffices, and gives everything back if it runs out at a
page; at a page table something is lost. -/
theorem copyuvm_ends [DecidableEq κ] {pgdir sz : ℕ} (h : Owns k s D O) (hx : D x = none)
    (hy : D y = some pgdir) (hsz : sz ≤ KERNBASE) (hn : n = leading s pgdir 0 (pagesOf sz)) :
    wp (copyuvm k pgdir sz) s
      (fun r t => (r = none → CopyFails (copyRequests n) s t) ∧
        (r ≠ none → (copyRequests n)[s.free.length]? = none))
      (fun _ => (copyRequests n)[s.free.length]? = none) := by
  have hU := userPages_eq
  have hmax := pagesOf_le_userPages hsz
  have hyx : y ≠ x := by
    rintro rfl
    rw [hx] at hy
    cases hy
  unfold copyuvm
  refine wp_seq (wp_mono (wp_and (setupkvm_spec h hx) (setupkvm_account h x)) (fun _ _ hq => hq)
    fun _ hf => hf.elim) ?_
  rintro r t ⟨⟨hsame, hnone, hsome⟩, hacc⟩
  cases r with
  | none =>
    obtain ⟨-, hnil, hlen⟩ := hnone rfl
    dsimp only
    rw [wp_pure]
    refine ⟨fun _ => ?_, fun hc => absurd rfl hc⟩
    cases hfree : s.free with
    | nil => exact .page (by rw [hfree]; rfl) fun g => by rw [hnil, hfree]
    | cons f rest =>
      rw [hfree, List.length_cons] at hlen
      refine .table ?_ ⟨f, by rw [hfree]; exact List.mem_cons_self,
        by rw [hnil]; exact List.not_mem_nil⟩
      rw [hfree]
      exact (copyRequests_get n rest.length).2.1 (by omega)
  | some e =>
    obtain ⟨hset, hlen⟩ := hsome e rfl
    have hself : Function.update D x (some e) x = some e := Function.update_self ..
    have hpar : Function.update D x (some e) y = some pgdir := by
      rw [Function.update_of_ne hyx, hy]
    obtain ⟨hle, hodd, heven⟩ := leading_spec s pgdir 0 (pagesOf sz)
    rw [← hn, Nat.zero_add] at heven hodd
    rw [← hn] at hle
    have hparent : ∀ u < 2 ^ 20, pteAt t pgdir u = pteAt s pgdir u :=
      fun u hu => hsame.ptes y pgdir u hy hu
    have hnew : ∀ u < userPages, pteAt t e u = 0 := by
      intro u hu
      rw [hset.ptes u (by omega), kernelPte_user hu]
    have hrs : requests t e 0 n = userRequests n := by
      refine requests_new (fun i hi => ?_) (by omega)
      by_contra hc
      have := (hset.tables i (by rw [NPDENTRIES_eq]; omega)).mp hc
      rw [kernelTables, Finset.mem_union, Finset.mem_Ico, Finset.mem_Ico] at this
      omega
    have hget : (copyRequests n)[s.free.length]? = (requests t e 0 n)[t.free.length]? := by
      rw [hlen, hrs]
      exact (copyRequests_get n _).2.2
    have hloop := copyuvmFrom_supplied (v := 0) (n := n) hset.owns hself hpar hyx hsz
      (by omega) (show pagesOf sz < 0 + 2 ^ 20 by omega) (fun u _ hu => by rw [hnew u (by omega)])
      (fun u h1 h2 => by rw [hparent u (by omega)]; exact hodd u h1 (by omega))
      (fun hlt => by rw [Nat.zero_add, hparent n (by omega)]; exact heven (by omega))
    rw [Nat.zero_mul] at hloop
    dsimp only
    rw [hget]
    refine wp_seq hloop ?_
    rintro ok u ⟨m, lost, hsup, hend, hok⟩
    cases ok with
    | true =>
      rw [if_pos rfl, wp_pure]
      exact ⟨(by rintro ⟨⟩), fun _ => hok.mp rfl⟩
    | false =>
      rw [if_neg (by simp)]
      refine wp_seq (wp_mono (freevm_account hsup.owns hself) (fun _ _ hq => hq)
        fun _ hf => hf.elim) ?_
      · rintro _ r ⟨-, -, hmem, -⟩
        rw [wp_pure]
        refine ⟨fun _ => ?_, fun hc => absurd rfl hc⟩
        have hkey : ∀ g, (g ∈ r.free ∨ lost = some g) ↔ g ∈ s.free := by
          intro g
          rw [hmem g, or_left_comm, or_assoc, or_assoc, hsup.account g, or_left_comm,
            ← hacc e rfl g]
        rw [Ended] at hend
        split at hend
        case h_1 hnone => exact absurd (hok.mpr hnone) (by simp)
        case h_2 hpage =>
          obtain ⟨-, rfl, -⟩ := hend
          refine .page (hget.trans hpage) fun g => ?_
          rw [← hkey g]
          exact (or_iff_left (by rintro ⟨⟩)).symm
        case h_3 htable =>
          obtain ⟨g, rfl⟩ := Option.ne_none_iff_exists'.mp hend.2.1
          refine .table (hget.trans htable) ⟨g, (hkey g).mp (Or.inr rfl), ?_⟩
          obtain ⟨-, hgive⟩ := hsup.away g rfl
          have hne : g ≠ e := by
            rintro rfl
            exact hgive.excl.apart (.spine (.dir x)) g hself List.mem_cons_self
          rw [hmem g, or_left_comm]
          exact fun hc => hc.elim hne (hgive.not_heldBy hself)

end copied

end Vm
end Xv6
