import Xv6.Vm.Copied
import Xv6.Vm.Removed

/-! The copy of an address space that `copyuvm` makes: equal to its parent, and independent of it.
-/
namespace Xv6
namespace Vm
open Prog

def contentsAt (s : Mem) (d u : ℕ) : Option Page := (frameOf (pteAt s d u)).map s.page

/-- A byte stored by a process with the directory `d`. Where the page is not there, not the user's
or write protected, the store faults and changes nothing. -/
def userStore (d : ℕ) (s : Mem) (w : ℕ × UInt8) : Mem :=
  if pteAt s d (w.1 / PGSIZE) % 2 = 1 ∧ pteAt s d (w.1 / PGSIZE) / PTE_W % 2 = 1 ∧
      pteAt s d (w.1 / PGSIZE) / PTE_U % 2 = 1 then
    s.setPage (pteAt s d (w.1 / PGSIZE) / PGSIZE)
      ((s.page (pteAt s d (w.1 / PGSIZE) / PGSIZE)).write (w.1 % PGSIZE) [w.2])
  else s

/-- `e` in `t` is an equal copy of the first `n` pages of `d` in `s`, on pages of its own. -/
structure Twin (k : Image) (d e n : ℕ) (s t : Mem) : Prop where
  flags : ∀ u < n, pteAt t e u % PGSIZE = pteAt s d u % PGSIZE
  contents : ∀ u < n, contentsAt t e u = contentsAt s d u
  above : ∀ u, n ≤ u → u < userPages → pteAt t e u % 2 = 0
  kernel : ∀ u, userPages ≤ u → u < 2 ^ 20 → pteAt t e u = kernelPte k u
  parent : ∀ u < 2 ^ 20, pteAt t d u = pteAt s d u
  unchanged : ∀ u < userPages, contentsAt t d u = contentsAt s d u
  fresh : ∀ u < n, ∀ f, frameOf (pteAt t e u) = some f → f ≠ d ∧ ¬HeldBy t d f ∧ f ≠ e ∧
    ∀ v < n, frameOf (pteAt t e v) = some f → v = u

/-- Stores through one of the two directories do not show in the other. -/
def Isolated (d e : ℕ) (t : Mem) : Prop :=
  ∀ ws : List (ℕ × UInt8), (∀ w ∈ ws, w.1 < KERNBASE) → ∀ u < userPages,
    contentsAt (ws.foldl (userStore e) t) d u = contentsAt t d u ∧
      contentsAt (ws.foldl (userStore d) t) e u = contentsAt t e u

section twin

variable {ι κ : Type} {k : Image} {s t r : Mem} {D : ι → Option ℕ} {O : κ → Option ℕ} {x y : ι}
  {d e f m n v : ℕ} {rest : List ℕ}

/-- The pages `v` to `v + n` of `pgdir` have been copied to `d`. -/
structure Copies (k : Image) (D : ι → Option ℕ) (O : κ → Option ℕ) (x : ι) (d pgdir v n : ℕ)
    (s t : Mem) : Prop where
  owns : Owns k t D O
  ptes : ∀ y e u, D y = some e → u < 2 ^ 20 → ¬(y = x ∧ v ≤ u ∧ u < v + n) →
    pteAt t e u = pteAt s e u
  flags : ∀ u, v ≤ u → u < v + n → pteAt t d u % PGSIZE = pteAt s pgdir u % PGSIZE
  contents : ∀ u, v ≤ u → u < v + n → contentsAt t d u = contentsAt s pgdir u
  free : ∀ f ∈ t.free, f ∈ s.free
  taken : ∀ z f, spine t D z = some f → spine s D z = some f ∨ f ∈ s.free
  pages : ∀ f, f ∉ s.free → (∀ z, spine s D z ≠ some f) → t.page f = s.page f

theorem Owns.contents_eq (h : Owns k s D O) (hy : D y = some e) {u : ℕ} (hu : u < userPages)
    (hpte : pteAt t e u = pteAt s e u)
    (hpages : ∀ f, f ∉ s.free → (∀ z, spine s D z ≠ some f) → t.page f = s.page f) :
    contentsAt t e u = contentsAt s e u := by
  rw [contentsAt, contentsAt, hpte]
  cases hf : frameOf (pteAt s e u) with
  | none => rfl
  | some f =>
    have hout : f ∉ s.free := h.excl.apart (.user y u) f (by rw [owned_user hy hu, hf])
    rw [Option.map_some, Option.map_some, hpages f hout (h.not_spine_of_user hy hu hf)]

theorem Copies.refl (h : Owns k s D O) (pgdir v : ℕ) : Copies k D O x d pgdir v 0 s s :=
  ⟨h, fun _ _ _ _ _ _ => rfl, fun _ h1 h2 => by omega, fun _ h1 h2 => by omega, fun _ hf => hf,
    fun _ _ hz => Or.inl hz, fun _ _ _ => rfl⟩

theorem Copies.cons {pgdir : ℕ} (h : Owns k s D O) (hx : D x = some d) (hy : D y = some pgdir)
    (hyx : y ≠ x) (hv : v + (n + 1) ≤ userPages) (h1 : Copies k D O x d pgdir v 1 s t)
    (h2 : Copies k D O x d pgdir (v + 1) n t r) : Copies k D O x d pgdir v (n + 1) s r := by
  have hU := userPages_eq
  have hpar : ∀ u < 2 ^ 20, pteAt t pgdir u = pteAt s pgdir u :=
    fun u hu => h1.ptes y pgdir u hy hu fun hc => hyx hc.1
  have hpages : ∀ f, f ∉ s.free → (∀ z, spine s D z ≠ some f) → f ∉ t.free ∧
      ∀ z, spine t D z ≠ some f :=
    fun f hf hz => ⟨fun hc => hf (h1.free f hc), fun z hc => (h1.taken z f hc).elim (hz z) hf⟩
  have hlast : pteAt r d v = pteAt t d v := h2.ptes x d v hx (by omega) (by omega)
  refine ⟨h2.owns, ?_, ?_, ?_, fun f hf => h1.free f (h2.free f hf), ?_, ?_⟩
  · intro z e u hz hu hne
    rw [h2.ptes z e u hz hu fun hc => hne ⟨hc.1, by omega, by omega⟩,
      h1.ptes z e u hz hu fun hc => hne ⟨hc.1, by omega, by omega⟩]
  · intro u hu1 hu2
    by_cases huv : u = v
    · rw [huv, hlast, h1.flags v le_rfl (by omega)]
    · rw [h2.flags u (by omega) (by omega), hpar u (by omega)]
  · intro u hu1 hu2
    by_cases huv : u = v
    · rw [huv, h1.owns.contents_eq hx (by omega) hlast h2.pages, h1.contents v le_rfl (by omega)]
    · rw [h2.contents u (by omega) (by omega),
        h.contents_eq hy (by omega) (hpar u (by omega)) h1.pages]
  · intro z f hz
    rcases h2.taken z f hz with hc | hc
    · exact h1.taken z f hc
    · exact Or.inr (h1.free f hc)
  · intro f hf hz
    obtain ⟨hf', hz'⟩ := hpages f hf hz
    rw [h2.pages f hf' hz', h1.pages f hf hz]

theorem or_one_of_odd {a : ℕ} (h : a % 2 = 1) : a ||| PTE_P = a := by
  have hsplit : a = 2 ^ 1 * (a / 2) ||| 1 := by
    rw [← Nat.two_pow_add_eq_or_of_lt (by decide)]
    omega
  rw [hsplit, PTE_P, Nat.or_assoc, Nat.or_self]

theorem Owns.copies {pgdir : ℕ} (h : Owns k s D O) (hx : D x = some d) (hv : v < userPages)
    (hodd : pteAt s pgdir v % 2 = 1) (hfree : s.free = f :: rest)
    (hmap : Mapped k D x v 1 (f * PGSIZE) (pteAt s pgdir v % PGSIZE)
      (({ s with free := rest } : Mem).setPage f (s.page (pteAt s pgdir v / PGSIZE))) t) :
    Copies k D O x d pgdir v 1 s t := by
  have hU := userPages_eq
  have hmem : f ∈ s.free := by rw [hfree]; exact List.mem_cons_self
  have hperm : pteAt s pgdir v % PGSIZE < PGSIZE := Nat.mod_lt _ (by decide)
  have hspine := h.spine_take hfree (s.page (pteAt s pgdir v / PGSIZE))
  obtain ⟨l, hl, hsp, -⟩ := hmap.grown.taken
  have hl : rest = l ++ t.free := hl
  have hsub : ∀ g ∈ l ++ t.free, g ∈ s.free := by
    intro g hg
    rw [hfree, hl]
    exact List.mem_cons_of_mem f hg
  have hrest : f ∉ rest := by
    have hnodup := h.excl.nodup
    rw [hfree] at hnodup
    exact (List.nodup_cons.mp hnodup).1
  have hpte : pteAt t d v = entry f (pteAt s pgdir v % PGSIZE) := by
    rw [(hmap.ptes x d v hx (by omega)).1 rfl le_rfl (by omega), Nat.sub_self,
      mapped_zero (h.pool f hmem).lt]
  have hpage : t.page f = s.page (pteAt s pgdir v / PGSIZE) := by
    rw [hmap.grown.pages f hrest fun z => by rw [hspine]; exact h.not_spine_of_free hmem z]
    exact Function.update_self ..
  refine ⟨h.mapTaken hx hv le_rfl hperm hfree hmap, ?_, ?_, ?_, ?_, ?_, ?_⟩
  · intro z e u hz hu hne
    rw [(hmap.ptes z e u hz hu).2 hne, h.samePtes_take hfree _ z e u hz hu]
  · intro u h1 h2
    obtain rfl : u = v := by omega
    rw [hpte, entry_mod hperm, or_one_of_odd]
    rw [PGSIZE_eq]
    omega
  · intro u h1 h2
    obtain rfl : u = v := by omega
    rw [contentsAt, contentsAt, hpte, frameOf, if_pos entry_odd, entry_div hperm, frameOf,
      if_pos hodd,
      Option.map_some, Option.map_some, hpage]
  · exact fun g hg => hsub g (List.mem_append_right l hg)
  · intro z g hz
    rcases hsp z g hz with hc | hc
    · rw [hspine] at hc
      exact Or.inl hc
    · exact Or.inr (hsub g (List.mem_append_left _ hc))
  · intro g hg hz
    have hgf : g ≠ f := fun heq => hg (heq ▸ hmem)
    rw [hmap.grown.pages g (fun hc => hg (by rw [hfree]; exact List.mem_cons_of_mem f hc))
      fun z => by rw [hspine]; exact hz z]
    exact Function.update_of_ne hgf ..

theorem Owns.userStores (h : Owns k t D O) (hx : D x = some e) (ws : List (ℕ × UInt8))
    (hws : ∀ w ∈ ws, w.1 < KERNBASE) :
    SamePtes D t (ws.foldl (userStore e) t) ∧
      ∀ f, (∀ u < userPages, frameOf (pteAt t e u) ≠ some f) →
        (ws.foldl (userStore e) t).page f = t.page f := by
  have hU := userPages_eq
  induction ws generalizing t with
  | nil => exact ⟨fun _ _ _ _ _ => rfl, fun _ _ => rfl⟩
  | cons w ws ih =>
    have hw := hws w List.mem_cons_self
    have hpage : w.1 / PGSIZE < userPages := by
      rw [userPages]
      exact Nat.div_lt_div_of_lt_of_dvd (by decide) hw
    rw [List.foldl_cons]
    have hstep : Owns k (userStore e t w) D O ∧ SamePtes D t (userStore e t w) ∧
        ∀ f, (∀ u < userPages, frameOf (pteAt t e u) ≠ some f) →
          (userStore e t w).page f = t.page f := by
      rw [userStore]
      split
      case isTrue hc =>
        have hf : frameOf (pteAt t e (w.1 / PGSIZE)) =
            some (pteAt t e (w.1 / PGSIZE) / PGSIZE) := by
          rw [frameOf, if_pos hc.1]
        have hspine := h.not_spine_of_user hx hpage hf
        refine ⟨h.setPage hspine _, samePtes_setPage hspine _, fun f hne => page_setPage_of_ne ?_ _⟩
        rintro rfl
        exact hne _ hpage hf
      case isFalse => exact ⟨h, fun _ _ _ _ _ => rfl, fun _ _ => rfl⟩
    obtain ⟨howns, hsame, hpages⟩ := hstep
    obtain ⟨hsame', hpages'⟩ := ih howns fun v hv => hws v (List.mem_cons_of_mem w hv)
    refine ⟨fun y d u hy hu => by rw [hsame' y d u hy hu, hsame y d u hy hu], fun f hne => ?_⟩
    rw [hpages' f fun u hu => by rw [hsame x e u hx (by omega)]; exact hne u hu, hpages f hne]

theorem Owns.stores_apart (h : Owns k t D O) (hx : D x = some e) (hy : D y = some d) (hyx : y ≠ x)
    {ws : List (ℕ × UInt8)} (hws : ∀ w ∈ ws, w.1 < KERNBASE) {u : ℕ} (hu : u < userPages) :
    contentsAt (ws.foldl (userStore e) t) d u = contentsAt t d u := by
  have hU := userPages_eq
  obtain ⟨hsame, hpages⟩ := h.userStores hx ws hws
  rw [contentsAt, contentsAt, hsame y d u hy (by omega)]
  cases hf : frameOf (pteAt t d u) with
  | none => rfl
  | some f =>
    rw [Option.map_some, Option.map_some, hpages f fun v hv hc => ?_]
    have hplace := h.excl.inj (.user y u) (.user x v) f (by rw [owned_user hy hu, hf])
      (by rw [owned_user hx hv, hc])
    cases hplace
    exact hyx rfl

theorem Owns.isolated (h : Owns k t D O) (hx : D x = some e) (hy : D y = some d) (hyx : y ≠ x) :
    Isolated d e t := fun _ hws _ hu =>
  ⟨h.stores_apart hx hy hyx hws hu, h.stores_apart hy hx hyx.symm hws hu⟩

variable [DecidableEq ι]

theorem copyuvmFrom_copies {pgdir sz fuel : ℕ} (h : Owns k s D O) (hx : D x = some d)
    (hy : D y = some pgdir) (hyx : y ≠ x) (hsz : sz ≤ KERNBASE) (hn : v + n = pagesOf sz)
    (hfuel : n < fuel) (habsent : ∀ u, v ≤ u → u < pagesOf sz → pteAt s d u % 2 = 0)
    (hpresent : ∀ u, v ≤ u → u < pagesOf sz → pteAt s pgdir u % 2 = 1) :
    wp (copyuvmFrom pgdir d sz fuel (v * PGSIZE)) s
      (fun ok t => Owns k t D O ∧ (ok = true → Copies k D O x d pgdir v n s t))
      (fun _ => False) := by
  have hU := userPages_eq
  have hmax := pagesOf_le_userPages hsz
  induction n generalizing fuel s v with
  | zero =>
    obtain ⟨fuel, rfl⟩ := Nat.exists_eq_add_of_lt hfuel
    have hge : ¬ v * PGSIZE < sz := fun hc => by
      have := lt_pagesOf.mpr hc
      omega
    rw [copyuvmFrom, if_neg hge, wp_pure]
    exact ⟨h, fun _ => Copies.refl h pgdir v⟩
  | succ n ih =>
    obtain ⟨fuel, rfl⟩ := Nat.exists_eq_add_of_lt hfuel
    have hlt : v * PGSIZE < sz := lt_pagesOf.mp (by omega)
    have hnext : (v * PGSIZE + PGSIZE) % 2 ^ 32 = (v + 1) * PGSIZE := by
      rw [PGSIZE_eq]
      omega
    have hthere := hpresent v le_rfl (by omega)
    rw [copyuvmFrom, if_pos hlt, hnext, wp_bind, walkpgdir_find, PDX_page (by omega), PTX_page]
    cases ht : tableAt s pgdir (v / NPTENTRIES) with
    | none =>
      simp only [pteAt, ht] at hthere
      cases hthere
    | some g =>
      rw [Option.map_some]
      dsimp only
      rw [wp_bind, wp_wordAt, ← pteAt_of_table ht, if_neg (by omega), wp_bind]
      refine wp_kalloc (fun _ => ?_) fun f rest hfree => ?_
      · dsimp only
        rw [wp_pure]
        exact ⟨h, by simp⟩
      · have hperm : pteAt s pgdir v % PGSIZE < PGSIZE := Nat.mod_lt _ (by decide)
        dsimp only
        rw [wp_bind, wp_modify]
        have hmap := h.mapTaken_spec hx v (by omega) hperm hfree
          (s.page (pteAt s pgdir v / PGSIZE))
        refine wp_seq (wp_mono hmap (fun _ _ hq => hq) fun _ hq => ?_) ?_
        · have := habsent v le_rfl (by omega)
          have := hq.2
          omega
        · rintro ok t ⟨m, hm, hmapped, htrue, -⟩
          cases ok with
          | false =>
            rw [if_neg (by simp), wp_pure]
            exact ⟨h.mapTaken hx (by omega) hm hperm hfree hmapped, by simp⟩
          | true =>
            obtain rfl := htrue rfl
            have hone := h.copies hx (by omega) hthere hfree hmapped
            rw [if_pos rfl]
            refine wp_post (ih hone.owns (by omega) (by omega) ?_ ?_) ?_
            · intro u h1 h2
              rw [hone.ptes x d u hx (by omega) (by omega)]
              exact habsent u (by omega) h2
            · intro u h1 h2
              rw [hone.ptes y pgdir u hy (by omega) fun hc => hyx hc.1]
              exact hpresent u (by omega) h2
            · rintro ok r ⟨howns, hrest⟩
              exact ⟨howns, fun hok => hone.cons h hx hy hyx (by omega) (hrest hok)⟩

theorem Copies.twin (h : Owns k s D O) (hx : D x = none) (hy : D y = some d) (hn : n ≤ userPages)
    (hun : Untouched D s t) (hset : SetUp k D O x e t)
    (hcopies : Copies k (Function.update D x (some e)) O x e d 0 n t r) : Twin k d e n s r := by
  have hU := userPages_eq
  have hyx : y ≠ x := by
    rintro rfl
    rw [hx] at hy
    cases hy
  have hself : Function.update D x (some e) x = some e := Function.update_self ..
  have hpar : Function.update D x (some e) y = some d := by
    rw [Function.update_of_ne hyx, hy]
  have hpte : ∀ u < 2 ^ 20, pteAt t d u = pteAt s d u := fun u hu => hun.ptes y d u hy hu
  have hpte' : ∀ u < 2 ^ 20, pteAt r d u = pteAt t d u :=
    fun u hu => hcopies.ptes y d u hpar hu fun hc => hyx hc.1
  have hchild : ∀ u < 2 ^ 20, n ≤ u → pteAt r e u = kernelPte k u := by
    intro u hu hge
    rw [hcopies.ptes x e u hself hu fun hc => by omega, hset.ptes u hu]
  have hcont : ∀ u < userPages, contentsAt t d u = contentsAt s d u := fun u hu =>
    h.contents_eq hy hu (hpte u (by omega)) hun.pages
  refine ⟨?_, ?_, ?_, ?_, ?_, ?_, ?_⟩
  · intro u hu
    rw [hcopies.flags u (Nat.zero_le u) (by omega), hpte u (by omega)]
  · intro u hu
    rw [hcopies.contents u (Nat.zero_le u) (by omega), hcont u (by omega)]
  · intro u h1 h2
    rw [hchild u (by omega) h1, kernelPte_user h2]
  · exact fun u h1 h2 => hchild u h2 (by omega)
  · exact fun u hu => (hpte' u hu).trans (hpte u hu)
  · intro u hu
    rw [hset.owns.contents_eq hpar hu (hpte' u (by omega)) hcopies.pages, hcont u hu]
  · intro u hu f hf
    have howned : owned r (Function.update D x (some e)) O (.user x u) = some f := by
      rw [owned_user hself (by omega), hf]
    have hexcl := hcopies.owns.excl.inj
    refine ⟨?_, ?_, ?_, fun v hv hc => hcopies.owns.user_inj hself (by omega) (by omega) hc hf⟩
    · rintro rfl
      cases hexcl (.user x u) (.spine (.dir y)) f howned hpar
    · rintro (⟨i, hi, hc⟩ | ⟨v, hv, hc⟩)
      · cases hexcl (.user x u) (.spine (.table y i)) f howned (by
          rw [← hc]; exact spine_table hpar hi)
      · have hplace := hexcl (.user x u) (.user y v) f howned (by rw [owned_user hpar hv, hc])
        cases hplace
        exact hyx rfl
    · rintro rfl
      cases hexcl (.user x u) (.spine (.dir x)) f howned hself

/-- `copyuvm` makes an equal and independent copy, for every parent of which the pages are there and
with enough memory. -/
theorem copyuvm_makes_twin [DecidableEq κ] {sz : ℕ} (h : Owns k s D O) (hx : D x = none)
    (hy : D y = some d) (hsz : sz ≤ KERNBASE)
    (hpresent : ∀ u < pagesOf sz, pteAt s d u % 2 = 1)
    (hmem : (copyRequests (pagesOf sz)).length ≤ s.free.length) :
    wp (copyuvm k d sz) s
      (fun r t => ∃ e, r = some e ∧ Twin k d e (pagesOf sz) s t ∧ Isolated d e t)
      (fun _ => False) := by
  have hU := userPages_eq
  have hmax := pagesOf_le_userPages hsz
  have hyx : y ≠ x := by
    rintro rfl
    rw [hx] at hy
    cases hy
  have hlead : pagesOf sz = leading s d 0 (pagesOf sz) := by
    obtain ⟨hle, -, heven⟩ := leading_spec s d 0 (pagesOf sz)
    rw [Nat.zero_add] at heven
    by_contra hne
    have := heven (by omega)
    rw [hpresent _ (by omega)] at this
    cases this
  have hends := copyuvm_ends h hx hy hsz hlead
  have hcopy : wp (copyuvm k d sz) s (fun r t => ∀ e, r = some e →
      Twin k d e (pagesOf sz) s t ∧ Isolated d e t) (fun _ => False) := by
    unfold copyuvm
    refine wp_seq (setupkvm_spec h hx) ?_
    rintro r t ⟨hun, -, hsome⟩
    cases r with
    | none =>
      dsimp only
      rw [wp_pure]
      intro e he
      cases he
    | some e =>
      obtain ⟨hset, -⟩ := hsome e rfl
      have hself : Function.update D x (some e) x = some e := Function.update_self ..
      have hpar : Function.update D x (some e) y = some d := by
        rw [Function.update_of_ne hyx, hy]
      have hloop := copyuvmFrom_copies (v := 0) (n := pagesOf sz) hset.owns hself hpar hyx hsz
        (Nat.zero_add _) (show pagesOf sz < 2 ^ 20 by omega)
        (fun u _ hu => by rw [hset.ptes u (by omega), kernelPte_user (by omega)])
        (fun u _ hu => by rw [hun.ptes y d u hy (by omega)]; exact hpresent u hu)
      rw [Nat.zero_mul] at hloop
      dsimp only
      refine wp_seq hloop ?_
      rintro ok r ⟨howns, hcopies⟩
      cases ok with
      | true =>
        rw [if_pos rfl, wp_pure]
        intro e' he'
        obtain rfl := Option.some.inj he'
        exact ⟨Copies.twin h hx hy hmax hun hset (hcopies rfl), howns.isolated hself hpar hyx⟩
      | false =>
        rw [if_neg (by simp)]
        refine wp_seq (wp_mono (freevm_spec howns hself) (fun _ _ hq => hq) fun _ hf => hf.elim) ?_
        rintro _ q -
        rw [wp_pure]
        intro e' he'
        cases he'
  refine wp_post (wp_and hcopy hends) ?_
  rintro r t ⟨htwin, hfails, -⟩
  cases r with
  | some e => exact ⟨e, rfl, htwin e rfl⟩
  | none =>
    have hnone : (copyRequests (pagesOf sz))[s.free.length]? = none :=
      List.getElem?_eq_none hmem
    cases hfails rfl with
    | page hrs _ => cases hnone.symm.trans hrs
    | table hrs _ => cases hnone.symm.trans hrs

end twin

/-- A parent with one page. -/
theorem copyuvm_makes_twin_one : ∃ s, pteAt s 1024 0 % 2 = 1 ∧
    wp (copyuvm Spaces.sampleImage 1024 4096) s
      (fun r t => ∃ e, r = some e ∧ Twin Spaces.sampleImage 1024 e 1 s t ∧ Isolated 1024 e t)
      (fun _ => False) := by
  have hD : ∀ (y : Bool) e, (if y then some 1024 else none) = some e → y = true ∧ e = 1024 := by
    intro y e he
    cases y with
    | true => exact ⟨rfl, (Option.some.inj he).symm⟩
    | false => cases he
  obtain ⟨s, howns, hodd, -, -, hlen⟩ := exists_onePage (O := fun _ : Unit => none) (x := true) rfl
    hD (fun _ => rfl) (List.range' 1026 80) (by decide) (by decide) (by decide) (v := 0) (by decide)
  refine ⟨s, hodd, copyuvm_makes_twin howns (x := false) rfl (y := true) rfl (by decide) ?_ ?_⟩
  · intro u hu
    rw [show pagesOf 4096 = 1 from rfl] at hu
    obtain rfl : u = 0 := by omega
    exact hodd
  · rw [List.length_range'] at hlen
    change 67 ≤ _
    omega

end Vm
end Xv6
