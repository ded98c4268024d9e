import Xv6.Vm.Account
import Xv6.Vm.Halves

/-! What is left when memory runs out in `allocuvm`. -/
namespace Xv6
namespace Vm
open Prog

/-- What a call of `kalloc` is for. -/
inductive Request where
  | page
  | table
  deriving DecidableEq

/-- The calls of `kalloc` for the `n` pages from `v` on, one for each page and one for each page
table that `d` lacks. -/
def requests (s : Mem) (d v n : ℕ) : List Request :=
  (List.range' v n).flatMap fun u =>
    if tableAt s d (u / NPTENTRIES) = none ∧ (u = v ∨ u % NPTENTRIES = 0) then [.page, .table]
    else [.page]

/-- The `m` pages from `v` on of `x` have been mapped, and `lost` is the page that was taken but
could not be. -/
structure Supplied {ι κ : Type} (k : Image) (D : ι → Option ℕ) (O : κ → Option ℕ) (x : ι)
    (d v m : ℕ) (lost : Option ℕ) (s t : Mem) : Prop where
  owns : Owns k t D O
  ptes : ∀ y e u, D y = some e → u < 2 ^ 20 → ¬(y = x ∧ v ≤ u ∧ u < v + m) →
    pteAt t e u = pteAt s e u
  mapped : ∀ u, v ≤ u → u < v + m → pteAt t d u % 2 = 1
  account : ∀ g, (g ∈ t.free ∨ HeldBy t d g ∨ lost = some g) ↔ (g ∈ s.free ∨ HeldBy s d g)
  away : ∀ g, lost = some g → g ∈ s.free ∧ Owns k (t.give g) D O

/-- How far `n` pages get that ask for `rs`, with so many free pages. -/
@[irreducible] def Ended (rs : List Request) (free n m : ℕ) (lost : Option ℕ) (t : Mem) : Prop :=
  match rs[free]? with
  | none => m = n ∧ lost = none
  | some .page => m < n ∧ lost = none ∧ t.free = []
  | some .table => m < n ∧ lost ≠ none ∧ t.free = [] ∧ (m + 1 = n ↔ free + 1 = rs.length)

section shortage

variable {ι κ : Type} {k : Image} {s t r : Mem} {D : ι → Option ℕ} {O : κ → Option ℕ} {x : ι}
  {d f g m n perm v : ℕ} {lost : Option ℕ} {rest : List ℕ}

theorem requests_zero (s : Mem) (d v : ℕ) : requests s d v 0 = [] := rfl

theorem requests_succ (hv : v + n < 2 ^ 20) (hself : tableAt t d (v / NPTENTRIES) ≠ none)
    (hother : ∀ i < NPDENTRIES, i ≠ v / NPTENTRIES → tableAt t d i = tableAt s d i) :
    requests s d v (n + 1) =
      (if tableAt s d (v / NPTENTRIES) = none then [.page, .table] else [.page]) ++
        requests t d (v + 1) n := by
  have hN : NPTENTRIES = 1024 := rfl
  rw [requests, List.range'_succ, List.flatMap_cons]
  refine congrArg₂ (· ++ ·) ?_ ?_
  · simp only [true_or, and_true]
  · refine List.flatMap_congr fun u hu => ?_
    rw [List.mem_range'_1] at hu
    by_cases hsame : u / NPTENTRIES = v / NPTENTRIES
    · rw [if_neg, if_neg]
      · rw [hsame]
        exact fun hc => hself hc.1
      · rintro ⟨-, hc⟩
        rw [hN] at *
        omega
    · rw [hother _ (by rw [hN, NPDENTRIES_eq]; omega) hsame]
      have hiff : (u = v ∨ u % NPTENTRIES = 0) ↔ (u = v + 1 ∨ u % NPTENTRIES = 0) := by
        rw [hN] at *
        omega
      simp only [hiff]

theorem Supplied.refl (h : Owns k s D O) (v : ℕ) : Supplied k D O x d v 0 none s s where
  owns := h
  ptes _ _ _ _ _ _ := rfl
  mapped u h1 h2 := by omega
  account g := by simp
  away := nofun

theorem Supplied.cons (h : Supplied k D O x d v 1 none s t)
    (h' : Supplied k D O x d (v + 1) m lost t r)
    (hx : D x = some d) (hv : v < 2 ^ 20) (hfree : ∀ g ∈ t.free, g ∈ s.free) :
    Supplied k D O x d v (m + 1) lost s r where
  owns := h'.owns
  ptes y e u hy hu hne := by
    rw [h'.ptes y e u hy hu fun hc => hne ⟨hc.1, by omega, by omega⟩,
      h.ptes y e u hy hu fun hc => hne ⟨hc.1, by omega, by omega⟩]
  mapped u h1 h2 := by
    by_cases huv : u = v
    · rw [huv, h'.ptes x d v hx hv (by omega)]
      exact h.mapped v le_rfl (by omega)
    · exact h'.mapped u (by omega) (by omega)
  account g := by
    rw [h'.account g, ← h.account g]
    simp
  away g hg := ⟨hfree g (h'.away g hg).1, (h'.away g hg).2⟩

theorem Mapped.spine_eq {pa : ℕ} (h : Mapped k D x v 0 pa perm s t) : spine t D = spine s D := by
  obtain ⟨l, hl, hsp, -⟩ := h.grown.taken
  have hnil : l = [] := List.append_left_eq_self.mp (hl.symm.trans h.free_eq.symm)
  funext z
  cases hz : spine t D z with
  | none =>
    cases hz' : spine s D z with
    | none => rfl
    | some f =>
      rw [h.grown.kept z f hz'] at hz
      cases hz
  | some f =>
    rcases hsp z f hz with h1 | h1
    · exact h1.symm
    · rw [hnil] at h1
      exact absurd h1 List.not_mem_nil

theorem Owns.give_mapTaken {p : Page} (h : Owns k s D O) (hfree : s.free = f :: rest)
    (hmap : Mapped k D x v 0 (f * PGSIZE) perm (({ s with free := rest } : Mem).setPage f p) t) :
    Owns k (t.give f) D O := by
  have hclear := h.clearPage hfree p
  have hown : owned (t.give f) D O =
      owned ((({ s with free := rest } : Mem).setPage f p).give f) D O := by
    rw [owned_give, owned_give]
    refine owned_congr hmap.spine_eq fun y e u hy hu => ?_
    exact (hmap.ptes y e u hy hu).2 (by omega)
  have hlist : (t.give f).free = ((({ s with free := rest } : Mem).setPage f p).give f).free :=
    congrArg (f :: ·) hmap.free_eq
  refine ⟨?_, ?_, ?_⟩
  · rw [hlist, hown]
    exact hclear.excl
  · rw [hlist]
    exact hclear.pool
  · rw [hown]
    exact hclear.held

theorem Owns.supplied {p : Page} (h : Owns k s D O) (hx : D x = some d) (hv : v < userPages)
    (hm : m ≤ 1) (hperm : perm < PGSIZE) (hfree : s.free = f :: rest)
    (habsent : pteAt s d v % 2 = 0)
    (hmap : Mapped k D x v m (f * PGSIZE) perm (({ s with free := rest } : Mem).setPage f p) t) :
    Supplied k D O x d v m (if m = 1 then none else some f) s t := by
  have hU := userPages_eq
  have hacc := h.account_mapTaken hx hv hm hperm hfree habsent hmap
  have hmem : f ∈ s.free := by rw [hfree]; exact List.mem_cons_self
  refine ⟨h.mapTaken hx hv hm hperm hfree hmap, ?_, ?_, ?_, ?_⟩
  · intro y e u hy hu hne
    rw [(hmap.ptes y e u hy hu).2 hne, h.samePtes_take hfree p y e u hy hu]
  · intro u h1 h2
    rw [(hmap.ptes x d u hx (by omega)).1 rfl h1 h2]
    exact or_one_odd _
  · intro g
    rw [← or_assoc, hacc g, hfree, List.mem_cons]
    by_cases hone : m = 1
    · simp only [hone, if_true, true_and, reduceCtorEq, or_false]
      exact or_rotate.trans (or_rotate.trans or_assoc.symm)
    · simp only [hone, if_false, false_and, or_false, Option.some.injEq, eq_comm (a := f)]
      exact or_assoc.trans (or_rotate.trans (or_rotate.trans or_assoc.symm))
  · intro g hg
    by_cases hone : m = 1
    · rw [if_pos hone] at hg
      cases hg
    · rw [if_neg hone] at hg
      obtain rfl := Option.some.inj hg
      obtain rfl : m = 0 := by omega
      exact ⟨hmem, h.give_mapTaken hfree hmap⟩

theorem tableAt_take {p : Page} (h : Owns k s D O) (hx : D x = some d) (hfree : s.free = f :: rest)
    {i : ℕ} (hi : i < NPDENTRIES) :
    tableAt (({ s with free := rest } : Mem).setPage f p) d i = tableAt s d i :=
  tableAt_of_spine (funext (h.spine_take hfree p)) hx hi

theorem Mapped.requests_eq {p : Page} (hmap : Mapped k D x v 1 (f * PGSIZE) perm
      (({ s with free := rest } : Mem).setPage f p) t) (h : Owns k s D O) (hx : D x = some d)
    (hv : v + n < userPages) (hfree : s.free = f :: rest) :
    ∃ rs, requests s d v (n + 1) = rs ++ requests t d (v + 1) n ∧
      s.free.length = rs.length + t.free.length := by
  have hU := userPages_eq
  have hp : v / NPTENTRIES < NPDENTRIES := by
    rw [NPDENTRIES_eq, NPTENTRIES]
    omega
  have hlen := hmap.free_length hx (by omega) (h.clearPage hfree p).of_give.tables
  rw [tableAt_take h hx hfree hp] at hlen
  have hlen : rest.length = t.free.length + if tableAt s d (v / NPTENTRIES) = none then 1 else 0 :=
    hlen
  refine ⟨_, requests_succ (by omega) (hmap.tableAt_ne_none hx (by omega)) ?_, ?_⟩
  · intro i hi hne
    rw [hmap.tableAt_of_ne hx hi (by rintro u h1 h2 rfl; exact hne (by rw [show u = v by omega])),
      tableAt_take h hx hfree hi]
  · rw [hfree, List.length_cons, hlen]
    split
    · exact Nat.add_comm _ 2
    · exact Nat.add_comm _ 1

theorem Supplied.step {p : Page} (h : Owns k s D O) (hx : D x = some d) (hv : v + n < userPages)
    (hperm : perm < PGSIZE) (hfree : s.free = f :: rest) (habsent : pteAt s d v % 2 = 0)
    (hmap : Mapped k D x v 1 (f * PGSIZE) perm (({ s with free := rest } : Mem).setPage f p) t)
    (h' : Supplied k D O x d (v + 1) m lost t r)
    (hend : Ended (requests t d (v + 1) n) t.free.length n m lost r) :
    Supplied k D O x d v (m + 1) lost s r ∧
      Ended (requests s d v (n + 1)) s.free.length (n + 1) (m + 1) lost r := by
  have hU := userPages_eq
  have hsup := h.supplied hx (by omega) le_rfl hperm hfree habsent hmap
  rw [if_pos rfl] at hsup
  obtain ⟨l, hl, -⟩ := hmap.grown.taken
  have hl : rest = l ++ t.free := hl
  refine ⟨hsup.cons h' hx (by omega) fun g hg => ?_, ?_⟩
  · rw [hfree, hl]
    exact List.mem_cons_of_mem f (List.mem_append_right l hg)
  · obtain ⟨rs, hrs, hlen⟩ := hmap.requests_eq h hx hv hfree
    rw [Ended, hrs, hlen, List.getElem?_append_right (Nat.le_add_right _ _),
      Nat.add_sub_cancel_left,
      List.length_append]
    rw [Ended] at hend
    revert hend
    cases (requests t d (v + 1) n)[t.free.length]? with
    | none => exact fun hend => ⟨by omega, hend.2⟩
    | some q =>
      cases q with
      | page => exact fun hend => ⟨by omega, hend.2⟩
      | table =>
        rintro ⟨hmn, hlost, hnil, hlast⟩
        refine ⟨by omega, hlost, hnil, ?_⟩
        rw [Nat.add_right_cancel_iff, hlast, Nat.add_assoc, Nat.add_left_cancel_iff]

theorem Ended.zero (s : Mem) (d v free : ℕ) : Ended (requests s d v 0) free 0 0 none s := by
  rw [Ended, requests_zero]
  exact ⟨rfl, rfl⟩

theorem Ended.empty (hfree : s.free = []) (d v n : ℕ) :
    Ended (requests s d v (n + 1)) s.free.length (n + 1) 0 none s := by
  have hget : (requests s d v (n + 1))[s.free.length]? = some .page := by
    rw [hfree, requests, List.range'_succ, List.flatMap_cons]
    split <;> rfl
  rw [Ended, hget]
  exact ⟨by omega, rfl, hfree⟩

theorem Supplied.noTable {p : Page} (h : Owns k s D O) (hx : D x = some d) (hv : v < userPages)
    (hperm : perm < PGSIZE) (hfree : s.free = f :: rest) (habsent : pteAt s d v % 2 = 0)
    (hmap : Mapped k D x v 0 (f * PGSIZE) perm (({ s with free := rest } : Mem).setPage f p) t)
    (hnil : t.free = []) (hmiss : tableAt t d (v / NPTENTRIES) = none) (n : ℕ) :
    Supplied k D O x d v 0 (some f) s t ∧
      Ended (requests s d v (n + 1)) s.free.length (n + 1) 0 (some f) t := by
  have hU := userPages_eq
  have hp : v / NPTENTRIES < NPDENTRIES := by
    rw [NPDENTRIES_eq, NPTENTRIES]
    omega
  rw [tableAt_of_spine hmap.spine_eq hx hp, tableAt_take h hx hfree hp] at hmiss
  refine ⟨h.supplied hx hv (Nat.zero_le 1) hperm hfree habsent hmap, ?_⟩
  have hrs : ∃ rs, requests s d v (n + 1) = .page :: .table :: rs ∧ (n = 0 ↔ rs = []) := by
    rw [requests, List.range'_succ, List.flatMap_cons, if_pos ⟨hmiss, Or.inl rfl⟩]
    refine ⟨_, rfl, ?_⟩
    cases n with
    | zero => exact ⟨fun _ => rfl, fun _ => rfl⟩
    | succ n =>
      rw [List.range'_succ, List.flatMap_cons]
      refine ⟨(by rintro ⟨⟩), fun hnil => ?_⟩
      have hfirst := (List.append_eq_nil_iff.mp (List.append_eq_nil_iff.mp hnil).2).1
      split at hfirst <;> cases hfirst
  obtain ⟨rs, hrs, hrsnil⟩ := hrs
  have hrest : rest = [] := hmap.free_eq.symm.trans hnil
  rw [Ended, hrs, hfree, hrest]
  refine ⟨by omega, (by rintro ⟨⟩), hnil, ?_⟩
  rw [← List.length_eq_zero_iff] at hrsnil
  simp only [List.length_cons, List.length_nil]
  omega

variable [DecidableEq ι]

theorem allocuvmFrom_supplied {newsz fuel : ℕ} (h : Owns k s D O) (hx : D x = some d)
    (hlt : newsz < KERNBASE) (hn : v + n = pagesOf newsz) (hfuel : n < fuel)
    (habsent : ∀ u, v ≤ u → u < pagesOf newsz → pteAt s d u % 2 = 0) :
    wp (allocuvmFrom d newsz fuel (v * PGSIZE)) s
      (fun ok t => ∃ m lost, Supplied k D O x d v m lost s t ∧
        Ended (requests s d v n) s.free.length n m lost t ∧
        (ok = true ↔ m = n ∨ (lost ≠ none ∧ m + 1 = n))) (fun _ => False) := by
  have hU := userPages_eq
  have hmax := pagesOf_le_userPages hlt.le
  induction fuel generalizing s v n with
  | zero => omega
  | succ fuel ih =>
    rw [allocuvmFrom]
    cases n with
    | zero =>
      have hge : ¬ v * PGSIZE < newsz := fun hc => by
        have := lt_pagesOf.mpr hc
        omega
      rw [if_neg hge, wp_pure]
      refine ⟨0, none, Supplied.refl h v, Ended.zero s d v _, fun _ => Or.inl rfl, fun _ => rfl⟩
    | succ n =>
      have hnext : v * PGSIZE < newsz := lt_pagesOf.mp (by omega)
      have hvnext : (v * PGSIZE + PGSIZE) % 2 ^ 32 = (v + 1) * PGSIZE := by
        rw [PGSIZE_eq]
        omega
      rw [if_pos hnext, hvnext, wp_bind]
      refine wp_kalloc ?_ ?_
      · intro hfree
        rw [wp_pure]
        refine ⟨0, none, Supplied.refl h v, Ended.empty hfree d v n, (by rintro ⟨⟩), ?_⟩
        rintro (hc | ⟨hc, -⟩)
        · omega
        · exact absurd rfl hc
      · intro f rest hfree
        have hperm : PTE_W ||| PTE_U < PGSIZE := by decide
        have hold := habsent v le_rfl (by omega)
        dsimp only
        rw [wp_bind, wp_memset]
        have hmap := h.mapTaken_spec hx v (by omega) hperm hfree (fill 0)
        refine wp_seq (wp_mono hmap (fun _ _ hq => hq) fun _ hq => ?_) ?_
        · have := hq.2
          omega
        · rintro ok t ⟨m, hm, hmapped, htrue, hfalse⟩
          have hsup := h.supplied hx (by omega) hm hperm hfree hold hmapped
          cases ok with
          | true =>
            obtain rfl := htrue rfl
            refine wp_post (ih (v := v + 1) (n := n) hsup.owns (by omega) (by omega) ?_) ?_
            · intro u h1 h2
              rw [hsup.ptes x d u hx (by omega) (by omega)]
              exact habsent u (by omega) h2
            · rintro ok r ⟨m', lost, hsup', hend, hok⟩
              obtain ⟨h1, h2⟩ := Supplied.step h hx (by omega) hperm hfree hold hmapped hsup' hend
              refine ⟨m' + 1, lost, h1, h2, hok.trans ?_⟩
              rw [Nat.add_right_cancel_iff, Nat.add_right_cancel_iff]
          | false =>
            obtain ⟨rfl, hnil, hmiss⟩ := hfalse rfl
            obtain ⟨h1, h2⟩ := Supplied.noTable h hx (by omega) hperm hfree hold hmapped
              hnil hmiss n
            refine wp_mono (allocuvmFrom_empty (v := v + 1) hnil (by omega)) ?_
              (fun _ hf => hf.elim)
            rintro ok t' ⟨rfl, hok⟩
            refine ⟨0, some f, h1, h2, hok.trans ?_⟩
            have hlost : some f ≠ none := (by rintro ⟨⟩)
            rw [and_iff_right hlost]
            omega

variable [DecidableEq κ]

/-- What `allocuvm` does: it returns the new size if it got to the last page, and gives the pages
back if not. -/
theorem allocuvm_supplied {oldsz newsz : ℕ} (h : Owns k s D O) (hx : D x = some d)
    (hle : oldsz ≤ newsz) (hlt : newsz < KERNBASE) (hn : pagesOf oldsz + n = pagesOf newsz)
    (habsent : ∀ u, pagesOf oldsz ≤ u → u < pagesOf newsz → pteAt s d u % 2 = 0) :
    wp (allocuvm k d oldsz newsz) s
      (fun c t => ∃ m lost r, Supplied k D O x d (pagesOf oldsz) m lost s r ∧
        Ended (requests s d (pagesOf oldsz) n) s.free.length n m lost r ∧
        if m = n ∨ (lost ≠ none ∧ m + 1 = n) then c = newsz ∧ t = r
        else c = 0 ∧
          Freed k D O x d (fun u => pagesOf oldsz ≤ u ∧ u < pagesOf newsz) r t)
            (fun _ => False) := by
  have hU := userPages_eq
  have hmax := pagesOf_le_userPages hlt.le
  unfold allocuvm
  rw [if_neg (by omega), if_neg (by omega), PGROUNDUP_eq (by omega)]
  refine wp_seq (allocuvmFrom_supplied h hx hlt hn (by omega) habsent) ?_
  rintro ok r ⟨m, lost, hsup, hend, hok⟩
  cases ok with
  | true =>
    rw [if_pos rfl, wp_pure]
    refine ⟨m, lost, r, hsup, hend, ?_⟩
    rw [if_pos (hok.mp rfl)]
    exact ⟨rfl, rfl⟩
  | false =>
    have hfail : ¬(m = n ∨ (lost ≠ none ∧ m + 1 = n)) := fun hc => by
      cases hok.mpr hc
    have hmn : m < n := by
      refine lt_of_le_of_ne ?_ fun hc => hfail (Or.inl hc)
      rw [Ended] at hend
      split at hend
      · exact hend.1.le
      · exact hend.1.le
      · exact hend.1.le
    have hsize : oldsz < newsz := by
      refine lt_of_le_of_ne hle ?_
      rintro rfl
      omega
    rw [if_neg (by simp)]
    refine wp_seq (deallocuvm_freed (w := pagesOf oldsz + m) hsup.owns hx hlt.le hsize ?_) ?_
    · intro u h1 h2
      refine ⟨fun hp => ?_, hsup.mapped u h1⟩
      by_contra hc
      rw [hsup.ptes x d u hx (by omega) (by omega), habsent u h1 h2] at hp
      cases hp
    · rintro _ t ⟨-, hfr⟩
      rw [wp_pure]
      refine ⟨m, lost, r, hsup, hend, ?_⟩
      rw [if_neg hfail]
      exact ⟨rfl, hfr⟩

end shortage

def mapping (s : Mem) (d u : ℕ) : Option ℕ :=
  if pteAt s d u % 2 = 1 then some (pteAt s d u) else none

/-- The pages from `oldsz` to `newsz` are mapped to distinct new pages of zeros, for the user and
writable, and nothing else has changed. -/
structure AllMapped {ι : Type} (D : ι → Option ℕ) (x : ι) (d oldsz newsz : ℕ) (s t : Mem) :
    Prop where
  fresh : ∀ u, pagesOf oldsz ≤ u → u < pagesOf newsz →
    ∃ f ∈ s.free, pteAt t d u = entry f (PTE_W ||| PTE_U) ∧ t.page f = fill 0
  distinct : ∀ u u' f, pagesOf oldsz ≤ u → u < pagesOf newsz → pagesOf oldsz ≤ u' →
    u' < pagesOf newsz → frameOf (pteAt t d u) = some f → frameOf (pteAt t d u') = some f → u = u'
  others : ∀ y e u, D y = some e → u < 2 ^ 20 →
    ¬(y = x ∧ pagesOf oldsz ≤ u ∧ u < pagesOf newsz) → pteAt t e u = pteAt s e u

/-- All mappings are as before, and every page that was free is free or a page table of `d`. -/
structure Undone {ι : Type} (D : ι → Option ℕ) (d : ℕ) (s t : Mem) : Prop where
  mappings : ∀ y e u, D y = some e → u < 2 ^ 20 → mapping t e u = mapping s e u
  pages : ∀ f ∈ s.free, f ∈ t.free ∨ ∃ i < NPDENTRIES, tableAt t d i = some f

def AllOrNothing {ι : Type} (D : ι → Option ℕ) (x : ι) (d oldsz newsz : ℕ) (s : Mem) (c : ℕ)
    (t : Mem) : Prop :=
  (c = newsz → AllMapped D x d oldsz newsz s t) ∧ (c = 0 → Undone D d s t)

section allOrNothing

variable {ι κ : Type} {k : Image} {s t r : Mem} {D : ι → Option ℕ} {O : κ → Option ℕ} {x : ι}
  {d m n oldsz newsz : ℕ}

theorem mapping_even {u : ℕ} (h : pteAt s d u % 2 = 0) : mapping s d u = none := by
  rw [mapping, if_neg (by omega)]

theorem mapping_congr {e u : ℕ} (h : pteAt t e u = pteAt s e u) :
    mapping t e u = mapping s e u := by
  rw [mapping, mapping, h]

theorem Undone.of_account (h : Owns k s D O) (hx : D x = some d)
    (hmap : ∀ y e u, D y = some e → u < 2 ^ 20 → mapping t e u = mapping s e u)
    (hacc : ∀ g ∈ s.free, g ∈ t.free ∨ HeldBy t d g) : Undone D d s t := by
  have hU := userPages_eq
  refine ⟨hmap, fun f hf => (hacc f hf).imp_right fun hh => hh.resolve_right ?_⟩
  rintro ⟨u, hu, hfr⟩
  have hfr' : frameOf (pteAt s d u) = some f := by
    have hm := hmap x d u hx (by omega)
    by_cases hodd : pteAt t d u % 2 = 1
    · rw [mapping, if_pos hodd, mapping] at hm
      split at hm
      · rw [← Option.some.inj hm]
        exact hfr
      · cases hm
    · rw [frameOf_even (by omega)] at hfr
      cases hfr
  exact h.excl.apart (.user x u) f (by rw [owned_user hx hu, hfr']) hf

theorem Filled.allMapped (h : Filled k D O x (pagesOf oldsz) n s t) (hx : D x = some d)
    (hn : pagesOf oldsz + n = pagesOf newsz) (hlt : newsz < KERNBASE) :
    AllMapped D x d oldsz newsz s t := by
  have hmax := pagesOf_le_userPages hlt.le
  refine ⟨fun u h1 h2 => h.fresh d u hx h1 (by omega), ?_, ?_⟩
  · intro u u' f _ h2 _ h4 hu hu'
    have heq := h.owns.excl.inj (.user x u) (.user x u') f (by rw [owned_user hx (by omega), hu])
      (by rw [owned_user hx (by omega), hu'])
    exact (Place.user.inj heq).2
  · exact fun y e u hy hu hne => h.ptes y e u hy hu fun hc => hne ⟨hc.1, hc.2.1, by omega⟩

/-- What `allocuvm` returns and leaves, by where memory runs out. -/
inductive AllocEnd (k : Image) (D : ι → Option ℕ) (O : κ → Option ℕ) (x : ι) (d oldsz newsz n : ℕ)
    (s : Mem) : ℕ → Mem → Prop where
  | full {t : Mem} (hrs : (requests s d (pagesOf oldsz) n)[s.free.length]? = none)
      (hfill : Filled k D O x (pagesOf oldsz) n s t)
      (hacc : ∀ g ∈ s.free, g ∈ t.free ∨ HeldBy t d g) : AllocEnd k D O x d oldsz newsz n s newsz t
  | hole {t : Mem} (hrs : (requests s d (pagesOf oldsz) n)[s.free.length]? = some .table)
      (hlast : s.free.length + 1 = (requests s d (pagesOf oldsz) n).length) (hpos : 0 < n)
      (hmiss : pteAt t d (pagesOf newsz - 1) % 2 = 0) : AllocEnd k D O x d oldsz newsz n s newsz t
  | short {t : Mem} (hrs : (requests s d (pagesOf oldsz) n)[s.free.length]? = some .page)
      (hpos : 0 < n)
      (hmap : ∀ y e u, D y = some e → u < 2 ^ 20 → mapping t e u = mapping s e u)
      (hacc : ∀ g ∈ s.free, g ∈ t.free ∨ HeldBy t d g) : AllocEnd k D O x d oldsz newsz n s 0 t
  | lost {t : Mem} {g : ℕ} (hrs : (requests s d (pagesOf oldsz) n)[s.free.length]? = some .table)
      (hlast : s.free.length + 1 ≠ (requests s d (pagesOf oldsz) n).length)
      (hmap : ∀ y e u, D y = some e → u < 2 ^ 20 → mapping t e u = mapping s e u)
      (hg : g ∈ s.free) (haway : ¬(g ∈ t.free ∨ HeldBy t d g)) :
      AllocEnd k D O x d oldsz newsz n s 0 t

theorem Owns.not_heldBy {g : ℕ} (h : Owns k (s.give g) D O) (hx : D x = some d) :
    ¬(g ∈ s.free ∨ HeldBy s d g) := by
  rintro (hm | ⟨i, hi, hm⟩ | ⟨u, hu, hm⟩)
  · exact (List.nodup_cons.mp h.excl.nodup).1 hm
  · refine h.excl.apart (.spine (.table x i)) g ?_ List.mem_cons_self
    rw [owned_give]
    change spine s D (.table x i) = some g
    rw [spine_table hx hi, hm]
  · refine h.excl.apart (.user x u) g ?_ List.mem_cons_self
    rw [owned_give, owned_user hx hu, hm]

theorem Freed.mapping_eq {lost : Option ℕ} (hsup : Supplied k D O x d (pagesOf oldsz) m lost s r)
    (hfr : Freed k D O x d (fun u => pagesOf oldsz ≤ u ∧ u < pagesOf newsz) r t) (hx : D x = some d)
    (hm : pagesOf oldsz + m ≤ pagesOf newsz)
    (habsent : ∀ u, pagesOf oldsz ≤ u → u < pagesOf newsz → pteAt s d u % 2 = 0) (y : ι) (e u : ℕ)
    (hy : D y = some e) (hu : u < 2 ^ 20) : mapping t e u = mapping s e u := by
  by_cases hin : y = x ∧ pagesOf oldsz ≤ u ∧ u < pagesOf newsz
  · obtain ⟨rfl, hin⟩ := hin
    obtain rfl := Option.some.inj (hx.symm.trans hy)
    rw [mapping_even (habsent u hin.1 hin.2), mapping_even (hfr.gone u hu hin)]
  · rw [mapping_congr (hfr.others y e u hy hu hin)]
    exact mapping_congr (hsup.ptes y e u hy hu fun hc => hin ⟨hc.1, hc.2.1, by omega⟩)

variable [DecidableEq ι] [DecidableEq κ]

theorem allocuvm_ends (h : Owns k s D O) (hx : D x = some d) (hle : oldsz ≤ newsz)
    (hlt : newsz < KERNBASE) (hn : pagesOf oldsz + n = pagesOf newsz)
    (habsent : ∀ u, pagesOf oldsz ≤ u → u < pagesOf newsz → pteAt s d u % 2 = 0) :
    wp (allocuvm k d oldsz newsz) s (AllocEnd k D O x d oldsz newsz n s) (fun _ => False) := by
  have hU := userPages_eq
  have hmax := pagesOf_le_userPages hlt.le
  have hspec : wp (allocuvm k d oldsz newsz) s (Alloc k D O x oldsz newsz s) (fun _ => False) := by
    refine wp_mono (allocuvm_spec h hx) (fun _ _ hq => hq) ?_
    rintro msg ⟨-, -, u, h1, h2, h3⟩
    rw [habsent u h1 h2] at h3
    cases h3
  refine wp_post (wp_and (allocuvm_supplied h hx hle hlt hn habsent) hspec) ?_
  rintro c t ⟨⟨m, lost, r, hsup, hend, hc⟩, halloc⟩
  have hacc : lost = none → ∀ g ∈ s.free, g ∈ r.free ∨ HeldBy r d g := by
    rintro rfl g hg
    have := (hsup.account g).mpr (Or.inl hg)
    simpa using this
  rw [Ended] at hend
  split at hend
  case h_1 hrs =>
    obtain ⟨rfl, rfl⟩ := hend
    rw [if_pos (Or.inl rfl)] at hc
    obtain ⟨rfl, rfl⟩ := hc
    refine .full hrs ?_ (hacc rfl)
    cases halloc with
    | refused hge => omega
    | smaller _ hsmall => exact absurd hsmall (by omega)
    | @grown m' _ _ _ hfill hm =>
      obtain hm | ⟨hlast, -, hmiss⟩ := hm
      · obtain rfl : m' = m := by omega
        exact hfill
      · have hodd := hsup.mapped (pagesOf oldsz + m') (by omega) (by omega)
        simp only [pteAt, hmiss d hx] at hodd
        cases hodd
    | failed _ _ hm => exact absurd hm (by rw [show pagesOf 0 = 0 from rfl]; omega)
  case h_2 hrs =>
    obtain ⟨hmn, rfl, -⟩ := hend
    rw [if_neg (by rintro (hc | ⟨hc, -⟩); omega; exact hc rfl)] at hc
    obtain ⟨rfl, hfr⟩ := hc
    exact .short hrs (by omega) (Freed.mapping_eq hsup hfr hx (by omega) habsent)
      fun g hg => (hfr.conserves g).mpr (hacc rfl g hg)
  case h_3 hrs =>
    obtain ⟨hmn, hlost, -, hiff⟩ := hend
    obtain ⟨g, rfl⟩ := Option.ne_none_iff_exists'.mp hlost
    obtain ⟨hg, hgive⟩ := hsup.away g rfl
    by_cases hlast : m + 1 = n
    · rw [if_pos (Or.inr ⟨hlost, hlast⟩)] at hc
      obtain ⟨rfl, rfl⟩ := hc
      refine .hole hrs (hiff.mp hlast) (by omega) ?_
      rw [show pagesOf c - 1 = pagesOf oldsz + m by omega,
        hsup.ptes x d _ hx (by omega) (by omega)]
      exact habsent _ (by omega) (by omega)
    · rw [if_neg (by rintro (hc | ⟨-, hc⟩) <;> omega)] at hc
      obtain ⟨rfl, hfr⟩ := hc
      refine .lost hrs (fun hc => hlast (hiff.mpr hc))
        (Freed.mapping_eq hsup hfr hx (by omega) habsent)
        hg ?_
      rw [hfr.conserves g]
      exact hgive.not_heldBy hx

omit [DecidableEq ι] [DecidableEq κ] in
theorem AllocEnd.allOrNothing_iff {c : ℕ} (hg : AllocEnd k D O x d oldsz newsz n s c t)
    (h : Owns k s D O) (hx : D x = some d) (hlt : newsz < KERNBASE)
    (hn : pagesOf oldsz + n = pagesOf newsz) :
    AllOrNothing D x d oldsz newsz s c t ↔
      (requests s d (pagesOf oldsz) n)[s.free.length]? ≠ some .table := by
  have hzero : pagesOf 0 = 0 := rfl
  cases hg with
  | full hrs hfill hacc =>
    rw [hrs]
    refine iff_of_true ⟨fun _ => hfill.allMapped hx hn hlt, fun hc => ?_⟩ nofun
    refine Undone.of_account h hx (fun y e u hy hu => mapping_congr (hfill.ptes y e u hy hu ?_))
      hacc
    rw [hc] at hn
    omega
  | hole hrs hlast hpos hmiss =>
    rw [hrs]
    refine iff_of_false (fun hall => ?_) fun hne => hne rfl
    obtain ⟨f, -, hpte, -⟩ := (hall.1 rfl).fresh (pagesOf newsz - 1) (by omega) (by omega)
    rw [hpte, entry_odd] at hmiss
    cases hmiss
  | short hrs hpos hmap hacc =>
    rw [hrs]
    refine iff_of_true ⟨fun hc => ?_, fun _ => Undone.of_account h hx hmap hacc⟩ nofun
    rw [← hc] at hn
    omega
  | lost hrs hlast hmap hg haway =>
    rw [hrs]
    refine iff_of_false (fun hall => haway ?_) fun hne => hne rfl
    exact ((hall.2 rfl).pages _ hg).imp_right Or.inl

/-- `allocuvm` maps everything or undoes everything exactly when memory does not run out at a page
table. -/
theorem allocuvm_all_or_nothing_iff (h : Owns k s D O) (hx : D x = some d) (hle : oldsz ≤ newsz)
    (hlt : newsz < KERNBASE) (hpages : ∀ u < userPages, pteAt s d u % 2 = 1 ↔ u < pagesOf oldsz) :
    wp (allocuvm k d oldsz newsz) s (AllOrNothing D x d oldsz newsz s) (fun _ => False) ↔
      (requests s d (pagesOf oldsz) (pagesOf newsz - pagesOf oldsz))[s.free.length]? ≠
        some .table := by
  have hmono := pagesOf_mono hle
  have hmax := pagesOf_le_userPages hlt.le
  have hn : pagesOf oldsz + (pagesOf newsz - pagesOf oldsz) = pagesOf newsz := by omega
  have habsent : ∀ u, pagesOf oldsz ≤ u → u < pagesOf newsz → pteAt s d u % 2 = 0 := by
    intro u h1 h2
    have := (hpages u (by omega)).not.mpr (by omega)
    omega
  have hends := allocuvm_ends h hx hle hlt hn habsent
  constructor
  · intro hall htable
    refine wp_absurd hall (wp_post hends fun c t hg => ?_)
    exact (hg.allOrNothing_iff h hx hlt hn).not.mpr fun hne => hne htable
  · exact fun hok => wp_post hends fun c t hg => (hg.allOrNothing_iff h hx hlt hn).mpr hok

end allOrNothing

def blank (free : List ℕ) : Mem := ⟨fun _ => fill 0, free⟩

theorem owns_blank {ι κ : Type} {k : Image} {D : ι → Option ℕ} {O : κ → Option ℕ} {x : ι} {d : ℕ}
    {free : List ℕ} (hD : ∀ y e, D y = some e → y = x ∧ e = d) (hO : ∀ y, O y = none)
    (hfree : (d :: free).Nodup) (hpool : ∀ f ∈ d :: free, k.Pool f) : Owns k (blank free) D O := by
  have howned : ∀ z f, owned (blank free) D O z = some f → z = .spine (.dir x) ∧ f = d := by
    intro z f hz
    cases z with
    | spine z =>
      cases z with
      | dir y =>
        obtain ⟨rfl, rfl⟩ := hD y f hz
        exact ⟨rfl, rfl⟩
      | table y i =>
        obtain ⟨-, e, -, he⟩ := spine_table_some hz
        rw [tableAt_fill rfl] at he
        cases he
    | user y v =>
      obtain ⟨-, e, -, he⟩ := owned_user_some hz
      rw [pteAt_fill rfl] at he
      cases he
    | other y =>
      change O y = some f at hz
      rw [hO] at hz
      cases hz
  refine ⟨⟨(List.nodup_cons.mp hfree).2, ?_, ?_⟩, ?_, ?_⟩
  · intro z z' f hz hz'
    rw [(howned z f hz).1, (howned z' f hz').1]
  · intro z f hz
    rw [(howned z f hz).2]
    exact (List.nodup_cons.mp hfree).1
  · exact fun f hf => hpool f (List.mem_cons_of_mem d hf)
  · intro z f hz
    rw [(howned z f hz).2]
    exact hpool d List.mem_cons_self

theorem requests_blank (free : List ℕ) (d : ℕ) : requests (blank free) d 0 1 = [.page, .table] := by
  rw [requests, List.range'_one, List.flatMap_cons, if_pos ⟨tableAt_fill rfl, Or.inl rfl⟩]
  rfl

/-- Two free pages are enough for the first page of a process. -/
theorem allocuvm_all_or_nothing_two :
    wp (allocuvm Spaces.sampleImage 1024 0 4096) (blank [1025, 1026])
      (AllOrNothing (fun _ : Unit => some 1024) () 1024 0 4096 (blank [1025, 1026]))
      (fun _ => False) := by
  refine (allocuvm_all_or_nothing_iff (owns_blank (x := ()) (O := fun _ : Unit => none)
    (fun _ _ he => ⟨rfl, (Option.some.inj he).symm⟩) (fun _ => rfl) (by decide) (by decide)) rfl
      (by decide) (by decide)
    fun u _ => ?_).mpr ?_
  · rw [pteAt_fill rfl, show pagesOf 0 = 0 from rfl]
    omega
  · rw [show pagesOf 0 = 0 from rfl, show pagesOf 4096 - 0 = 1 from rfl, requests_blank]
    exact nofun

/-- With one free page the size grows and nothing is mapped. -/
theorem allocuvm_misses_page :
    ¬wp (allocuvm Spaces.sampleImage 1024 0 4096) (blank [1025])
      (AllOrNothing (fun _ : Unit => some 1024) () 1024 0 4096 (blank [1025]))
      (fun _ => False) := by
  intro hall
  have howns : Owns Spaces.sampleImage (blank [1025]) (fun _ : Unit => some 1024)
      fun _ : Unit => none :=
    owns_blank (x := ()) (fun _ _ he => ⟨rfl, (Option.some.inj he).symm⟩) (fun _ => rfl) (by decide)
      (by decide)
  have hends := allocuvm_ends (n := 1) (x := ()) howns rfl (Nat.zero_le 4096) (by decide) rfl
    fun u _ _ => by rw [pteAt_fill rfl]
  refine wp_absurd hall (wp_post hends fun c t hg => ?_)
  refine (hg.allOrNothing_iff howns rfl (by decide) rfl).not.mpr fun hne => hne ?_
  rw [show pagesOf 0 = 0 from rfl, requests_blank]
  rfl

end Vm
end Xv6
