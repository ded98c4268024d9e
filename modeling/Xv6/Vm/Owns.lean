import Xv6.Vm.Walk

/-! Who holds which physical page. -/
namespace Xv6
namespace Vm
open Prog

def userPages : ℕ := KERNBASE / PGSIZE

theorem userPages_eq : userPages = 2 ^ 19 := by
  norm_num [userPages, KERNBASE_eq, PGSIZE_eq]

/-- Where a page may be held: in the directories of the holders `ι`, in a user mapping of
one of them, or elsewhere. -/
inductive Place (ι κ : Type) where
  | spine (z : Spine ι)
  | user (x : ι) (v : ℕ)
  | other (y : κ)
  deriving DecidableEq

def frameOf (pte : ℕ) : Option ℕ := if pte % 2 = 1 then some (pte / PGSIZE) else none

variable {ι κ : Type}

def owned (s : Mem) (D : ι → Option ℕ) (O : κ → Option ℕ) : Place ι κ → Option ℕ
  | .spine z => spine s D z
  | .user x v => if v < userPages then (D x).bind fun d => frameOf (pteAt s d v) else none
  | .other y => O y

/-- Every page of the pool is free or held at one place, and at most so. -/
structure Owns (k : Image) (s : Mem) (D : ι → Option ℕ) (O : κ → Option ℕ) : Prop where
  excl : Exclusive s.free (owned s D O)
  pool : ∀ f ∈ s.free, k.Pool f
  held : ∀ z f, owned s D O z = some f → k.Pool f

/-- A page is on the free list, or in hand. -/
def Mem.give (s : Mem) (f : ℕ) : Mem := { s with free := f :: s.free }

def SamePtes (D : ι → Option ℕ) (s t : Mem) : Prop :=
  ∀ y e u, D y = some e → u < 2 ^ 20 → pteAt t e u = pteAt s e u

section owned

variable {k : Image} {s t : Mem} {D D' : ι → Option ℕ} {O O' : κ → Option ℕ} {x : ι} {y : κ}
  {d f v : ℕ}

theorem pteAt_free (l : List ℕ) (d v : ℕ) : pteAt { s with free := l } d v = pteAt s d v := by
  have htable : tableAt { s with free := l } d (v / NPTENTRIES) = tableAt s d (v / NPTENTRIES) :=
    tableAt_congr rfl
  rw [pteAt, pteAt, htable]
  cases tableAt s d (v / NPTENTRIES) with
  | none => rfl
  | some g => rfl

theorem owned_free (l : List ℕ) : owned { s with free := l } D O = owned s D O := by
  funext z
  cases z with
  | spine z =>
    cases z with
    | dir x => rfl
    | table x i => rfl
  | user x v => simp only [owned, pteAt_free]
  | other y => rfl

theorem owned_give : owned (s.give f) D O = owned s D O := owned_free _

theorem pteAt_give (d v : ℕ) : pteAt (s.give f) d v = pteAt s d v := pteAt_free _ d v

theorem setPage_give (g : ℕ) (p : Page) : (s.give f).setPage g p = (s.setPage g p).give f := rfl

theorem spine_free (l : List ℕ) (z : Spine ι) : spine { s with free := l } D z = spine s D z := by
  cases z with
  | dir x => rfl
  | table x i => rfl

theorem setWord_give (g i w : ℕ) : (s.give f).setWord g i w = (s.setWord g i w).give f := rfl

theorem owned_user (hx : D x = some d) (hv : v < userPages) :
    owned s D O (.user x v) = frameOf (pteAt s d v) := by
  simp [owned, hv, hx]

theorem owned_user_some (h : owned s D O (.user x v) = some f) :
    v < userPages ∧ ∃ d, D x = some d ∧ frameOf (pteAt s d v) = some f := by
  simp only [owned] at h
  split_ifs at h with hv
  exact ⟨hv, Option.bind_eq_some_iff.mp h⟩

theorem frameOf_some {pte : ℕ} (h : frameOf pte = some f) : pte % 2 = 1 ∧ pte / PGSIZE = f := by
  unfold frameOf at h
  split_ifs at h with hodd
  exact ⟨hodd, Option.some.inj h⟩

theorem mapped_zero {perm : ℕ} (hf : f < 2 ^ 20) : mapped (f * PGSIZE) perm 0 = entry f perm := by
  have hlt : f * PGSIZE < 2 ^ 32 := by
    rw [PGSIZE_eq]
    omega
  rw [mapped, Nat.zero_mul, Nat.add_zero, Nat.mod_eq_of_lt hlt, entry]

theorem tableAt_fill {i : ℕ} (hz : s.page f = fill 0) : tableAt s f i = none := by
  have hw : s.word f i = 0 := by
    rw [Mem.word, hz]
    exact Bytes.word_zero _
  rw [tableAt, hw]
  rfl

theorem pteAt_fill {i : ℕ} (hz : s.page f = fill 0) : pteAt s f i = 0 := by
  rw [pteAt, tableAt_fill hz]

namespace Owns

theorem give [DecidableEq ι] [DecidableEq κ] {z : Place ι κ} (h : Owns k s D O)
    (heq : owned (t.give f) D' O' = Function.update (owned s D O) z none)
    (hz : owned s D O z = some f) (hfree : t.free = s.free) : Owns k (t.give f) D' O' := by
  refine ⟨?_, ?_, ?_⟩
  · rw [heq, Mem.give, hfree]
    exact h.excl.give hz
  · intro g hg
    rw [Mem.give, hfree] at hg
    rcases List.mem_cons.mp hg with rfl | hg
    · exact h.held z g hz
    · exact h.pool g hg
  · intro z' g hg
    rw [heq] at hg
    by_cases hzz : z' = z
    · rw [hzz, Function.update_self] at hg
      simp at hg
    · rw [Function.update_of_ne hzz] at hg
      exact h.held z' g hg

theorem free_iff {l : List ℕ} : Owns k { s with free := l } D O ↔
    Exclusive l (owned s D O) ∧ (∀ f ∈ l, k.Pool f) ∧
      ∀ z f, owned s D O z = some f → k.Pool f := by
  constructor
  · rintro ⟨h1, h2, h3⟩
    rw [owned_free] at h1 h3
    exact ⟨h1, h2, h3⟩
  · rintro ⟨h1, h2, h3⟩
    refine ⟨?_, h2, ?_⟩
    · rw [owned_free]
      exact h1
    · rw [owned_free]
      exact h3

theorem tables (h : Owns k s D O) : Tables k s D where
  excl := h.excl.rename Place.spine (fun _ _ _ _ _ heq => Place.spine.inj heq) fun _ _ hz => hz
  pool := h.pool
  held z f hz := h.held (.spine z) f hz

/-- The general rule: every page held in `t` was held there in `s`, or has been taken from the
free list, for one place. -/
theorem extend {D' : ι → Option ℕ} {O' : κ → Option ℕ} {l : List ℕ} (h : Owns k s D O)
    (hfree : s.free = l ++ t.free) (New : Place ι κ → ℕ → Prop)
    (hmem : ∀ z f, New z f → f ∈ l) (hinj : ∀ z z' f, New z f → New z' f → z = z')
    (hold : ∀ z f, owned t D' O' z = some f → owned s D O z = some f ∨ New z f) :
    Owns k t D' O' := by
  have hnodup := h.excl.nodup
  rw [hfree] at hnodup
  have hsub : ∀ f, f ∈ l ∨ f ∈ t.free → f ∈ s.free := by
    intro f hf
    rw [hfree]
    exact List.mem_append.mpr hf
  have hapart : ∀ z z' f, owned s D O z = some f → ¬ New z' f := by
    intro z z' f hz hnew
    exact h.excl.apart z f hz (hsub f (Or.inl (hmem z' f hnew)))
  refine ⟨⟨hnodup.of_append_right, ?_, ?_⟩, fun f hf => h.pool f (hsub f (Or.inr hf)), ?_⟩
  · intro z z' f hz hz'
    rcases hold z f hz with h1 | h1
    · exact h.excl.inj z z' f h1 ((hold z' f hz').resolve_right (hapart z z' f h1))
    · exact hinj z z' f h1 ((hold z' f hz').resolve_left fun h2 => hapart z' z f h2 h1)
  · intro z f hz hf
    rcases hold z f hz with h1 | h1
    · exact h.excl.apart z f h1 (hsub f (Or.inr hf))
    · exact List.disjoint_of_nodup_append hnodup (hmem z f h1) hf
  · intro z f hz
    rcases hold z f hz with h1 | h1
    · exact h.held z f h1
    · exact h.pool f (hsub f (Or.inl (hmem z f h1)))

theorem mapUser (h : Owns k (s.give f) D O) (hx : D x = some d) {perm : ℕ} (hv : v < userPages)
    (hperm : perm < PGSIZE) (hm : Mapped k D x v 1 (f * PGSIZE) perm s t) : Owns k t D O := by
  obtain ⟨l, hl, hsp, -⟩ := hm.grown.taken
  have hfree : (s.give f).free = (f :: l) ++ t.free := by
    rw [Mem.give, hl]
    rfl
  have hfl : f ∉ l := by
    have hnodup := h.excl.nodup
    rw [hfree] at hnodup
    exact (List.nodup_cons.mp hnodup.of_append_left).1
  refine h.extend hfree (fun z g => (g ∈ l ∧ ∃ w, z = .spine w ∧ spine t D w = some g) ∨
    (z = .user x v ∧ g = f)) ?_ ?_ ?_
  · rintro z g (⟨hg, -⟩ | ⟨-, rfl⟩)
    · exact List.mem_cons_of_mem f hg
    · exact List.mem_cons_self
  · rintro z z' g (⟨hg, w, rfl, hw⟩ | ⟨rfl, rfl⟩) (⟨hg', w', rfl, hw'⟩ | ⟨rfl, heq⟩)
    · rw [hm.grown.tables.excl.inj w w' g hw hw']
    · exact absurd (heq ▸ hg) hfl
    · exact absurd hg' hfl
    · rfl
  · intro z g hz
    rw [owned_give]
    cases z with
    | spine w => exact (hsp w g hz).imp_right fun hg => Or.inl ⟨hg, w, rfl, hz⟩
    | user y u =>
      obtain ⟨hu, e, hy, hg⟩ := owned_user_some hz
      have hu' : u < 2 ^ 20 := by
        rw [userPages_eq] at hu
        omega
      obtain ⟨h1, h2⟩ := hm.ptes y e u hy hu'
      by_cases hin : y = x ∧ v ≤ u ∧ u < v + 1
      · obtain ⟨rfl, hlo, hhi⟩ := hin
        obtain rfl : u = v := by omega
        rw [h1 rfl hlo hhi, Nat.sub_self, mapped_zero (h.pool f List.mem_cons_self).lt] at hg
        refine Or.inr (Or.inr ⟨rfl, ?_⟩)
        rw [← (frameOf_some hg).2, entry_div hperm]
      · rw [h2 hin] at hg
        left
        rw [owned_user hy hu]
        exact hg
    | other y => exact Or.inl hz

theorem grow {I : ℕ → Prop} (h : Owns k s D O) (hg : Grown k D x I s t)
    (hptes : ∀ y e u, D y = some e → u < userPages → pteAt t e u = pteAt s e u) :
    Owns k t D O := by
  obtain ⟨l, hl, hsp, -⟩ := hg.taken
  refine h.extend hl (fun z g => g ∈ l ∧ ∃ w, z = .spine w ∧ spine t D w = some g) ?_ ?_ ?_
  · rintro z g ⟨hg, -⟩
    exact hg
  · rintro z z' g ⟨-, w, rfl, hw⟩ ⟨-, w', rfl, hw'⟩
    rw [hg.tables.excl.inj w w' g hw hw']
  · intro z g hz
    cases z with
    | spine w => exact (hsp w g hz).imp_right fun hg => ⟨hg, w, rfl, hz⟩
    | user y u =>
      obtain ⟨hu, e, hy, hg⟩ := owned_user_some hz
      rw [hptes y e u hy hu] at hg
      left
      rw [owned_user hy hu]
      exact hg
    | other y => exact Or.inl hz

theorem of_give (h : Owns k (s.give f) D O) : Owns k s D O := by
  obtain ⟨h1, h2, h3⟩ := free_iff.mp h
  exact ⟨h1.tail, fun g hg => h2 g (List.mem_cons_of_mem f hg), h3⟩

theorem put [DecidableEq κ] (h : Owns k (s.give f) D O) (y : κ) :
    Owns k s D (Function.update O y (some f)) := by
  refine h.extend (l := [f]) rfl (fun z g => z = .other y ∧ g = f) ?_ ?_ ?_
  · rintro z g ⟨-, rfl⟩
    exact List.mem_singleton_self g
  · rintro z z' g ⟨rfl, -⟩ ⟨rfl, -⟩
    rfl
  · intro z g hz
    rw [owned_give]
    cases z with
    | spine w => exact Or.inl hz
    | user x v => exact Or.inl hz
    | other y' =>
      simp only [owned] at hz
      by_cases hy : y' = y
      · rw [hy, Function.update_self, Option.some.injEq] at hz
        exact Or.inr ⟨by rw [hy], hz.symm⟩
      · rw [Function.update_of_ne hy] at hz
        exact Or.inl hz

end Owns

theorem spine_setDir [DecidableEq ι] {g : ℕ} {z : Spine ι} (hz : s.page f = fill 0)
    (hg : spine s (Function.update D x (some f)) z = some g) :
    spine s D z = some g ∨ (z = .dir x ∧ g = f) := by
  cases z with
  | dir y =>
    simp only [spine] at hg
    by_cases hy : y = x
    · rw [hy, Function.update_self, Option.some.injEq] at hg
      exact Or.inr ⟨by rw [hy], hg.symm⟩
    · rw [Function.update_of_ne hy] at hg
      exact Or.inl hg
  | table y i =>
    obtain ⟨hi, e, hy, ht⟩ := spine_table_some hg
    by_cases hyx : y = x
    · rw [hyx, Function.update_self, Option.some.injEq] at hy
      rw [← hy, tableAt_fill hz] at ht
      simp at ht
    · rw [Function.update_of_ne hyx] at hy
      left
      rw [spine_table hy hi]
      exact ht

namespace Owns

/-- A zeroed page in hand becomes a directory. -/
theorem setDir [DecidableEq ι] (h : Owns k (s.give f) D O) (hz : s.page f = fill 0) (x : ι) :
    Owns k s (Function.update D x (some f)) O := by
  refine h.extend (l := [f]) rfl (fun z g => z = .spine (.dir x) ∧ g = f) ?_ ?_ ?_
  · rintro z g ⟨-, rfl⟩
    exact List.mem_singleton_self g
  · rintro z z' g ⟨rfl, -⟩ ⟨rfl, -⟩
    rfl
  · intro z g hg
    rw [owned_give]
    cases z with
    | spine w => exact (spine_setDir hz hg).imp_right fun hnew => ⟨by rw [hnew.1], hnew.2⟩
    | user y v =>
      obtain ⟨hv, e, hy, hf⟩ := owned_user_some hg
      by_cases hyx : y = x
      · rw [hyx, Function.update_self, Option.some.injEq] at hy
        rw [← hy, pteAt_fill hz] at hf
        simp [frameOf] at hf
      · rw [Function.update_of_ne hyx] at hy
        left
        rw [owned_user hy hv]
        exact hf
    | other y => exact Or.inl hg

theorem forget [DecidableEq κ] (h : Owns k s D O) (y : κ) :
    Owns k s D (Function.update O y none) := by
  have hle : ∀ z f, owned s D (Function.update O y none) z = some f → owned s D O z = some f := by
    intro z f hz
    cases z with
    | spine w => exact hz
    | user x v => exact hz
    | other y' =>
      simp only [owned] at hz ⊢
      by_cases hy : y' = y
      · rw [hy, Function.update_self] at hz
        simp at hz
      · rwa [Function.update_of_ne hy] at hz
  exact ⟨h.excl.mono hle, h.pool, fun z f hz => h.held z f (hle z f hz)⟩

theorem takeOut [DecidableEq ι] [DecidableEq κ] (h : Owns k s D O) (hy : O y = some f) :
    Owns k (s.give f) D (Function.update O y none) := by
  have heq : owned (s.give f) D (Function.update O y none) =
      Function.update (owned s D O) (.other y) none := by
    rw [owned_give]
    funext z
    cases z with
    | spine w => rw [Function.update_of_ne (by simp)]; rfl
    | user x v => rw [Function.update_of_ne (by simp)]; rfl
    | other y' =>
      simp only [owned]
      by_cases hyy : y' = y
      · rw [hyy, Function.update_self, Function.update_self]
      · rw [Function.update_of_ne hyy, Function.update_of_ne (by simpa using hyy)]
        rfl
  have hf : owned s D O (.other y) = some f := hy
  exact h.give heq hf rfl

theorem not_spine_of_free (h : Owns k s D O) (hf : f ∈ s.free) (z : Spine ι) :
    spine s D z ≠ some f := by
  intro hz
  exact h.excl.apart (.spine z) f hz hf

theorem not_spine_of_user (h : Owns k s D O) (hx : D x = some d) (hv : v < userPages)
    (hf : frameOf (pteAt s d v) = some f) (z : Spine ι) : spine s D z ≠ some f := by
  intro hz
  have heq := h.excl.inj (.spine z) (.user x v) f hz (by rw [owned_user hx hv, hf])
  simp at heq

end Owns

theorem spine_setPage (hf : ∀ z, spine s D z ≠ some f) (p : Page) :
    spine (s.setPage f p) D = spine s D := by
  funext z
  cases z with
  | dir x => rfl
  | table x i =>
    simp only [spine]
    split_ifs with hi
    · cases hx : D x with
      | none => rw [Option.bind_none, Option.bind_none]
      | some d =>
        have hne : d ≠ f := by
          rintro rfl
          exact hf (.dir x) hx
        rw [Option.bind_some, Option.bind_some]
        exact tableAt_congr (word_setPage_of_ne hne p i)
    · rfl

theorem samePtes_setPage (hf : ∀ z, spine s D z ≠ some f) (p : Page) :
    SamePtes D s (s.setPage f p) := by
  intro y e u hy hu
  have hq : u / NPTENTRIES < NPDENTRIES := by
    rw [NPDENTRIES_eq, NPTENTRIES]
    omega
  have hef : e ≠ f := by
    rintro rfl
    exact hf (.dir y) hy
  unfold pteAt
  rw [tableAt_congr (word_setPage_of_ne hef p _)]
  cases ht : tableAt s e (u / NPTENTRIES) with
  | none => rfl
  | some g =>
    dsimp only
    refine word_setPage_of_ne ?_ p _
    rintro rfl
    exact hf (.table y (u / NPTENTRIES)) (by rw [spine_table hy hq, ht])

theorem owned_congr (hspine : spine t D = spine s D) (hptes : SamePtes D s t) :
    owned t D O = owned s D O := by
  funext z
  cases z with
  | spine z => exact congrFun hspine z
  | user x v =>
    simp only [owned]
    split_ifs with hv
    · cases hx : D x with
      | none => rw [Option.bind_none, Option.bind_none]
      | some d =>
        rw [Option.bind_some, Option.bind_some, hptes x d v hx]
        rw [userPages_eq] at hv
        omega
    · rfl
  | other y => rfl

theorem owned_setPage (hf : ∀ z, spine s D z ≠ some f) (p : Page) :
    owned (s.setPage f p) D O = owned s D O :=
  owned_congr (spine_setPage hf p) (samePtes_setPage hf p)

theorem Owns.setPage (h : Owns k s D O) (hf : ∀ z, spine s D z ≠ some f) (p : Page) :
    Owns k (s.setPage f p) D O := by
  refine ⟨?_, h.pool, ?_⟩
  · rw [owned_setPage hf]
    exact h.excl
  · rw [owned_setPage hf]
    exact h.held

section setWord

variable [DecidableEq ι] {g w : ℕ}

theorem owned_setWord_user [DecidableEq κ] (h : Tables k s D) (hx : D x = some d)
    (ht : tableAt s d (v / NPTENTRIES) = some g) (hv : v < userPages) (hw : w < 2 ^ 32) :
    owned (s.setWord g (v % NPTENTRIES) w) D O =
      Function.update (owned s D O) (.user x v) (frameOf w) := by
  have hU := userPages_eq
  have hp : v / NPTENTRIES < NPDENTRIES := by
    rw [NPDENTRIES_eq, NPTENTRIES]
    omega
  funext z
  cases z with
  | spine z =>
    rw [Function.update_of_ne (by simp)]
    exact congrFun (h.spine_setWord hx hp ht _ w) z
  | user y u =>
    by_cases hyu : y = x ∧ u = v
    · obtain ⟨rfl, rfl⟩ := hyu
      rw [Function.update_self, owned_user hx hv,
        h.pteAt_setWord hx ht (by omega) hw hx (by omega), if_pos ⟨rfl, rfl⟩]
    · rw [Function.update_of_ne (by simpa using hyu)]
      simp only [owned]
      split_ifs with hu
      · cases hy : D y with
        | none => rw [Option.bind_none, Option.bind_none]
        | some e =>
          rw [Option.bind_some, Option.bind_some,
            h.pteAt_setWord hx ht (by omega) hw hy (by omega), if_neg hyu]
      · rfl
  | other y =>
    rw [Function.update_of_ne (by simp)]
    rfl

theorem owned_setWord_kernel (h : Tables k s D) (hx : D x = some d)
    (ht : tableAt s d (v / NPTENTRIES) = some g) (hlo : userPages ≤ v) (hv : v < 2 ^ 20)
    (hw : w < 2 ^ 32) : owned (s.setWord g (v % NPTENTRIES) w) D O = owned s D O := by
  have hp : v / NPTENTRIES < NPDENTRIES := by
    rw [NPDENTRIES_eq, NPTENTRIES]
    omega
  funext z
  cases z with
  | spine z => exact congrFun (h.spine_setWord hx hp ht _ w) z
  | user y u =>
    simp only [owned]
    split_ifs with hu
    · cases hy : D y with
      | none => rw [Option.bind_none, Option.bind_none]
      | some e =>
        have hU := userPages_eq
        rw [Option.bind_some, Option.bind_some,
          h.pteAt_setWord hx ht hv hw hy (by omega), if_neg (by omega)]
    · rfl
  | other y => rfl

namespace Owns

theorem freeUser [DecidableEq κ] (h : Owns k s D O) (hx : D x = some d)
    (ht : tableAt s d (v / NPTENTRIES) = some g) (hv : v < userPages)
    (hf : frameOf (pteAt s d v) = some f) (p : Page) :
    Owns k (((s.setPage f p).give f).setWord g (v % NPTENTRIES) 0) D O := by
  have hspine := h.not_spine_of_user hx hv hf
  have hU := userPages_eq
  have hp : v / NPTENTRIES < NPDENTRIES := by
    rw [NPDENTRIES_eq, NPTENTRIES]
    omega
  have h' := h.setPage hspine p
  have ht' : tableAt (s.setPage f p) d (v / NPTENTRIES) = some g := by
    rw [← spine_table hx hp, spine_setPage hspine, spine_table hx hp]
    exact ht
  have heq : owned (((s.setPage f p).setWord g (v % NPTENTRIES) 0).give f) D O =
      Function.update (owned (s.setPage f p) D O) (.user x v) none := by
    rw [owned_give]
    exact owned_setWord_user h'.tables hx ht' hv (by omega)
  rw [setWord_give]
  refine h'.give heq ?_ rfl
  rw [owned_setPage hspine, owned_user hx hv]
  exact hf

theorem setPte [DecidableEq κ] (h : Owns k s D O) (hx : D x = some d)
    (ht : tableAt s d (v / NPTENTRIES) = some g) (hv : v < 2 ^ 20) (hw : w < 2 ^ 32)
    (hf : frameOf w = frameOf (pteAt s d v)) : Owns k (s.setWord g (v % NPTENTRIES) w) D O := by
  have heq : owned (s.setWord g (v % NPTENTRIES) w) D O = owned s D O := by
    by_cases hvu : v < userPages
    · rw [owned_setWord_user h.tables hx ht hvu hw, hf, ← owned_user hx hvu,
        Function.update_eq_self]
    · exact owned_setWord_kernel h.tables hx ht (by omega) hv hw
  refine ⟨?_, h.pool, ?_⟩
  · rw [heq]
    exact h.excl
  · rw [heq]
    exact h.held

end Owns

end setWord

def tablesFrom (s : Mem) (d i : ℕ) : List ℕ :=
  (List.range' i (NPDENTRIES - i)).filterMap fun j => tableAt s d j

theorem mem_tablesFrom {i g : ℕ} (hg : g ∈ tablesFrom s d i) :
    ∃ j < NPDENTRIES, tableAt s d j = some g := by
  obtain ⟨j, hj, htab⟩ := List.mem_filterMap.mp hg
  rw [List.mem_range'_1] at hj
  exact ⟨j, by omega, htab⟩

theorem tablesFrom_of_lt {i : ℕ} (hi : i < NPDENTRIES) :
    tablesFrom s d i = (tableAt s d i).toList ++ tablesFrom s d (i + 1) := by
  have hlen : NPDENTRIES - i = NPDENTRIES - (i + 1) + 1 := by omega
  rw [tablesFrom, tablesFrom, hlen, List.range'_succ, List.filterMap_cons]
  cases tableAt s d i with
  | none => rfl
  | some g => rfl

theorem owned_clearDir [DecidableEq ι] {z : Place ι κ}
    (hz : owned s (Function.update D x none) O z = some f) :
    owned s D O z = some f ∧ z ≠ .spine (.dir x) ∧ ∀ i, z ≠ .spine (.table x i) := by
  have hD : ∀ y e, Function.update D x none y = some e → y ≠ x ∧ D y = some e := by
    intro y e hy
    by_cases hyx : y = x
    · rw [hyx, Function.update_self] at hy
      simp at hy
    · rw [Function.update_of_ne hyx] at hy
      exact ⟨hyx, hy⟩
  cases z with
  | spine w =>
    cases w with
    | dir y =>
      obtain ⟨hyx, hy⟩ := hD y f hz
      exact ⟨hy, by simpa using hyx, by simp⟩
    | table y i =>
      obtain ⟨hi, e, hye, ht⟩ := spine_table_some hz
      obtain ⟨hyx, hy⟩ := hD y e hye
      refine ⟨?_, by simp, by simp [hyx]⟩
      simp only [owned]
      rw [spine_table hy hi, ht]
  | user y v =>
    obtain ⟨hv, e, hye, hf⟩ := owned_user_some hz
    obtain ⟨-, hy⟩ := hD y e hye
    exact ⟨by rw [owned_user hy hv, hf], by simp, by simp⟩
  | other y => exact ⟨hz, by simp, by simp⟩

def dirPlaces (x : ι) : List (Place ι κ) :=
  .spine (.dir x) :: (List.range' 0 NPDENTRIES).map fun j => .spine (.table x j)

theorem nodup_dirPlaces (x : ι) : (dirPlaces x : List (Place ι κ)).Nodup := by
  refine List.nodup_cons.mpr ⟨by simp, List.Nodup.map ?_ List.nodup_range'⟩
  intro i j heq
  simpa using heq

theorem filterMap_dirPlaces (hx : D x = some d) :
    (dirPlaces x).filterMap (owned s D O) = d :: tablesFrom s d 0 := by
  have hdir : owned s D O (.spine (.dir x)) = some d := hx
  have hcongr : (List.range' 0 NPDENTRIES).filterMap
      (owned s D O ∘ fun j => .spine (.table x j)) = tablesFrom s d 0 := by
    refine List.filterMap_congr ?_
    intro j hj
    rw [List.mem_range'_1] at hj
    exact spine_table hx (by omega)
  rw [dirPlaces, List.filterMap_cons_some hdir, List.filterMap_map, hcongr]

theorem Owns.clearDir [DecidableEq ι] (h : Owns k s D O) (x : ι) :
    Owns k s (Function.update D x none) O where
  excl := h.excl.mono fun _ _ hz => (owned_clearDir hz).1
  pool := h.pool
  held z f hz := h.held z f (owned_clearDir hz).1

/-- The holder `x` gives up its directory with all page tables. -/
theorem Owns.takeDir [DecidableEq ι] (h : Owns k s D O) (hx : D x = some d) :
    Owns k { s with free := d :: tablesFrom s d 0 ++ s.free } (Function.update D x none) O := by
  have htabs := filterMap_dirPlaces (s := s) (O := O) hx
  have hle : ∀ z f, owned s (Function.update D x none) O z = some f →
      owned s D O z = some f ∧ z ∉ dirPlaces x := by
    intro z f hz
    obtain ⟨h1, h2, h3⟩ := owned_clearDir hz
    refine ⟨h1, ?_⟩
    intro hmem
    rcases List.mem_cons.mp hmem with rfl | hmem
    · exact h2 rfl
    · obtain ⟨j, -, rfl⟩ := List.mem_map.mp hmem
      exact h3 j rfl
  have hexcl := h.excl.gives (nodup_dirPlaces x) hle
  rw [htabs] at hexcl
  refine free_iff.mpr ⟨hexcl, ?_, fun z f hz => h.held z f (owned_clearDir hz).1⟩
  intro g hg
  rcases List.mem_append.mp hg with hg | hg
  · rw [← htabs] at hg
    obtain ⟨z, -, hz⟩ := List.mem_filterMap.mp hg
    exact h.held z g hz
  · exact h.pool g hg

theorem Owns.perm {l : List ℕ} (h : Owns k s D O) (hl : s.free.Perm l) :
    Owns k { s with free := l } D O := by
  refine free_iff.mpr ⟨⟨hl.nodup_iff.mp h.excl.nodup, h.excl.inj, ?_⟩, ?_, h.held⟩
  · intro z f hz hf
    exact h.excl.apart z f hz (hl.mem_iff.mpr hf)
  · intro f hf
    exact h.pool f (hl.mem_iff.mpr hf)

def Place.map {ι' : Type} (e : ι' → ι) : Place ι' κ → Place ι κ
  | .spine (.dir x) => .spine (.dir (e x))
  | .spine (.table x i) => .spine (.table (e x) i)
  | .user x v => .user (e x) v
  | .other y => .other y

theorem Place.map_injective {ι' : Type} {e : ι' → ι} (he : Function.Injective e) :
    Function.Injective (Place.map e : Place ι' κ → Place ι κ) := by
  intro z z' heq
  match z, z' with
  | .spine (.dir x), .spine (.dir x') =>
    simp only [Place.map, Place.spine.injEq, Spine.dir.injEq] at heq
    rw [he heq]
  | .spine (.table x i), .spine (.table x' i') =>
    simp only [Place.map, Place.spine.injEq, Spine.table.injEq] at heq
    rw [he heq.1, heq.2]
  | .user x v, .user x' v' =>
    simp only [Place.map, Place.user.injEq] at heq
    rw [he heq.1, heq.2]
  | .other y, .other y' =>
    simp only [Place.map, Place.other.injEq] at heq
    rw [heq]
  | .spine (.dir x), .spine (.table x' i') => simp [Place.map] at heq
  | .spine (.table x i), .spine (.dir x') => simp [Place.map] at heq
  | .spine w, .user x' v' => cases w <;> simp [Place.map] at heq
  | .spine w, .other y' => cases w <;> simp [Place.map] at heq
  | .user x v, .spine w => cases w <;> simp [Place.map] at heq
  | .user x v, .other y' => simp [Place.map] at heq
  | .other y, .spine w => cases w <;> simp [Place.map] at heq
  | .other y, .user x v => simp [Place.map] at heq

theorem Owns.reindex {ι' : Type} (h : Owns k s D O) {e : ι' → ι} (he : Function.Injective e) :
    Owns k s (fun x => D (e x)) O := by
  have hmap : ∀ z, owned s (fun x => D (e x)) O z = owned s D O (Place.map e z) := by
    intro z
    match z with
    | .spine (.dir x) => rfl
    | .spine (.table x i) => rfl
    | .user x v => rfl
    | .other y => rfl
  refine ⟨h.excl.rename (Place.map e) ?_ ?_, h.pool, ?_⟩
  · intro z z' f _ _ heq
    exact Place.map_injective he heq
  · intro z f hz
    rw [← hmap]
    exact hz
  · intro z f hz
    rw [hmap] at hz
    exact h.held _ f hz

end owned

end Vm
end Xv6
